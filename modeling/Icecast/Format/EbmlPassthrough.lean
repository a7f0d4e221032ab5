import Icecast.Format.EbmlParser

/-!
# The EBML parser passes every byte on

The header, the chunks returned so far, the read buffer and the input buffer behind the cursor are
always the bytes received, in this order; each turn of the loop only moves a boundary between them.
An offset at which a Cluster was recognised is the start of a chunk, or the place `cluster_start`
points to, or the cursor.
-/

namespace Icecast.Format.Ebml

open Lib.Machine Lib.Socket

/-! ## Lengths of numbers and tags -/

theorem findMarker_size {value bits size digits marker : ℕ} (hbits : bits ≤ 8)
    (h : findMarker value bits = some (size, digits, marker)) : 1 ≤ size := by
  induction bits with
  | zero => simp [findMarker] at h
  | succ bit ih =>
    rw [findMarker] at h
    split at h
    · simp only [Option.some.injEq, Prod.mk.injEq] at h
      omega
    · exact ih (by omega) h

theorem ebmlParseVarInt_pos {buffer : Bytes} {length value : ℕ}
    (h : ebmlParseVarInt buffer = .done length value) : 1 ≤ length := by
  unfold ebmlParseVarInt at h
  split at h
  · cases h
  · split at h
    · cases h
    · rename_i size digits marker hmarker
      split at h
      · cases h
      · injection h with hlength
        rw [← hlength]
        exact findMarker_size le_rfl hmarker

/-- A number that has been read is the same when more bytes follow. -/
theorem ebmlParseVarInt_append {buffer : Bytes} {length value : ℕ}
    (h : ebmlParseVarInt buffer = .done length value) (more : Bytes) :
    ebmlParseVarInt (buffer ++ more) = .done length value ∧ length ≤ buffer.length := by
  cases buffer with
  | nil => simp [ebmlParseVarInt] at h
  | cons first rest =>
    simp only [ebmlParseVarInt, List.cons_append, List.length_append, List.length_cons] at h ⊢
    split at h
    · cases h
    · rename_i size digits marker hmarker
      split at h
      · cases h
      · rename_i hlen
        have htake : (rest ++ more).take (size - 1) = rest.take (size - 1) :=
          List.take_append_of_le_length (not_lt.mp hlen)
        have hsize := findMarker_size le_rfl hmarker
        have hlength : size = length := by injection h
        rw [if_neg (by omega), htake]
        exact ⟨h, by omega⟩

theorem ebmlParseTag_cases {buffer : Bytes} {length payload : ℕ}
    (h : ebmlParseTag buffer = .done length payload) :
    ∃ typeLength tagId sizeLength, ebmlParseVarInt buffer = .done typeLength tagId ∧
      ebmlParseVarInt (buffer.drop typeLength) = .done sizeLength payload ∧
      length = typeLength + sizeLength := by
  unfold ebmlParseTag at h
  split at h
  · rename_i typeLength tagId htype
    split at h
    · rename_i sizeLength payloadLength hsize
      injection h with hlength hpayload
      exact ⟨typeLength, tagId, sizeLength, htype, by rw [hsize, hpayload], hlength.symm⟩
    · rename_i hnot
      exact absurd h (hnot _ _)
  · rename_i hnot
    exact absurd h (hnot _ _)

theorem ebmlParseTag_pos {buffer : Bytes} {length payload : ℕ}
    (h : ebmlParseTag buffer = .done length payload) : 1 ≤ length := by
  obtain ⟨typeLength, tagId, sizeLength, htype, -, rfl⟩ := ebmlParseTag_cases h
  have := ebmlParseVarInt_pos htype
  omega

theorem ebmlParseTag_append {buffer : Bytes} {length payload : ℕ}
    (h : ebmlParseTag buffer = .done length payload) (more : Bytes) :
    ebmlParseTag (buffer ++ more) = .done length payload := by
  obtain ⟨typeLength, tagId, sizeLength, htype, hsize, rfl⟩ := ebmlParseTag_cases h
  obtain ⟨htype', hle⟩ := ebmlParseVarInt_append htype more
  have hsize' := (ebmlParseVarInt_append hsize more).1
  rw [← List.drop_append_of_le_length hle] at hsize'
  simp only [ebmlParseTag, htype', hsize']

/-! ## The invariant of the parser -/

def ParsingState.InHeader (state : ParsingState) : Prop :=
  state = .parsingHeader ∨ state = .copyingToHeader

def ParsingState.Copying (state : ParsingState) : Prop :=
  state = .copyingToHeader ∨ state = .copyingToData

/-- The offset `offset` in the stream, where a Cluster was recognised, has been the start of a chunk,
or is where the read buffer will be cut, or is still in the input buffer. `starts` are the places of
the output at which a chunk starts. -/
def Placed (ebml : EbmlState) (cursor : ℕ) (out : Bytes) (starts : ℕ → Prop) (offset : ℕ) : Prop :=
  (∃ place < out.length, offset = ebml.header.length + place ∧ starts place) ∨
  (0 ≤ ebml.clusterStart ∧ (offset : ℤ) = ebml.header.length + out.length + ebml.clusterStart) ∨
  (ebml.parseState = .startCluster ∧ offset = ebml.consumed + cursor)

structure ParserInv (ebml : EbmlState) (cursor : ℕ) (received out : Bytes) (starts : ℕ → Prop)
    (captured : Option Bytes) : Prop where
  bytes_eq : ebml.header ++ out ++ ebml.buffer ++ ebml.inputBuffer.drop cursor = received
  cursor_le : cursor ≤ ebml.inputBuffer.length
  consumed_eq : ebml.consumed + cursor = ebml.header.length + out.length + ebml.buffer.length
  clusterStart_le : ebml.clusterStart ≤ ebml.buffer.length
  inHeader : ebml.parseState.InHeader → out = [] ∧ ebml.buffer = [] ∧ ebml.clusterStart = -1 ∧
    ebml.clusters = [] ∧ ebml.headerSize = 0 ∧ captured = none
  headerSize_eq : ebml.headerSize = 0 ∨ ebml.headerSize = ebml.header.length
  captured_eq : ∀ data, captured = some data → data = ebml.header
  placed : ∀ offset ∈ ebml.clusters, Placed ebml cursor out starts offset
  magic : ∀ offset ∈ ebml.clusters, clusterMagic <+: received.drop offset
  copying : ebml.parseState.Copying → 0 < ebml.copyLen
  starting : ebml.parseState = .startCluster → ∃ length payload,
    ebmlParseTag (ebml.inputBuffer.drop cursor) = .done length payload

variable {ebml : EbmlState} {cursor : ℕ} {received out : Bytes} {starts : ℕ → Prop}
  {captured : Option Bytes}

/-- What probing may change is of no concern to the passing on of bytes. -/
def SameBuffers (ebml ebml' : EbmlState) : Prop :=
  ∃ status keyframeTrack parsingTrack isVideo, ebml' = { ebml with
    clusterStartsWithKeyframe := status
    keyframeTrackNumber := keyframeTrack
    parsingTrackNumber := parsingTrack
    parsingTrackIsVideo := isVideo }

theorem SameBuffers.refl (ebml : EbmlState) : SameBuffers ebml ebml := ⟨_, _, _, _, rfl⟩

theorem ebmlCheckTrack_sameBuffers {ebml' : EbmlState} (h : SameBuffers ebml ebml') :
    SameBuffers ebml (ebmlCheckTrack ebml') := by
  obtain ⟨status, keyframeTrack, parsingTrack, isVideo, rfl⟩ := h
  unfold ebmlCheckTrack
  split
  · exact ⟨_, _, _, _, rfl⟩
  · exact ⟨_, _, _, _, rfl⟩

theorem probeSimpleBlock_sameBuffers (ebml : EbmlState) (input : Bytes) (tagLength : ℕ) :
    SameBuffers ebml (probeSimpleBlock ebml input tagLength).2 := by
  unfold probeSimpleBlock
  repeat' split
  all_goals exact ⟨_, _, _, _, rfl⟩

theorem probeTrackNumber_sameBuffers (ebml : EbmlState) (input : Bytes) (tagLength payloadLength : ℕ) :
    SameBuffers ebml (probeTrackNumber ebml input tagLength payloadLength).2 := by
  unfold probeTrackNumber
  split
  · exact .refl ebml
  · exact .refl ebml
  · exact ebmlCheckTrack_sameBuffers ⟨_, _, _, _, rfl⟩

theorem probeTrackType_sameBuffers (ebml : EbmlState) (input : Bytes) (tagLength payloadLength : ℕ) :
    SameBuffers ebml (probeTrackType ebml input tagLength payloadLength).2 := by
  unfold probeTrackType
  split
  · exact .refl ebml
  · exact .refl ebml
  · split
    · exact ebmlCheckTrack_sameBuffers ⟨_, _, _, _, rfl⟩
    · exact .refl ebml

theorem probe_sameBuffers (ebml : EbmlState) (input : Bytes) (tagLength payloadLength : ℕ) :
    SameBuffers ebml (probe ebml input tagLength payloadLength).2.1 := by
  unfold probe
  split
  · split
    · exact probeSimpleBlock_sameBuffers ebml input tagLength
    · split
      · exact ⟨_, _, _, _, rfl⟩
      · split
        · exact probeTrackNumber_sameBuffers ebml input tagLength payloadLength
        · split
          · exact probeTrackType_sameBuffers ebml input tagLength payloadLength
          · exact .refl ebml
  · exact .refl ebml

theorem ParserInv.congr {ebml' : EbmlState} (inv : ParserInv ebml cursor received out starts captured)
    (h : SameBuffers ebml ebml') : ParserInv ebml' cursor received out starts captured := by
  obtain ⟨status, keyframeTrack, parsingTrack, isVideo, rfl⟩ := h
  exact ⟨inv.bytes_eq, inv.cursor_le, inv.consumed_eq, inv.clusterStart_le, inv.inHeader,
    inv.headerSize_eq, inv.captured_eq, inv.placed, inv.magic, inv.copying, inv.starting⟩

/-- The bytes behind the cursor are those of the stream from the offset of the cursor on. -/
theorem ParserInv.drop_received (inv : ParserInv ebml cursor received out starts captured) :
    received.drop (ebml.consumed + cursor) = ebml.inputBuffer.drop cursor := by
  rw [inv.consumed_eq, ← inv.bytes_eq, List.drop_left' (by simp [add_assoc])]

theorem Placed.of_start_cluster {ebml' : EbmlState} {offset : ℕ}
    (h : Placed ebml cursor out starts offset)
    (hheader : ebml'.header = ebml.header) (hstart : ebml'.clusterStart = ebml.clusterStart)
    (hstate : ebml.parseState ≠ .startCluster) (cursor' : ℕ) :
    Placed ebml' cursor' out starts offset := by
  rcases h with h | h | ⟨h, -⟩
  · exact Or.inl (hheader ▸ h)
  · exact Or.inr (Or.inl (by rwa [hheader, hstart]))
  · exact absurd h hstate

/-! ## Turns of the loop -/

/-- What the parser makes of an element: an error, a wait, a Cluster, or something to copy. -/
theorem parseElement_cases (ebml : EbmlState) (cursor : ℕ) :
    (parseElement ebml cursor).1 = .fail ∨
    (∃ ebml', parseElement ebml cursor = (.wait, ebml') ∧ SameBuffers ebml ebml') ∨
    (∃ length payload, ebmlParseTag (ebml.inputBuffer.drop cursor) = .done length payload ∧
      clusterMagic <+: ebml.inputBuffer.drop cursor ∧
      parseElement ebml cursor = (.proceed, { ebml with
        parseState := .startCluster
        clusters := ebml.clusters ++ [ebml.consumed + cursor] })) ∨
    (∃ ebml' length, 0 < length ∧ SameBuffers ebml ebml' ∧
      parseElement ebml cursor = (.proceed, { ebml' with
        copyLen := length
        parseState := copyState ebml.parseState })) := by
  cases htag : ebmlParseTag (ebml.inputBuffer.drop cursor) with
  | wait =>
    refine Or.inr (Or.inl ⟨ebml, ?_, .refl ebml⟩)
    simp [parseElement, htag]
  | corrupt =>
    refine Or.inl ?_
    simp [parseElement, htag]
  | done length payload =>
    have hpos := ebmlParseTag_pos htag
    by_cases hcluster : uncommonMagicLen < length ∧
        (ebml.inputBuffer.drop cursor).take uncommonMagicLen = clusterMagic
    · refine Or.inr (Or.inr (Or.inl ⟨length, payload, rfl, ?_, ?_⟩))
      · rw [← hcluster.2]
        exact List.take_prefix _ _
      · simp [parseElement, htag, hcluster.1, hcluster.2]
    · simp only [parseElement, htag, if_neg hcluster]
      generalize hpayload : (if uncommonMagicLen < length ∧
        ((ebml.inputBuffer.drop cursor).take uncommonMagicLen = segmentMagic ∨
          (ebml.inputBuffer.drop cursor).take uncommonMagicLen = tracksMagic) then 0
        else if payload = ebmlUnknown then 0 else payload) = payloadLength
      have hsame := probe_sameBuffers ebml (ebml.inputBuffer.drop cursor) length payloadLength
      rcases hprobe : probe ebml (ebml.inputBuffer.drop cursor) length payloadLength with
        ⟨result, probed, copied⟩
      rw [hprobe] at hsame
      cases result with
      | proceed => exact Or.inr (Or.inr (Or.inr ⟨probed, length + copied, by omega, hsame, rfl⟩))
      | wait => exact Or.inr (Or.inl ⟨probed, rfl, hsame⟩)
      | fail => exact Or.inl rfl

/-- A bound on the turns that are left. -/
def work (ebml : EbmlState) (cursor : ℕ) : ℕ :=
  3 * (ebml.inputBuffer.length - cursor) +
    match ebml.parseState with
    | .parsingHeader | .parsingClusters => 2
    | .startCluster => 1
    | .copyingToHeader | .copyingToData => 0

theorem work_zero_lt (ebml : EbmlState) : work ebml 0 < 3 * ebml.inputBuffer.length + 3 := by
  cases hstate : ebml.parseState <;> simp [work, hstate]

/-- A turn that does not fail keeps the invariant and has less work left when it goes on. -/
structure TurnOk (ebml : EbmlState) (cursor : ℕ) (received out : Bytes) (starts : ℕ → Prop)
    (captured : Option Bytes) (result : Turn × EbmlState × ℕ) : Prop where
  inv : ParserInv result.2.1 result.2.2 received out starts captured
  inputBuffer_eq : result.2.1.inputBuffer = ebml.inputBuffer
  outputState_eq : result.2.1.outputState = ebml.outputState
  headerReadPosition_eq : result.2.1.headerReadPosition = ebml.headerReadPosition
  work_lt : result.1 = .proceed → work result.2.1 result.2.2 < work ebml cursor

theorem ParserInv.recognised (inv : ParserInv ebml cursor received out starts captured)
    (hstate : ebml.parseState = .parsingHeader ∨ ebml.parseState = .parsingClusters)
    {length payload : ℕ} (htag : ebmlParseTag (ebml.inputBuffer.drop cursor) = .done length payload)
    (hmagic : clusterMagic <+: ebml.inputBuffer.drop cursor) :
    ParserInv { ebml with
      parseState := .startCluster
      clusters := ebml.clusters ++ [ebml.consumed + cursor] }
      cursor received out starts captured := by
  have hnot : ebml.parseState ≠ .startCluster := by
    rcases hstate with h | h <;> simp [h]
  refine ⟨inv.bytes_eq, inv.cursor_le, inv.consumed_eq, inv.clusterStart_le, ?_, inv.headerSize_eq,
    inv.captured_eq, ?_, ?_, ?_, fun _ ↦ ⟨length, payload, htag⟩⟩
  · rintro (h | h) <;> cases h
  · intro offset hoffset
    rcases List.mem_append.mp hoffset with hoffset | hoffset
    · exact (inv.placed offset hoffset).of_start_cluster (by rfl) (by rfl) hnot cursor
    · exact Or.inr (Or.inr ⟨rfl, List.mem_singleton.mp hoffset⟩)
  · intro offset hoffset
    rcases List.mem_append.mp hoffset with hoffset | hoffset
    · exact inv.magic offset hoffset
    · rw [List.mem_singleton.mp hoffset, inv.drop_received]
      exact hmagic
  · rintro (h | h) <;> cases h

theorem ParserInv.beginCopy (inv : ParserInv ebml cursor received out starts captured) (length : ℕ)
    (hstate : ebml.parseState = .parsingHeader ∨ ebml.parseState = .parsingClusters)
    (hpos : 0 < length) :
    ParserInv { ebml with copyLen := length, parseState := copyState ebml.parseState }
      cursor received out starts captured := by
  have hnot : ebml.parseState ≠ .startCluster := by
    rcases hstate with h | h <;> simp [h]
  refine ⟨inv.bytes_eq, inv.cursor_le, inv.consumed_eq, inv.clusterStart_le, ?_, inv.headerSize_eq,
    inv.captured_eq, ?_, inv.magic, fun _ ↦ hpos, ?_⟩
  · intro h
    apply inv.inHeader
    rcases hstate with hstate | hstate
    · exact Or.inl hstate
    · simp [ParsingState.InHeader, copyState, hstate] at h
  · exact fun offset hoffset ↦
      (inv.placed offset hoffset).of_start_cluster (by rfl) (by rfl) hnot cursor
  · intro h
    rcases hstate with hstate | hstate <;> simp [copyState, hstate] at h

theorem ParserInv.parseElement (inv : ParserInv ebml cursor received out starts captured)
    (hstate : ebml.parseState = .parsingHeader ∨ ebml.parseState = .parsingClusters)
    (hok : (Ebml.parseElement ebml cursor).1 ≠ .fail) :
    TurnOk ebml cursor received out starts captured
      ((Ebml.parseElement ebml cursor).1, (Ebml.parseElement ebml cursor).2, cursor) := by
  have hwork : work ebml cursor = 3 * (ebml.inputBuffer.length - cursor) + 2 := by
    rcases hstate with h | h <;> simp [work, h]
  rcases parseElement_cases ebml cursor with hfail | ⟨ebml', hresult, hsame⟩ |
    ⟨length, payload, htag, hmagic, hresult⟩ | ⟨ebml', length, hpos, hsame, hresult⟩
  · exact absurd hfail hok
  · rw [hresult]
    refine ⟨inv.congr hsame, ?_, ?_, ?_, by simp⟩
    all_goals obtain ⟨_, _, _, _, rfl⟩ := hsame; rfl
  · rw [hresult]
    refine ⟨inv.recognised hstate htag hmagic, rfl, rfl, rfl, fun _ ↦ ?_⟩
    rw [hwork]
    simp [work]
  · rw [hresult]
    have inv' := (inv.congr hsame).beginCopy length
    obtain ⟨_, _, _, _, rfl⟩ := hsame
    refine ⟨inv' hstate hpos, rfl, rfl, rfl, fun _ ↦ ?_⟩
    rw [hwork]
    rcases hstate with h | h <;> simp [work, h, copyState]

theorem ParserInv.startCluster (inv : ParserInv ebml cursor received out starts captured)
    (hstate : ebml.parseState = .startCluster) :
    TurnOk ebml cursor received out starts captured
      ((Ebml.startCluster ebml cursor).1, (Ebml.startCluster ebml cursor).2, cursor) := by
  unfold Ebml.startCluster
  split
  · refine ⟨⟨inv.bytes_eq, inv.cursor_le, inv.consumed_eq, inv.clusterStart_le, inv.inHeader,
      inv.headerSize_eq, inv.captured_eq, inv.placed, inv.magic, inv.copying, inv.starting⟩,
      rfl, rfl, rfl, by simp⟩
  · rename_i hstart
    obtain ⟨length, payload, htag⟩ := inv.starting hstate
    refine ⟨⟨inv.bytes_eq, inv.cursor_le, inv.consumed_eq, le_rfl, ?_, Or.inr rfl,
      inv.captured_eq, ?_, inv.magic, ?_, by simp⟩, rfl, rfl, rfl, fun _ ↦ ?_⟩
    · rintro (h | h) <;> cases h
    · intro offset hoffset
      rcases inv.placed offset hoffset with h | ⟨h, -⟩ | ⟨-, h⟩
      · exact Or.inl h
      · exact absurd h hstart
      · have hconsumed := inv.consumed_eq
        refine Or.inr (Or.inl ⟨by simp, ?_⟩)
        push_cast [← hconsumed, h]
        omega
    · intro _
      simp only [htag, Parsed.length]
      exact ebmlParseTag_pos htag
    · simp [work, hstate]

/-- Copying to the header happens before anything else has been seen. -/
theorem ParserInv.moveToHeader (inv : ParserInv ebml cursor received out starts captured)
    (hstate : ebml.parseState = .copyingToHeader) {toCopy : ℕ}
    (hle : toCopy ≤ ebml.inputBuffer.length - cursor) {copyLen : ℕ} {parseState : ParsingState}
    (hnext : parseState = .copyingToHeader ∧ 0 < copyLen ∨ parseState = .parsingHeader) :
    ParserInv { ebml with
      header := ebml.header ++ (ebml.inputBuffer.drop cursor).take toCopy
      copyLen := copyLen
      parseState := parseState } (cursor + toCopy) received out starts captured := by
  obtain ⟨rfl, hbuffer, hstart, hclusters, hsize, rfl⟩ := inv.inHeader (Or.inr hstate)
  have hbytes := inv.bytes_eq
  have hcursor := inv.cursor_le
  have hconsumed := inv.consumed_eq
  refine ⟨?_, ?_, ?_, ?_, fun _ ↦ ⟨rfl, hbuffer, hstart, hclusters, hsize, rfl⟩,
    Or.inl hsize, by simp, ?_, inv.magic, ?_, ?_⟩
  · rw [← hbytes]
    simp only [hbuffer, List.append_nil, List.append_assoc, ← List.drop_drop, List.take_append_drop]
  · simp only
    omega
  · simp only [hbuffer, List.length_append, List.length_take, List.length_drop,
      List.length_nil] at *
    omega
  · exact inv.clusterStart_le
  · simp [hclusters]
  · rintro (h | h)
    · rcases hnext with ⟨-, h⟩ | rfl
      · exact h
      · cases h
    · rcases hnext with ⟨rfl, -⟩ | rfl <;> cases h
  · rintro rfl
    rcases hnext with ⟨h, -⟩ | h <;> cases h

theorem ParserInv.moveToData (inv : ParserInv ebml cursor received out starts captured)
    (hstate : ebml.parseState = .copyingToData) {toCopy : ℕ}
    (hle : toCopy ≤ ebml.inputBuffer.length - cursor) {copyLen : ℕ} {parseState : ParsingState}
    (hnext : parseState = .copyingToData ∧ 0 < copyLen ∨ parseState = .parsingClusters) :
    ParserInv { ebml with
      buffer := ebml.buffer ++ (ebml.inputBuffer.drop cursor).take toCopy
      copyLen := copyLen
      parseState := parseState } (cursor + toCopy) received out starts captured := by
  have hcursor := inv.cursor_le
  have hconsumed := inv.consumed_eq
  have hstart := inv.clusterStart_le
  have hlength : ((ebml.inputBuffer.drop cursor).take toCopy).length = toCopy := by
    rw [List.length_take, List.length_drop]
    omega
  refine ⟨?_, ?_, ?_, ?_, ?_, inv.headerSize_eq, inv.captured_eq, ?_, inv.magic, ?_, ?_⟩
  · rw [← inv.bytes_eq]
    simp only [List.append_assoc, ← List.drop_drop, List.take_append_drop]
  · simp only
    omega
  · simp only [List.length_append, hlength]
    omega
  · simp only [List.length_append, hlength]
    omega
  · rintro (h | h) <;> rcases hnext with ⟨rfl, -⟩ | rfl <;> cases h
  · exact fun offset hoffset ↦ (inv.placed offset hoffset).of_start_cluster (by rfl) (by rfl)
      (by simp [hstate]) _
  · rintro (h | h)
    · rcases hnext with ⟨rfl, -⟩ | rfl <;> cases h
    · rcases hnext with ⟨-, h⟩ | rfl
      · exact h
      · cases h
  · rintro rfl
    rcases hnext with ⟨h, -⟩ | h <;> cases h

theorem ParserInv.copyToHeader (inv : ParserInv ebml cursor received out starts captured)
    (hstate : ebml.parseState = .copyingToHeader)
    (hok : (Ebml.copyToHeader ebml cursor).1 ≠ .fail) :
    TurnOk ebml cursor received out starts captured (Ebml.copyToHeader ebml cursor) := by
  have hpos := inv.copying (Or.inl hstate)
  have hcursor := inv.cursor_le
  unfold Ebml.copyToHeader at hok ⊢
  simp only at hok ⊢
  split
  · rename_i hlarge
    exact absurd (if_pos hlarge ▸ rfl) hok
  · unfold finishCopy
    simp only
    have hle : min (ebml.inputBuffer.length - cursor) ebml.copyLen ≤
        ebml.inputBuffer.length - cursor :=
      min_le_left _ _
    split
    · rename_i hdone
      refine ⟨inv.moveToHeader hstate hle (Or.inr rfl), rfl, rfl, rfl, fun _ ↦ ?_⟩
      simp only [work, hstate]
      omega
    · rename_i hmore
      refine ⟨inv.moveToHeader hstate hle (Or.inl ⟨hstate, Nat.pos_of_ne_zero hmore⟩), rfl, rfl,
        rfl, ?_⟩
      simp

/-- What is copied has arrived, belongs to the element and fits into the read buffer. -/
def toCopy (ebml : EbmlState) (cursor : ℕ) : ℕ :=
  min (min (ebml.inputBuffer.length - cursor) ebml.copyLen) (ebmlSliceSize - ebml.buffer.length)

theorem copyToData_eq (ebml : EbmlState) (cursor : ℕ) :
    Ebml.copyToData ebml cursor =
      finishCopy { ebml with
        buffer := ebml.buffer ++ (ebml.inputBuffer.drop cursor).take (toCopy ebml cursor) }
        (toCopy ebml cursor) .parsingClusters cursor := by
  have htoCopy : toCopy ebml cursor =
      if ebmlSliceSize < ebml.buffer.length + min (ebml.inputBuffer.length - cursor) ebml.copyLen
      then ebmlSliceSize - ebml.buffer.length
      else min (ebml.inputBuffer.length - cursor) ebml.copyLen := by
    unfold toCopy
    split <;> omega
  rw [htoCopy]
  rfl

theorem toCopy_le (ebml : EbmlState) (cursor : ℕ) :
    toCopy ebml cursor ≤ ebml.inputBuffer.length - cursor :=
  (min_le_left _ _).trans (min_le_left _ _)

theorem ParserInv.copyToData (inv : ParserInv ebml cursor received out starts captured)
    (hstate : ebml.parseState = .copyingToData) :
    TurnOk ebml cursor received out starts captured (Ebml.copyToData ebml cursor) := by
  have hpos := inv.copying (Or.inr hstate)
  have hcursor := inv.cursor_le
  have hle := toCopy_le ebml cursor
  rw [copyToData_eq]
  unfold finishCopy
  simp only
  split
  · rename_i hdone
    refine ⟨inv.moveToData hstate hle (Or.inr rfl), rfl, rfl, rfl, fun _ ↦ ?_⟩
    simp only [work, hstate]
    omega
  · rename_i hmore
    refine ⟨inv.moveToData hstate hle (Or.inl ⟨hstate, Nat.pos_of_ne_zero hmore⟩), rfl, rfl,
      rfl, ?_⟩
    simp

theorem ParserInv.turn (inv : ParserInv ebml cursor received out starts captured)
    (hok : (Ebml.turn ebml cursor).1 ≠ .fail) :
    TurnOk ebml cursor received out starts captured (Ebml.turn ebml cursor) := by
  unfold Ebml.turn at hok ⊢
  cases hstate : ebml.parseState with
  | parsingHeader =>
    simp only [hstate] at hok
    exact inv.parseElement (Or.inl hstate) hok
  | parsingClusters =>
    simp only [hstate] at hok
    exact inv.parseElement (Or.inr hstate) hok
  | startCluster => exact inv.startCluster hstate
  | copyingToHeader =>
    simp only [hstate] at hok
    exact inv.copyToHeader hstate hok
  | copyingToData => exact inv.copyToData hstate

/-- The loop keeps the invariant and, with enough fuel, ends by waiting for more data. -/
theorem ParserInv.wroteLoop (inv : ParserInv ebml cursor received out starts captured) (fuel : ℕ)
    (hok : (Ebml.wroteLoop fuel ebml cursor).1 ≠ .fail) :
    ParserInv (Ebml.wroteLoop fuel ebml cursor).2.1 (Ebml.wroteLoop fuel ebml cursor).2.2
        received out starts captured ∧
      (Ebml.wroteLoop fuel ebml cursor).2.1.inputBuffer = ebml.inputBuffer ∧
      (Ebml.wroteLoop fuel ebml cursor).2.1.outputState = ebml.outputState ∧
      (Ebml.wroteLoop fuel ebml cursor).2.1.headerReadPosition = ebml.headerReadPosition ∧
      (work ebml cursor < fuel → (Ebml.wroteLoop fuel ebml cursor).1 = .wait) := by
  induction fuel generalizing ebml cursor with
  | zero => exact ⟨inv, rfl, rfl, rfl, by simp⟩
  | succ fuel ih =>
    unfold Ebml.wroteLoop at hok ⊢
    have hturn := inv.turn
    rcases hresult : Ebml.turn ebml cursor with ⟨result, ebml', cursor'⟩
    rw [hresult] at hturn hok
    cases result with
    | proceed =>
      have hstep := hturn (by simp)
      obtain ⟨inv', hinput, houtput, hread, hwork⟩ := ih hstep.inv hok
      refine ⟨inv', hinput.trans hstep.inputBuffer_eq, houtput.trans hstep.outputState_eq,
        hread.trans hstep.headerReadPosition_eq, fun hfuel ↦ hwork ?_⟩
      have hless : work ebml' cursor' < work ebml cursor := hstep.work_lt rfl
      exact lt_of_lt_of_le hless (Nat.le_of_lt_succ hfuel)
    | wait =>
      have hstep := hturn (by simp)
      exact ⟨hstep.inv, hstep.inputBuffer_eq, hstep.outputState_eq, hstep.headerReadPosition_eq,
        fun _ ↦ rfl⟩
    | fail => exact absurd rfl hok

theorem magic_append {bytes : Bytes} {offset : ℕ} (h : clusterMagic <+: bytes.drop offset)
    (more : Bytes) : clusterMagic <+: (bytes ++ more).drop offset := by
  rw [List.drop_append]
  exact h.trans (List.prefix_append _ _)

/-- More bytes behind those in the input buffer. -/
theorem ParserInv.receive (inv : ParserInv ebml 0 received out starts captured) (written : Bytes) :
    ParserInv { ebml with inputBuffer := ebml.inputBuffer ++ written }
      0 (received ++ written) out starts
      captured := by
  refine ⟨?_, Nat.zero_le _, inv.consumed_eq, inv.clusterStart_le, inv.inHeader, inv.headerSize_eq,
    inv.captured_eq, inv.placed, ?_, inv.copying, ?_⟩
  · rw [← inv.bytes_eq]
    simp
  · exact fun offset hoffset ↦ magic_append (inv.magic offset hoffset) written
  · intro hstate
    obtain ⟨length, payload, htag⟩ := inv.starting hstate
    exact ⟨length, payload, ebmlParseTag_append htag written⟩

/-- The bytes before the cursor leave the input buffer. -/
theorem ParserInv.shift (inv : ParserInv ebml cursor received out starts captured) :
    ParserInv { ebml with
      inputBuffer := ebml.inputBuffer.drop cursor
      consumed := ebml.consumed + cursor } 0 received out starts captured :=
  ⟨inv.bytes_eq, Nat.zero_le _, inv.consumed_eq, inv.clusterStart_le, inv.inHeader,
    inv.headerSize_eq, inv.captured_eq, inv.placed, inv.magic, inv.copying, inv.starting⟩

/-- `ebml_wrote` returns, and either reports an error or has passed its bytes on. -/
theorem ParserInv.ebmlWrote (inv : ParserInv ebml 0 received out starts captured)
    (written : Bytes) :
    ((Ebml.ebmlWrote ebml written).1 = -1 ∨ (Ebml.ebmlWrote ebml written).1 = written.length) ∧
    ((Ebml.ebmlWrote ebml written).1 ≠ -1 →
      ParserInv (Ebml.ebmlWrote ebml written).2 0 (received ++ written) out starts captured ∧
      (Ebml.ebmlWrote ebml written).2.outputState = ebml.outputState ∧
      (Ebml.ebmlWrote ebml written).2.headerReadPosition = ebml.headerReadPosition) := by
  have hloop := (inv.receive written).wroteLoop (3 * (ebml.inputBuffer ++ written).length + 3)
  unfold Ebml.ebmlWrote
  simp only
  rcases hresult : Ebml.wroteLoop (3 * (ebml.inputBuffer ++ written).length + 3)
    { ebml with inputBuffer := ebml.inputBuffer ++ written } 0 with ⟨result, ebml', cursor'⟩
  rw [hresult] at hloop
  cases result with
  | fail => exact ⟨Or.inl rfl, fun h ↦ absurd rfl h⟩
  | proceed =>
    obtain ⟨-, -, -, -, hended⟩ := hloop (by simp)
    exact absurd (hended (work_zero_lt _)) (by simp)
  | wait =>
    obtain ⟨inv', -, houtput, hread, -⟩ := hloop (by simp)
    exact ⟨Or.inr rfl, fun _ ↦ ⟨inv'.shift, houtput, hread⟩⟩

/-! ## Chunks -/

def output (chunks : List Chunk) : Bytes := (chunks.map Chunk.data).flatten

/-- A chunk that has been returned starts at the place `place` of the output. -/
def IsChunkStart (chunks : List Chunk) (place : ℕ) : Prop :=
  ∃ before chunk after, chunks = before ++ chunk :: after ∧ place = (output before).length

@[simp] theorem output_snoc (chunks : List Chunk) (chunk : Chunk) :
    output (chunks ++ [chunk]) = output chunks ++ chunk.data := by
  simp [output]

theorem IsChunkStart.snoc {chunks : List Chunk} {place : ℕ} (h : IsChunkStart chunks place)
    (chunk : Chunk) : IsChunkStart (chunks ++ [chunk]) place := by
  obtain ⟨before, first, after, rfl, rfl⟩ := h
  exact ⟨before, first, after ++ [chunk], by simp, rfl⟩

theorem isChunkStart_last (chunks : List Chunk) (chunk : Chunk) :
    IsChunkStart (chunks ++ [chunk]) (output chunks).length := ⟨chunks, chunk, [], rfl, rfl⟩

structure SourceInv (s : Source) : Prop where
  parser : ParserInv s.ebml 0 s.received (output s.chunks) (IsChunkStart s.chunks) s.header
  reading : s.ebml.outputState = .readingHeader →
    s.header = none ∧ s.ebml.headerReadPosition = 0 ∧ s.chunks = []
  captured : s.ebml.outputState = .readingClusters → s.header ≠ none

variable {s : Source}

theorem SourceInv.congr_flush (inv : SourceInv s) (flush : Bool) :
    SourceInv { s with ebml := { s.ebml with flushCluster := flush } } :=
  ⟨⟨inv.parser.bytes_eq, inv.parser.cursor_le, inv.parser.consumed_eq, inv.parser.clusterStart_le,
    inv.parser.inHeader, inv.parser.headerSize_eq, inv.parser.captured_eq, inv.parser.placed,
    inv.parser.magic, inv.parser.copying, inv.parser.starting⟩, inv.reading, inv.captured⟩

theorem SourceInv.takeHeader (inv : SourceInv s) (houtput : s.ebml.outputState = .readingHeader)
    (hsize : 0 < s.ebml.headerSize) : SourceInv (takeChunk s s.ebml.headerSize) := by
  obtain ⟨hheader, hread, hchunks⟩ := inv.reading houtput
  have hlength : s.ebml.headerSize = s.ebml.header.length := by
    rcases inv.parser.headerSize_eq with h | h
    · omega
    · exact h
  have hstate : takeChunk s s.ebml.headerSize = { s with
      ebml := { s.ebml with
        headerReadPosition := s.ebml.headerSize
        outputState := .readingClusters }
      header := some s.ebml.header } := by
    simp only [takeChunk, ebmlRead, ebmlReadHeader, houtput, hread, hheader]
    rw [if_neg (by omega), if_pos (by omega)]
    simp [hlength]
  rw [hstate]
  refine ⟨⟨inv.parser.bytes_eq, inv.parser.cursor_le, inv.parser.consumed_eq,
    inv.parser.clusterStart_le, ?_, inv.parser.headerSize_eq, ?_, inv.parser.placed,
    inv.parser.magic, inv.parser.copying, inv.parser.starting⟩, by simp, by simp⟩
  · intro h
    obtain ⟨-, -, -, -, hzero, -⟩ := inv.parser.inHeader h
    omega
  · intro data hdata
    exact (Option.some.inj hdata).symm

/-- A chunk is cut off the read buffer: all of it when no Cluster starts behind its first byte, and
what is in front of the Cluster otherwise. -/
theorem SourceInv.cut (inv : SourceInv s) {len : ℕ} (hpos : 0 < len)
    (hle : len ≤ s.ebml.buffer.length) {clusterStart : ℤ}
    (hcut : s.ebml.clusterStart ≤ 0 ∧ clusterStart < 0 ∨
      (len : ℤ) ≤ s.ebml.clusterStart ∧ clusterStart = s.ebml.clusterStart - len)
    (houtput : s.ebml.outputState = .readingClusters) (syncPoint : Bool) :
    SourceInv { s with
      ebml := { s.ebml with buffer := s.ebml.buffer.drop len, clusterStart := clusterStart }
      chunks := s.chunks ++ [⟨s.ebml.buffer.take len, syncPoint⟩] } := by
  have hstart := inv.parser.clusterStart_le
  have hconsumed := inv.parser.consumed_eq
  have hlength : (s.ebml.buffer.take len).length = len := by
    rw [List.length_take]
    omega
  refine ⟨⟨?_, Nat.zero_le _, ?_, ?_, ?_, inv.parser.headerSize_eq, inv.parser.captured_eq, ?_,
    inv.parser.magic, inv.parser.copying, inv.parser.starting⟩, by simp [houtput], inv.captured⟩
  · rw [← inv.parser.bytes_eq]
    simp only [output_snoc, List.append_assoc, List.append_cancel_left_eq]
    rw [← List.append_assoc, List.take_append_drop]
  · simp only [output_snoc, List.length_append, List.length_drop, hlength]
    omega
  · simp only [List.length_drop]
    omega
  · intro h
    obtain ⟨-, hempty, -⟩ := inv.parser.inHeader h
    rw [hempty, List.length_nil] at hle
    omega
  · intro offset hoffset
    simp only [Placed, output_snoc, List.length_append, hlength]
    rcases inv.parser.placed offset hoffset with ⟨place, hplace, hoff, hchunk⟩ | ⟨hzero, hoff⟩ | h
    · exact Or.inl ⟨place, by omega, hoff, hchunk.snoc _⟩
    · rcases hcut with ⟨hnone, -⟩ | ⟨hsome, hnew⟩
      · refine Or.inl ⟨(output s.chunks).length, by omega, by omega, isChunkStart_last _ _⟩
      · refine Or.inr (Or.inl ⟨by omega, ?_⟩)
        push_cast
        omega
    · exact Or.inr (Or.inr h)

theorem ebmlReadCluster_eq {len : ℕ} (hpos : 0 < len)
    (hlen : 0 < ebml.clusterStart ∧ len = ebml.clusterStart.toNat ∨
      ebml.clusterStart ≤ 0 ∧ len = ebml.buffer.length) :
    ∃ chunkType clusterStart, ebmlReadCluster ebml len = (ebml.buffer.take len, chunkType,
        { ebml with buffer := ebml.buffer.drop len, clusterStart := clusterStart }) ∧
      (ebml.clusterStart ≤ 0 ∧ clusterStart < 0 ∨
        (len : ℤ) ≤ ebml.clusterStart ∧ clusterStart = ebml.clusterStart - len) := by
  rcases hlen with ⟨hsome, hlen⟩ | ⟨hnone, hlen⟩
  · refine ⟨.clusterContinue, ebml.clusterStart - len, ?_, Or.inr ⟨by omega, rfl⟩⟩
    simp only [ebmlReadCluster, if_pos hsome, if_neg hsome.ne', ← hlen, min_self,
      if_neg (show ¬len < 1 by omega)]
    simp [hsome.ne']
  · refine ⟨(ebmlReadCluster ebml len).2.1, if ebml.clusterStart = 0 then -1 else ebml.clusterStart,
      ?_, Or.inl ⟨hnone, ?_⟩⟩
    · simp only [ebmlReadCluster, if_neg hnone.not_gt, ← hlen, min_self,
        if_neg (show ¬len < 1 by omega)]
      split
      · rfl
      · simp [hnone.not_gt]
    · split <;> omega

theorem SourceInv.takeCluster (inv : SourceInv s) (houtput : s.ebml.outputState = .readingClusters)
    {len : ℕ} (hpos : 0 < len)
    (hlen : 0 < s.ebml.clusterStart ∧ len = s.ebml.clusterStart.toNat ∨
      s.ebml.clusterStart ≤ 0 ∧ len = s.ebml.buffer.length) : SourceInv (takeChunk s len) := by
  have hstart := inv.parser.clusterStart_le
  obtain ⟨data, hheader⟩ := Option.ne_none_iff_exists'.mp (inv.captured houtput)
  obtain ⟨chunkType, clusterStart, hread, hcut⟩ := ebmlReadCluster_eq hpos hlen
  have hcluster : ebmlRead s.ebml len = ebmlReadCluster s.ebml len := by
    simp [ebmlRead, houtput, hpos.ne']
  have hcutOff := inv.cut hpos (by omega) hcut houtput (chunkType = .clusterStart)
  simp only [takeChunk, hcluster, hread, hheader]
  rwa [hheader] at hcutOff

theorem ebmlReadSpace_cases (ebml : EbmlState) :
    ∃ flush, (ebmlReadSpace ebml).2 = { ebml with flushCluster := flush } ∧
      (0 < (ebmlReadSpace ebml).1 →
        ebml.outputState = .readingHeader ∧ (ebmlReadSpace ebml).1 = ebml.headerSize ∨
        ebml.outputState = .readingClusters ∧
          (0 < ebml.clusterStart ∧ (ebmlReadSpace ebml).1 = ebml.clusterStart.toNat ∨
            ebml.clusterStart ≤ 0 ∧ (ebmlReadSpace ebml).1 = ebml.buffer.length)) := by
  unfold ebmlReadSpace
  split
  · rename_i houtput
    exact ⟨ebml.flushCluster, rfl, fun _ ↦ Or.inl ⟨houtput, rfl⟩⟩
  · rename_i houtput
    split
    · rename_i hstart
      exact ⟨ebml.flushCluster, rfl, fun _ ↦ Or.inr ⟨houtput, Or.inl ⟨hstart, rfl⟩⟩⟩
    · rename_i hstart
      by_cases hfull : ebml.buffer.length = ebmlSliceSize
      · simp only [if_pos hfull, if_true]
        exact ⟨true, rfl, fun _ ↦ Or.inr ⟨houtput, Or.inr ⟨not_lt.mp hstart, trivial⟩⟩⟩
      · simp only [if_neg hfull]
        refine ⟨ebml.flushCluster, by split <;> rfl,
          fun hpos ↦ Or.inr ⟨houtput, Or.inr ⟨not_lt.mp hstart, ?_⟩⟩⟩
        split at hpos
        · rename_i hflush
          simp [hflush]
        · exact absurd hpos (by simp)

theorem SourceInv.takeChunk_of_readSpace (inv : SourceInv s) (hpos : 0 < (ebmlReadSpace s.ebml).1) :
    SourceInv (takeChunk { s with ebml := (ebmlReadSpace s.ebml).2 } (ebmlReadSpace s.ebml).1) := by
  obtain ⟨flush, hstate, hlen⟩ := ebmlReadSpace_cases s.ebml
  rw [hstate]
  rcases hlen hpos with ⟨houtput, hsize⟩ | ⟨houtput, hlen⟩
  · rw [hsize] at hpos ⊢
    exact (inv.congr_flush flush).takeHeader houtput hpos
  · exact (inv.congr_flush flush).takeCluster houtput hpos hlen

/-! ## Runs -/

theorem SourceInv.feed (inv : SourceInv s) (limit : ℕ)
    (hok : (Ebml.feed s limit).parseError = false) :
    SourceInv (Ebml.feed s limit) := by
  unfold Ebml.feed at hok ⊢
  rcases hread : readBytes s.incoming limit (ebmlSliceSize - s.ebml.inputBuffer.length) with
    ⟨data, incoming⟩
  rw [hread] at hok
  simp only at hok ⊢
  obtain ⟨hret, hwrote⟩ := inv.parser.ebmlWrote data
  split
  · rename_i hempty
    rw [if_pos hempty] at hok
    simp only [Bool.or_eq_false_iff, decide_eq_false_iff_not] at hok
    obtain ⟨inv', houtput, hposition⟩ := hwrote hok.2
    rw [hempty, List.append_nil] at inv'
    rw [hempty] at houtput hposition ⊢
    refine ⟨inv', ?_, ?_⟩
    · rw [houtput, hposition]
      exact inv.reading
    · rw [houtput]
      exact inv.captured
  · rename_i hempty
    rw [if_neg hempty] at hok
    split
    · rename_i hshort
      rw [if_pos hshort] at hok
      cases hok
    · rename_i hwhole
      rw [not_ne_iff] at hwhole
      obtain ⟨inv', houtput, hposition⟩ := hwrote (by omega)
      refine ⟨inv', ?_, ?_⟩
      · rw [houtput, hposition]
        exact inv.reading
      · rw [houtput]
        exact inv.captured

theorem feed_stream (s : Source) (limit : ℕ) :
    (feed s limit).received ++ (feed s limit).incoming = s.received ++ s.incoming ∧
      (s.parseError = true → (feed s limit).parseError = true) := by
  have happend := readBytes_append s.incoming limit (ebmlSliceSize - s.ebml.inputBuffer.length)
  rcases hread : readBytes s.incoming limit (ebmlSliceSize - s.ebml.inputBuffer.length) with
    ⟨data, incoming⟩
  rw [hread] at happend
  have hstream : s.received ++ data ++ incoming = s.received ++ s.incoming := by
    rw [List.append_assoc]
    exact congrArg (s.received ++ ·) happend
  simp only [feed, hread]
  split
  · exact ⟨rfl, fun h ↦ by simp [h]⟩
  · split
    · exact ⟨hstream, fun _ ↦ rfl⟩
    · exact ⟨hstream, id⟩

theorem takeChunk_stream (s : Source) (len : ℕ) :
    (takeChunk s len).received = s.received ∧ (takeChunk s len).incoming = s.incoming ∧
      (takeChunk s len).parseError = s.parseError := by
  unfold takeChunk
  cases hheader : s.header with
  | none => exact ⟨rfl, rfl, rfl⟩
  | some data => exact ⟨rfl, rfl, rfl⟩

/-- The bytes received and those still to come are the stream, and as long as no parse error has
occurred all of the former are where they belong. -/
def StreamInv (stream : Bytes) (s : Source) : Prop :=
  s.received ++ s.incoming = stream ∧ (s.parseError = false → SourceInv s)

theorem getBufferTurn_streamInv (stream : Bytes) (s : Source) (limit : ℕ)
    (inv : StreamInv stream s) :
    StreamInv stream (getBufferTurn s limit) := by
  obtain ⟨flush, hflush, -⟩ := ebmlReadSpace_cases s.ebml
  unfold getBufferTurn
  simp only
  split
  · rename_i hpos
    obtain ⟨hreceived, hincoming, herror⟩ :=
      takeChunk_stream { s with ebml := (ebmlReadSpace s.ebml).2 } (ebmlReadSpace s.ebml).1
    refine ⟨by rw [hreceived, hincoming]; exact inv.1, fun hok ↦ ?_⟩
    rw [herror] at hok
    exact (inv.2 hok).takeChunk_of_readSpace hpos
  · rw [hflush]
    obtain ⟨hstream, hsticky⟩ :=
      feed_stream { s with ebml := { s.ebml with flushCluster := flush } } limit
    refine ⟨hstream.trans inv.1, fun hok ↦ ?_⟩
    have hbefore : s.parseError = false := by
      by_contra herror
      rw [hsticky (by simpa using herror)] at hok
      cases hok
    exact ((inv.2 hbefore).congr_flush flush).feed limit hok

theorem startSource_streamInv (stream : Bytes) : StreamInv stream (startSource stream) := by
  refine ⟨rfl, fun _ ↦ ⟨?_, fun _ ↦ ⟨rfl, rfl, rfl⟩, by simp [startSource, ebmlCreate]⟩⟩
  refine ⟨rfl, le_rfl, rfl, by simp [startSource, ebmlCreate],
    fun _ ↦ ⟨rfl, rfl, rfl, rfl, rfl, rfl⟩,
    Or.inl rfl, by simp [startSource], by simp [startSource, ebmlCreate],
    by simp [startSource, ebmlCreate], ?_, by simp [startSource, ebmlCreate]⟩
  simp [startSource, ebmlCreate, ParsingState.Copying]

/-- However the stream is split into reads: as long as `ebml_wrote` has not reported an error, the
header, the chunks, the read buffer and the input buffer are the bytes read so far, and a recognised
Cluster that has been output begins a chunk. -/
theorem ebml_passthrough (stream : Bytes) (limits : List ℕ)
    (hok : (run getBufferTurn (startSource stream) limits).parseError = false) :
    let s := run getBufferTurn (startSource stream) limits
    (∀ data, s.header = some data → data = s.ebml.header) ∧
    s.ebml.header ++ output s.chunks ++ s.ebml.buffer ++ s.ebml.inputBuffer = s.received ∧
    s.received ++ s.incoming = stream ∧
    s.ebml.header ++ output s.chunks <+: stream ∧
    ∀ offset ∈ s.ebml.clusters, clusterMagic <+: stream.drop offset ∧
      (offset < (s.ebml.header ++ output s.chunks).length →
        ∃ before chunk after, s.chunks = before ++ chunk :: after ∧
          offset = (s.ebml.header ++ output before).length) := by
  intro s
  obtain ⟨hstream, hinv⟩ : StreamInv stream s :=
    run_invariant getBufferTurn (StreamInv stream) (getBufferTurn_streamInv stream) limits
      (startSource_streamInv stream)
  have inv := (hinv hok).parser
  have hbytes : s.ebml.header ++ output s.chunks ++ s.ebml.buffer ++ s.ebml.inputBuffer =
      s.received :=
    inv.bytes_eq
  refine ⟨inv.captured_eq, hbytes, hstream, ?_, fun offset hoffset ↦ ⟨?_, fun hout ↦ ?_⟩⟩
  · refine ⟨s.ebml.buffer ++ s.ebml.inputBuffer ++ s.incoming, ?_⟩
    rw [← hstream, ← hbytes]
    simp only [List.append_assoc]
  · rw [← hstream]
    exact magic_append (inv.magic offset hoffset) s.incoming
  · have hconsumed := inv.consumed_eq
    simp only [List.length_append] at hout ⊢
    rcases inv.placed offset hoffset with ⟨place, -, hoff, hchunk⟩ | ⟨hstart, hoff⟩ | ⟨-, hoff⟩
    · obtain ⟨before, chunk, after, hchunks, hplace⟩ := hchunk
      exact ⟨before, chunk, after, hchunks, by omega⟩
    · omega
    · omega

/-- A header element and two small Clusters. -/
def twoClusters : Bytes :=
  [0xEC, 0x81, 0x00] ++ clusterMagic ++ [0xFF, 0xE7, 0x81, 0x05] ++ clusterMagic ++
    [0xFF, 0xE7, 0x81, 0x07]

theorem ebml_passthrough_two_clusters :
    let s := run getBufferTurn (startSource twoClusters) [6, 9, 30, 1, 1, 1, 1, 1]
    s.ebml.clusters = [3, 11] ∧ output s.chunks = clusterMagic ++ [0xFF, 0xE7, 0x81, 0x05] ∧
      s.ebml.header ++ output s.chunks <+: twoClusters := by
  refine ⟨by decide +kernel, by decide +kernel, ?_⟩
  exact (ebml_passthrough twoClusters [6, 9, 30, 1, 1, 1, 1, 1] (by decide +kernel)).2.2.2.1

end Icecast.Format.Ebml
