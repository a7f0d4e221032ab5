import Icecast.Format.EbmlPassthrough

/-!
# When the EBML parser can go on

`ebml_get_buffer` returns a chunk while `ebml_read_space` is positive, and otherwise reads as many
bytes as `ebml_get_write_buffer` offers. A read of no bytes is taken for the end of the stream, so
the two must not be zero together. They are when a Cluster begins an input buffer that has just been
filled while an earlier Cluster is still in the read buffer: the parser waits with its cursor at the
first byte, and behind the chunk that it lets go there is neither a chunk nor room. A stream that
opens with a Cluster publishes an empty header, which is never read, and both buffers fill up.

Under the condition that excludes these two places the input buffer is never full. A write that does
not meet it while Clusters are parsed leads to a stuck parser whatever else has happened.
-/

namespace Icecast.Format.Ebml

open Lib.Machine Lib.Socket

def ebmlGetWriteBuffer (ebml : EbmlState) : ℕ := ebmlSliceSize - ebml.inputBuffer.length

/-- The parser, and whether `ebml_wrote` has reported an error. -/
structure Parser where
  ebml : EbmlState
  failed : Bool
  deriving DecidableEq

/-- A turn of `ebml_get_buffer` that has no chunk to return and finds these bytes, and a call of
`ebml_read`. -/
inductive ParserEvent where
  | feed (data : Bytes)
  | read (len : ℕ)

def parserStep (parser : Parser) : ParserEvent → Parser
  | .feed data =>
    let (len, ebml) := ebmlReadSpace parser.ebml
    if 0 < len then { parser with ebml := ebml }
    else
      let (ret, ebml) := ebmlWrote ebml (data.take (ebmlGetWriteBuffer ebml))
      { ebml := ebml, failed := parser.failed || ret = -1 }
  | .read len => { parser with ebml := (ebmlRead parser.ebml len).2.2 }

def parserCreate : Parser := ⟨ebmlCreate, false⟩

/-- The complete tag of a Cluster is the first thing in the input. -/
def startsCluster (input : Bytes) : Bool :=
  match ebmlParseTag input with
  | .done _ _ => input.take uncommonMagicLen = clusterMagic
  | _ => false

/-- The condition on a write: a Cluster at the start of the input is not the first element of the
stream, and does not find an earlier Cluster in the read buffer when the input buffer is full. -/
def RoomBehindCluster (parser : Parser) : ParserEvent → Prop
  | .feed data =>
    let ebml := parser.ebml
    let input := ebml.inputBuffer ++ data.take (ebmlGetWriteBuffer ebml)
    (ebmlReadSpace ebml).1 = 0 → startsCluster input →
      ¬(ebml.parseState = .parsingHeader ∧ ebml.header = []) ∧
      ¬(ebml.parseState = .parsingClusters ∧ 0 ≤ ebml.clusterStart ∧ input.length = ebmlSliceSize)
  | .read _ => True

instance (parser : Parser) : ∀ event, Decidable (RoomBehindCluster parser event)
  | .feed _ => inferInstanceAs (Decidable (_ → _ → _ ∧ _))
  | .read _ => .isTrue trivial

/-! ## The parser waits for a bounded number of bytes -/

theorem findMarker_size_le {value bits size digits marker : ℕ}
    (h : findMarker value bits = some (size, digits, marker)) : size ≤ 8 := by
  induction bits with
  | zero => simp [findMarker] at h
  | succ bit ih =>
    rw [findMarker] at h
    split at h
    · simp only [Option.some.injEq, Prod.mk.injEq] at h
      omega
    · exact ih h

theorem ebmlParseVarInt_le {buffer : Bytes} {length value : ℕ}
    (h : ebmlParseVarInt buffer = .done length value) : length ≤ 8 := by
  unfold ebmlParseVarInt at h
  split at h
  · cases h
  · split at h
    · cases h
    · rename_i hmarker
      split at h
      · cases h
      · injection h with hlength
        rw [← hlength]
        exact findMarker_size_le hmarker

theorem ebmlParseVarInt_ne_wait {buffer : Bytes} (h : 8 ≤ buffer.length) :
    ebmlParseVarInt buffer ≠ .wait := by
  cases buffer with
  | nil => simp at h
  | cons first rest =>
    rw [List.length_cons] at h
    rw [ebmlParseVarInt]
    cases hmarker : findMarker first.toNat 8 with
    | none => simp
    | some found =>
      obtain ⟨size, digits, marker⟩ := found
      have hsize := findMarker_size_le hmarker
      simp only
      rw [if_neg (by omega)]
      simp

theorem ebmlParseTag_le {buffer : Bytes} {length payload : ℕ}
    (h : ebmlParseTag buffer = .done length payload) : length ≤ 16 := by
  obtain ⟨typeLength, tagId, sizeLength, htype, hsize, rfl⟩ := ebmlParseTag_cases h
  have := ebmlParseVarInt_le htype
  have := ebmlParseVarInt_le hsize
  omega

theorem ebmlParseTag_length_le {buffer : Bytes} {length payload : ℕ}
    (h : ebmlParseTag buffer = .done length payload) : length ≤ buffer.length := by
  obtain ⟨typeLength, tagId, sizeLength, htype, hsize, rfl⟩ := ebmlParseTag_cases h
  have hfirst := (ebmlParseVarInt_append htype []).2
  have hsecond := (ebmlParseVarInt_append hsize []).2
  rw [List.length_drop] at hsecond
  omega

theorem ebmlParseTag_ne_wait {buffer : Bytes} (h : 16 ≤ buffer.length) :
    ebmlParseTag buffer ≠ .wait := by
  have htype : ebmlParseVarInt buffer ≠ .wait := ebmlParseVarInt_ne_wait (by omega)
  cases hfirst : ebmlParseVarInt buffer with
  | wait => exact absurd hfirst htype
  | corrupt => simp [ebmlParseTag, hfirst]
  | done typeLength tagId =>
    have hle := ebmlParseVarInt_le hfirst
    have hsize : ebmlParseVarInt (buffer.drop typeLength) ≠ .wait :=
      ebmlParseVarInt_ne_wait (by rw [List.length_drop]; omega)
    cases hsecond : ebmlParseVarInt (buffer.drop typeLength) with
    | wait => exact absurd hsecond hsize
    | corrupt => simp [ebmlParseTag, hfirst, hsecond]
    | done sizeLength payloadLength => simp [ebmlParseTag, hfirst, hsecond]

theorem ebmlParseSizedInt_ne_wait {buffer : Bytes} (len : ℕ) (isSigned : Bool)
    (h : 8 < buffer.length) : ebmlParseSizedInt buffer len isSigned ≠ .wait := by
  unfold ebmlParseSizedInt
  split
  · simp
  · rw [if_neg (by omega)]
    simp

theorem probeSimpleBlock_ne_wait (ebml : EbmlState) {input : Bytes} {tagLength : ℕ}
    (htag : tagLength ≤ 16) (h : 27 ≤ input.length) :
    (probeSimpleBlock ebml input tagLength).1 ≠ .wait := by
  have hnumber : ebmlParseVarInt (input.drop tagLength) ≠ .wait :=
    ebmlParseVarInt_ne_wait (by rw [List.length_drop]; omega)
  unfold probeSimpleBlock
  split
  · cases hparsed : ebmlParseVarInt (input.drop tagLength) with
    | wait => exact absurd hparsed hnumber
    | corrupt => simp
    | done numberLength trackNumber =>
      have hle := ebmlParseVarInt_le hparsed
      simp only
      split
      · rw [List.getElem?_eq_getElem (by omega)]
        simp
      · simp
  · simp

theorem probeTrackNumber_ne_wait (ebml : EbmlState) {input : Bytes} {tagLength : ℕ}
    (payloadLength : ℕ) (htag : tagLength ≤ 16) (h : 27 ≤ input.length) :
    (probeTrackNumber ebml input tagLength payloadLength).1 ≠ .wait := by
  have hvalue : ebmlParseSizedInt (input.drop tagLength) payloadLength false ≠ .wait :=
    ebmlParseSizedInt_ne_wait payloadLength false (by rw [List.length_drop]; omega)
  unfold probeTrackNumber
  cases hparsed : ebmlParseSizedInt (input.drop tagLength) payloadLength false with
  | wait => exact absurd hparsed hvalue
  | corrupt => simp
  | done length value => simp

theorem probeTrackType_ne_wait (ebml : EbmlState) {input : Bytes} {tagLength : ℕ}
    (payloadLength : ℕ) (htag : tagLength ≤ 16) (h : 27 ≤ input.length) :
    (probeTrackType ebml input tagLength payloadLength).1 ≠ .wait := by
  have hvalue : ebmlParseSizedInt (input.drop tagLength) payloadLength false ≠ .wait :=
    ebmlParseSizedInt_ne_wait payloadLength false (by rw [List.length_drop]; omega)
  unfold probeTrackType
  cases hparsed : ebmlParseSizedInt (input.drop tagLength) payloadLength false with
  | wait => exact absurd hparsed hvalue
  | corrupt => simp
  | done length value =>
    simp only
    split <;> simp

theorem probe_ne_wait (ebml : EbmlState) {input : Bytes} {tagLength : ℕ} (payloadLength : ℕ)
    (htag : tagLength ≤ 16) (h : 27 ≤ input.length) :
    (probe ebml input tagLength payloadLength).1 ≠ .wait := by
  unfold probe
  split
  · split
    · exact probeSimpleBlock_ne_wait ebml htag h
    · split
      · simp
      · split
        · exact probeTrackNumber_ne_wait ebml payloadLength htag h
        · split
          · exact probeTrackType_ne_wait ebml payloadLength htag h
          · simp
  · simp

/-- With 27 bytes behind the cursor an element is never too short to be examined. -/
theorem parseElement_ne_wait (ebml : EbmlState) {cursor : ℕ}
    (h : 27 ≤ (ebml.inputBuffer.drop cursor).length) :
    (parseElement ebml cursor).1 ≠ .wait := by
  cases htag : ebmlParseTag (ebml.inputBuffer.drop cursor) with
  | wait => exact absurd htag (ebmlParseTag_ne_wait (by omega))
  | corrupt => simp [parseElement, htag]
  | done length payload =>
    simp only [parseElement, htag]
    split
    · simp
    · generalize (if uncommonMagicLen < length ∧
        ((ebml.inputBuffer.drop cursor).take uncommonMagicLen = segmentMagic ∨
          (ebml.inputBuffer.drop cursor).take uncommonMagicLen = tracksMagic) then 0
        else if payload = ebmlUnknown then 0 else payload) = payloadLength
      have hprobe := probe_ne_wait ebml payloadLength (ebmlParseTag_le htag) h
      rcases hresult : probe ebml (ebml.inputBuffer.drop cursor) length payloadLength with
        ⟨result, probed, copied⟩
      rw [hresult] at hprobe
      cases result with
      | proceed => simp
      | wait => exact absurd rfl hprobe
      | fail => simp

/-! ## What a turn keeps -/

variable {ebml : EbmlState} {cursor : ℕ}

def ParsingState.InClusters (state : ParsingState) : Prop :=
  state = .parsingClusters ∨ state = .copyingToData

/-- The fill levels that go with a parse state. A Cluster whose tag is not being copied any more
has a first byte in the read buffer. -/
structure Sane (ebml : EbmlState) (cursor : ℕ) : Prop where
  cursor_le : cursor ≤ ebml.inputBuffer.length
  buffer_le : ebml.buffer.length ≤ ebmlSliceSize
  inHeader : ebml.parseState.InHeader → ebml.headerSize = 0
  unpublished : ebml.headerSize = 0 →
    ebml.buffer = [] ∧ ebml.clusterStart = -1 ∧ ¬ebml.parseState.InClusters
  header_ne : ¬ebml.parseState.InHeader → ebml.header ≠ []
  clusterStart_le : ebml.clusterStart ≤ ebml.buffer.length
  clusterStart_lt : 0 ≤ ebml.clusterStart → ebml.parseState ≠ .copyingToData →
    ebml.clusterStart < ebml.buffer.length
  copying : ebml.parseState.Copying → 0 < ebml.copyLen
  starting : ebml.parseState = .startCluster → ∃ length payload,
    ebmlParseTag (ebml.inputBuffer.drop cursor) = .done length payload

/-- The first element of the stream is not a Cluster. -/
def Opened (ebml : EbmlState) (cursor : ℕ) : Prop :=
  ebml.parseState = .parsingHeader → ebml.header = [] →
    startsCluster (ebml.inputBuffer.drop cursor) = false

/-- A turn that does not fail. One that waits for a Cluster to leave lets it go. -/
structure TurnSane (ebml : EbmlState) (cursor : ℕ) (result : Turn × EbmlState × ℕ) : Prop where
  sane : Sane result.2.1 result.2.2
  opened : Opened result.2.1 result.2.2
  inputBuffer_eq : result.2.1.inputBuffer = ebml.inputBuffer
  cursor_le : cursor ≤ result.2.2
  flushed : result.1 = .wait → result.2.1.parseState = .startCluster →
    0 ≤ result.2.1.clusterStart → result.2.1.flushCluster = true
  work_lt : result.1 = .proceed → work result.2.1 result.2.2 < work ebml cursor

theorem startsCluster_of_magic {input : Bytes} {length payload : ℕ}
    (htag : ebmlParseTag input = .done length payload) (hmagic : clusterMagic <+: input) :
    startsCluster input = true := by
  simp only [startsCluster, htag, decide_eq_true_eq]
  exact (List.prefix_iff_eq_take.mp hmagic).symm

theorem Sane.congr {ebml' : EbmlState} (sane : Sane ebml cursor) (h : SameBuffers ebml ebml') :
    Sane ebml' cursor := by
  obtain ⟨status, keyframeTrack, parsingTrack, isVideo, rfl⟩ := h
  exact ⟨sane.cursor_le, sane.buffer_le, sane.inHeader, sane.unpublished, sane.header_ne,
    sane.clusterStart_le, sane.clusterStart_lt, sane.copying, sane.starting⟩

/-- The flags that reading sets are of no concern either. -/
theorem Sane.congr_flags (sane : Sane ebml cursor) (flush : Bool) (position : ℕ)
    (output : ReadMode) :
    Sane { ebml with
      flushCluster := flush
      headerReadPosition := position
      outputState := output } cursor :=
  ⟨sane.cursor_le, sane.buffer_le, sane.inHeader, sane.unpublished, sane.header_ne,
    sane.clusterStart_le, sane.clusterStart_lt, sane.copying, sane.starting⟩

/-- A Cluster is not the first element, so something has been copied to the header. -/
theorem Sane.recognised (sane : Sane ebml cursor) (opened : Opened ebml cursor)
    (hstate : ebml.parseState = .parsingHeader ∨ ebml.parseState = .parsingClusters)
    {length payload : ℕ} (htag : ebmlParseTag (ebml.inputBuffer.drop cursor) = .done length payload)
    (hmagic : clusterMagic <+: ebml.inputBuffer.drop cursor) (clusters : List ℕ) :
    Sane { ebml with parseState := .startCluster, clusters := clusters } cursor := by
  refine ⟨sane.cursor_le, sane.buffer_le, ?_, ?_, fun _ ↦ ?_, sane.clusterStart_le, ?_, ?_,
    fun _ ↦ ⟨length, payload, htag⟩⟩
  · rintro (h | h) <;> cases h
  · intro hsize
    obtain ⟨hbuffer, hstart, -⟩ := sane.unpublished hsize
    exact ⟨hbuffer, hstart, by rintro (h | h) <;> cases h⟩
  · rcases hstate with hstate | hstate
    · intro hheader
      have hother := opened hstate hheader
      rw [startsCluster_of_magic htag hmagic] at hother
      cases hother
    · exact sane.header_ne (by simp [ParsingState.InHeader, hstate])
  · intro hstart _
    exact sane.clusterStart_lt hstart (by rcases hstate with h | h <;> simp [h])
  · rintro (h | h) <;> cases h

theorem Sane.beginCopy (sane : Sane ebml cursor)
    (hstate : ebml.parseState = .parsingHeader ∨ ebml.parseState = .parsingClusters) {length : ℕ}
    (hpos : 0 < length) :
    Sane { ebml with copyLen := length, parseState := copyState ebml.parseState } cursor := by
  refine ⟨sane.cursor_le, sane.buffer_le, ?_, ?_, ?_, sane.clusterStart_le, ?_, fun _ ↦ hpos, ?_⟩
  · intro h
    rcases hstate with hstate | hstate
    · exact sane.inHeader (Or.inl hstate)
    · simp [ParsingState.InHeader, copyState, hstate] at h
  · intro hsize
    obtain ⟨hbuffer, hstart, hnot⟩ := sane.unpublished hsize
    refine ⟨hbuffer, hstart, ?_⟩
    rcases hstate with hstate | hstate
    · simp [ParsingState.InClusters, copyState, hstate]
    · exact absurd (Or.inl hstate) hnot
  · intro h
    rcases hstate with hstate | hstate
    · simp [ParsingState.InHeader, copyState, hstate] at h
    · exact sane.header_ne (by simp [ParsingState.InHeader, hstate])
  · intro hstart _
    exact sane.clusterStart_lt hstart (by rcases hstate with h | h <;> simp [h])
  · intro h
    rcases hstate with hstate | hstate <;> simp [copyState, hstate] at h

theorem Sane.parseElement (sane : Sane ebml cursor) (opened : Opened ebml cursor)
    (hstate : ebml.parseState = .parsingHeader ∨ ebml.parseState = .parsingClusters)
    (hok : (Ebml.parseElement ebml cursor).1 ≠ .fail) :
    TurnSane ebml cursor
      ((Ebml.parseElement ebml cursor).1, (Ebml.parseElement ebml cursor).2, cursor) := by
  have hwork : work ebml cursor = 3 * (ebml.inputBuffer.length - cursor) + 2 := by
    rcases hstate with h | h <;> simp [work, h]
  rcases parseElement_cases ebml cursor with hfail | ⟨ebml', hresult, hsame⟩ |
    ⟨length, payload, htag, hmagic, hresult⟩ | ⟨ebml', length, hpos, hsame, hresult⟩
  · exact absurd hfail hok
  · rw [hresult]
    have sane' := sane.congr hsame
    obtain ⟨_, _, _, _, rfl⟩ := hsame
    refine ⟨sane', opened, rfl, le_rfl, fun _ h ↦ ?_, by simp⟩
    rcases hstate with hstate | hstate <;> simp [hstate] at h
  · rw [hresult]
    refine ⟨sane.recognised opened hstate htag hmagic _, ?_, rfl, le_rfl, by simp, fun _ ↦ ?_⟩
    · simp [Opened]
    · rw [hwork]
      simp [work]
  · rw [hresult]
    have sane' := (sane.congr hsame).beginCopy
    obtain ⟨_, _, _, _, rfl⟩ := hsame
    refine ⟨sane' hstate hpos, ?_, rfl, le_rfl, by simp, fun _ ↦ ?_⟩
    · intro h
      rcases hstate with hstate | hstate <;> simp [copyState, hstate] at h
    · rw [hwork]
      rcases hstate with h | h <;> simp [work, h, copyState]

theorem Sane.startCluster (sane : Sane ebml cursor) (hstate : ebml.parseState = .startCluster) :
    TurnSane ebml cursor
      ((Ebml.startCluster ebml cursor).1, (Ebml.startCluster ebml cursor).2, cursor) := by
  have hnot : ¬ebml.parseState.InHeader := by simp [ParsingState.InHeader, hstate]
  have hheader := sane.header_ne hnot
  unfold Ebml.startCluster
  split
  · refine ⟨sane.congr_flags _ _ _, ?_, rfl, le_rfl, fun _ _ _ ↦ rfl, by simp⟩
    simp [Opened, hstate]
  · obtain ⟨length, payload, htag⟩ := sane.starting hstate
    refine ⟨⟨sane.cursor_le, sane.buffer_le, ?_, ?_, fun _ ↦ hheader, le_rfl, by simp, ?_, by simp⟩,
      by simp [Opened], rfl, le_rfl, by simp, fun _ ↦ ?_⟩
    · rintro (h | h) <;> cases h
    · intro hsize
      exact absurd (List.length_eq_zero_iff.mp hsize) hheader
    · intro _
      simp only [htag, Parsed.length]
      exact ebmlParseTag_pos htag
    · simp [work, hstate]

theorem Sane.copyToHeader (sane : Sane ebml cursor) (hstate : ebml.parseState = .copyingToHeader)
    (hok : (Ebml.copyToHeader ebml cursor).1 ≠ .fail) :
    TurnSane ebml cursor (Ebml.copyToHeader ebml cursor) := by
  have hpos := sane.copying (Or.inl hstate)
  have hcursor := sane.cursor_le
  have hsize := sane.inHeader (Or.inr hstate)
  obtain ⟨hbuffer, hstart, -⟩ := sane.unpublished hsize
  unfold Ebml.copyToHeader at hok ⊢
  simp only at hok ⊢
  split
  · rename_i hlarge
    exact absurd (if_pos hlarge ▸ rfl) hok
  · unfold finishCopy
    simp only
    split
    · rename_i hdone
      refine ⟨⟨by simp only; omega, sane.buffer_le, fun _ ↦ hsize, fun _ ↦ ⟨hbuffer, hstart, ?_⟩, ?_,
        sane.clusterStart_le, ?_, ?_, by simp⟩, fun _ h ↦ ?_, rfl, by simp, by simp, fun _ ↦ ?_⟩
      · rintro (h | h) <;> cases h
      · exact fun h ↦ absurd (Or.inl rfl) h
      · simp [hstart]
      · rintro (h | h) <;> cases h
      · -- the element is at least one byte long, and the header now holds it
        have hlength := congrArg List.length h
        simp only [List.length_append, List.length_take, List.length_drop, List.length_nil]
          at hlength
        omega
      · simp only [work, hstate]
        omega
    · rename_i hmore
      refine ⟨⟨by simp only; omega, sane.buffer_le, fun _ ↦ hsize, fun _ ↦ ⟨hbuffer, hstart, ?_⟩, ?_,
        sane.clusterStart_le, ?_, fun _ ↦ Nat.pos_of_ne_zero hmore, by simp [hstate]⟩, ?_, rfl,
        by simp, ?_, by simp⟩
      · simp [ParsingState.InClusters, hstate]
      · exact fun h ↦ absurd (Or.inr hstate) h
      · simp [hstart]
      · simp [Opened, hstate]
      · simp [hstate]

theorem Sane.copyToData (sane : Sane ebml cursor) (hstate : ebml.parseState = .copyingToData) :
    TurnSane ebml cursor (Ebml.copyToData ebml cursor) := by
  have hpos := sane.copying (Or.inr hstate)
  have hcursor := sane.cursor_le
  have hbuffer := sane.buffer_le
  have hstart := sane.clusterStart_le
  have hheader : ebml.header ≠ [] := sane.header_ne (by simp [ParsingState.InHeader, hstate])
  have hsize : ebml.headerSize ≠ 0 := fun h ↦ (sane.unpublished h).2.2 (Or.inr hstate)
  have hle := toCopy_le ebml cursor
  have hroom : ebml.buffer.length + toCopy ebml cursor ≤ ebmlSliceSize := by
    unfold toCopy
    omega
  have hlength : (ebml.buffer ++
      (ebml.inputBuffer.drop cursor).take (toCopy ebml cursor)).length =
      ebml.buffer.length + toCopy ebml cursor := by
    rw [List.length_append, List.length_take, List.length_drop]
    omega
  rw [copyToData_eq]
  unfold finishCopy
  simp only
  split
  · rename_i hdone
    refine ⟨⟨by simp only; omega, hlength.trans_le hroom, ?_, fun h ↦ absurd h hsize,
      fun _ ↦ hheader, ?_, fun _ _ ↦ ?_, ?_, by simp⟩, by simp [Opened], rfl, by simp, by simp,
      fun _ ↦ ?_⟩
    · rintro (h | h) <;> cases h
    · simp only [hlength]
      omega
    · simp only [hlength]
      omega
    · rintro (h | h) <;> cases h
    · simp only [work, hstate]
      omega
  · rename_i hmore
    refine ⟨⟨by simp only; omega, hlength.trans_le hroom, ?_, fun h ↦ absurd h hsize,
      fun _ ↦ hheader, ?_, fun _ h ↦ absurd hstate h, fun _ ↦ Nat.pos_of_ne_zero hmore,
      by simp [hstate]⟩, by simp [Opened, hstate], rfl, by simp, by simp [hstate], by simp⟩
    · simp [ParsingState.InHeader, hstate]
    · simp only [hlength]
      omega

theorem Sane.turn (sane : Sane ebml cursor) (opened : Opened ebml cursor)
    (hok : (Ebml.turn ebml cursor).1 ≠ .fail) :
    TurnSane ebml cursor (Ebml.turn ebml cursor) := by
  unfold Ebml.turn at hok ⊢
  cases hstate : ebml.parseState with
  | parsingHeader =>
    simp only [hstate] at hok
    exact sane.parseElement opened (Or.inl hstate) hok
  | parsingClusters =>
    simp only [hstate] at hok
    exact sane.parseElement opened (Or.inr hstate) hok
  | startCluster => exact sane.startCluster hstate
  | copyingToHeader =>
    simp only [hstate] at hok
    exact sane.copyToHeader hstate hok
  | copyingToData => exact sane.copyToData hstate

/-! ## A full input buffer moves -/

/-- What `ebml_wrote` finds at the first byte can leave: there is room in the read buffer, and a
Cluster does not have to wait. -/
structure Ready (ebml : EbmlState) : Prop where
  room : ebml.buffer.length < ebmlSliceSize
  starting : ebml.parseState = .startCluster → ebml.clusterStart < 0
  parsing : ebml.parseState = .parsingClusters → startsCluster ebml.inputBuffer →
    ebml.clusterStart < 0

/-- The turn leaves the first byte behind, or is followed by one that is ready as well. -/
def Moves (result : Turn × EbmlState × ℕ) : Prop :=
  0 < result.2.2 ∨ result.1 = .proceed ∧ Ready result.2.1

theorem Ready.parseElement (ready : Ready ebml) (sane : Sane ebml 0)
    (hstate : ebml.parseState = .parsingHeader ∨ ebml.parseState = .parsingClusters)
    (hfull : ebml.inputBuffer.length = ebmlSliceSize)
    (hok : (Ebml.parseElement ebml 0).1 ≠ .fail) :
    Moves ((Ebml.parseElement ebml 0).1, (Ebml.parseElement ebml 0).2, 0) := by
  rcases parseElement_cases ebml 0 with hfail | ⟨ebml', hresult, -⟩ |
    ⟨length, payload, htag, hmagic, hresult⟩ | ⟨ebml', length, hpos, hsame, hresult⟩
  · exact absurd hfail hok
  · have hwait : (Ebml.parseElement ebml 0).1 ≠ .wait :=
      parseElement_ne_wait ebml (by simp [hfull, ebmlSliceSize])
    exact absurd (congrArg Prod.fst hresult) hwait
  · rw [hresult]
    refine Or.inr ⟨rfl, ready.room, fun _ ↦ ?_, by simp⟩
    rcases hstate with hstate | hstate
    · have hstart := (sane.unpublished (sane.inHeader (Or.inl hstate))).2.1
      simp [hstart]
    · exact ready.parsing hstate (startsCluster_of_magic htag hmagic)
  · rw [hresult]
    obtain ⟨_, _, _, _, rfl⟩ := hsame
    refine Or.inr ⟨rfl, ready.room, fun h ↦ ?_, fun h ↦ ?_⟩
    all_goals rcases hstate with hstate | hstate <;> simp [copyState, hstate] at h

theorem Ready.startCluster (ready : Ready ebml) (hstate : ebml.parseState = .startCluster) :
    Moves ((Ebml.startCluster ebml 0).1, (Ebml.startCluster ebml 0).2, 0) := by
  have hstart := ready.starting hstate
  unfold Ebml.startCluster
  rw [if_neg (by omega)]
  exact Or.inr ⟨rfl, ready.room, by simp, by simp⟩

theorem finishCopy_cursor (ebml : EbmlState) (toCopy : ℕ) (resume : ParsingState) (cursor : ℕ) :
    (finishCopy ebml toCopy resume cursor).2.2 = cursor + toCopy := by
  unfold finishCopy
  simp only
  split <;> rfl

theorem Ready.turn (ready : Ready ebml) (sane : Sane ebml 0)
    (hfull : ebml.inputBuffer.length = ebmlSliceSize) (hok : (Ebml.turn ebml 0).1 ≠ .fail) :
    Moves (Ebml.turn ebml 0) := by
  have hinput : 0 < ebml.inputBuffer.length := by simp [hfull, ebmlSliceSize]
  unfold Ebml.turn at hok ⊢
  cases hstate : ebml.parseState with
  | parsingHeader =>
    simp only [hstate] at hok
    exact ready.parseElement sane (Or.inl hstate) hfull hok
  | parsingClusters =>
    simp only [hstate] at hok
    exact ready.parseElement sane (Or.inr hstate) hfull hok
  | startCluster => exact ready.startCluster hstate
  | copyingToHeader =>
    have hpos := sane.copying (Or.inl hstate)
    simp only [hstate, copyToHeader] at hok ⊢
    split
    · rename_i hlarge
      exact absurd (if_pos hlarge ▸ rfl) hok
    · refine Or.inl ?_
      rw [finishCopy_cursor]
      omega
  | copyingToData =>
    have hpos := sane.copying (Or.inr hstate)
    have hroom := ready.room
    refine Or.inl ?_
    simp only [copyToData_eq, finishCopy_cursor, toCopy]
    omega

/-- What the loop leaves behind when it ends by waiting. -/
structure LoopSane (ebml : EbmlState) (cursor : ℕ) (result : Turn × EbmlState × ℕ) : Prop where
  waits : result.1 = .wait
  sane : Sane result.2.1 result.2.2
  inputBuffer_eq : result.2.1.inputBuffer = ebml.inputBuffer
  cursor_le : cursor ≤ result.2.2
  flushed : result.2.1.parseState = .startCluster → 0 ≤ result.2.1.clusterStart →
    result.2.1.flushCluster = true
  moves : ebml.inputBuffer.length = ebmlSliceSize → (cursor = 0 → Ready ebml) → 0 < result.2.2

theorem Sane.wroteLoop (sane : Sane ebml cursor) (opened : Opened ebml cursor) {fuel : ℕ}
    (hfuel : work ebml cursor < fuel) (hok : (Ebml.wroteLoop fuel ebml cursor).1 ≠ .fail) :
    LoopSane ebml cursor (Ebml.wroteLoop fuel ebml cursor) := by
  induction fuel generalizing ebml cursor with
  | zero => omega
  | succ fuel ih =>
    unfold Ebml.wroteLoop at hok ⊢
    have hturn := sane.turn opened
    have hmoves (hfull : ebml.inputBuffer.length = ebmlSliceSize)
        (hready : cursor = 0 → Ready ebml) (hnext : (Ebml.turn ebml cursor).1 ≠ .fail) :
        Moves (Ebml.turn ebml cursor) := by
      rcases Nat.eq_zero_or_pos cursor with rfl | hpos
      · exact (hready rfl).turn sane hfull hnext
      · exact Or.inl (hpos.trans_le (hturn hnext).cursor_le)
    rcases hresult : Ebml.turn ebml cursor with ⟨result, ebml', cursor'⟩
    rw [hresult] at hturn hok hmoves
    cases result with
    | proceed =>
      have hstep := hturn (by simp)
      have hless : work ebml' cursor' < work ebml cursor := hstep.work_lt rfl
      have hloop := ih hstep.sane hstep.opened (hless.trans_le (Nat.le_of_lt_succ hfuel)) hok
      refine ⟨hloop.waits, hloop.sane, hloop.inputBuffer_eq.trans hstep.inputBuffer_eq,
        hstep.cursor_le.trans hloop.cursor_le, hloop.flushed, fun hfull hready ↦ ?_⟩
      refine hloop.moves ((congrArg List.length hstep.inputBuffer_eq).trans hfull) fun hzero ↦ ?_
      rcases hmoves hfull hready (by simp) with hpos | ⟨-, hready'⟩
      · exact absurd hzero hpos.ne'
      · exact hready'
    | wait =>
      have hstep := hturn (by simp)
      refine ⟨rfl, hstep.sane, hstep.inputBuffer_eq, hstep.cursor_le, hstep.flushed rfl,
        fun hfull hready ↦ ?_⟩
      rcases hmoves hfull hready (by simp) with hpos | ⟨h, -⟩
      · exact hpos
      · cases h
    | fail => exact absurd rfl hok

/-! ## Runs -/

/-- The parser between two calls. -/
structure AtRest (ebml : EbmlState) : Prop where
  sane : Sane ebml 0
  flushed : ebml.parseState = .startCluster → 0 ≤ ebml.clusterStart → ebml.flushCluster = true
  room : ebml.inputBuffer.length < ebmlSliceSize

theorem atRest_create : AtRest ebmlCreate := by
  refine ⟨⟨le_rfl, by simp [ebmlCreate], fun _ ↦ rfl, fun _ ↦ ⟨rfl, rfl, ?_⟩, ?_,
    by simp [ebmlCreate], by simp [ebmlCreate], ?_, by simp [ebmlCreate]⟩, by simp [ebmlCreate],
    by simp [ebmlCreate, ebmlSliceSize]⟩
  · simp [ParsingState.InClusters, ebmlCreate]
  · simp [ParsingState.InHeader, ebmlCreate]
  · simp [ParsingState.Copying, ebmlCreate]

theorem ebmlReadSpace_flush (ebml : EbmlState) :
    (ebmlReadSpace ebml).2 = ebml ∨
      (ebmlReadSpace ebml).2 = { ebml with flushCluster := true } := by
  unfold ebmlReadSpace
  split
  · exact Or.inl rfl
  · split
    · exact Or.inl rfl
    · by_cases hfull : ebml.buffer.length = ebmlSliceSize
      · simp only [if_pos hfull, if_true]
        exact Or.inr trivial
      · simp only [if_neg hfull]
        refine Or.inl ?_
        split <;> rfl

theorem ebmlReadSpace_zero (h : (ebmlReadSpace ebml).1 = 0) :
    (ebmlReadSpace ebml).2 = ebml ∧ (ebml.headerSize = 0 ∨ ebml.clusterStart ≤ 0 ∧
      (ebml.buffer = [] ∨ ebml.buffer.length ≠ ebmlSliceSize ∧ ebml.flushCluster = false)) := by
  cases houtput : ebml.outputState with
  | readingHeader =>
    simp only [ebmlReadSpace, houtput] at h ⊢
    exact ⟨trivial, Or.inl h⟩
  | readingClusters =>
    by_cases hstart : 0 < ebml.clusterStart
    · simp only [ebmlReadSpace, houtput, if_pos hstart] at h
      omega
    · by_cases hfull : ebml.buffer.length = ebmlSliceSize
      · simp only [ebmlReadSpace, houtput, if_neg hstart, if_pos hfull, if_true] at h
        simp [hfull, ebmlSliceSize] at h
      · simp only [ebmlReadSpace, houtput, if_neg hstart, if_neg hfull] at h ⊢
        cases hflush : ebml.flushCluster with
        | false => exact ⟨by simp, Or.inr ⟨by omega, Or.inr ⟨hfull, rfl⟩⟩⟩
        | true =>
          simp only [hflush, if_true, List.length_eq_zero_iff] at h
          exact ⟨by simp, Or.inr ⟨by omega, Or.inl h⟩⟩

theorem AtRest.ebmlReadSpace (rest : AtRest ebml) : AtRest (Ebml.ebmlReadSpace ebml).2 := by
  rcases ebmlReadSpace_flush ebml with h | h
  · rw [h]
    exact rest
  · rw [h]
    exact ⟨rest.sane.congr_flags _ _ _, fun _ _ ↦ rfl, rest.room⟩

/-- Where there is nothing to read, what has arrived can leave the input buffer. -/
theorem AtRest.ready (rest : AtRest ebml) (hread : (Ebml.ebmlReadSpace ebml).1 = 0)
    {input : Bytes} (hinput : ebml.parseState = .parsingClusters → startsCluster input →
      ebml.clusterStart < 0) : Ready { ebml with inputBuffer := input } := by
  have sane := rest.sane
  have hbuffer := sane.buffer_le
  obtain ⟨-, hsize | ⟨hstart, hspace⟩⟩ := ebmlReadSpace_zero hread
  · obtain ⟨hempty, hstart, -⟩ := sane.unpublished hsize
    exact ⟨by simp [hempty, ebmlSliceSize], by simp [hstart], hinput⟩
  · refine ⟨?_, fun hstate ↦ ?_, hinput⟩
    · rcases hspace with hempty | ⟨hne, -⟩
      · simp [hempty, ebmlSliceSize]
      · exact lt_of_le_of_ne hbuffer hne
    · -- a Cluster that waits has set the flag, and the one before it is in the read buffer
      by_contra hwaits
      simp only [not_lt] at hwaits
      have hfirst := sane.clusterStart_lt hwaits (by simp_all)
      have hflush := rest.flushed hstate hwaits
      rcases hspace with hempty | ⟨-, hnot⟩
      · simp only [hempty, List.length_nil] at hfirst
        omega
      · simp [hflush] at hnot

theorem Sane.receive (sane : Sane ebml 0) (written : Bytes) :
    Sane { ebml with inputBuffer := ebml.inputBuffer ++ written } 0 := by
  refine ⟨Nat.zero_le _, sane.buffer_le, sane.inHeader, sane.unpublished, sane.header_ne,
    sane.clusterStart_le, sane.clusterStart_lt, sane.copying, fun hstate ↦ ?_⟩
  obtain ⟨length, payload, htag⟩ := sane.starting hstate
  exact ⟨length, payload, ebmlParseTag_append htag written⟩

theorem Sane.shift (sane : Sane ebml cursor) :
    Sane { ebml with
      inputBuffer := ebml.inputBuffer.drop cursor
      consumed := ebml.consumed + cursor } 0 :=
  ⟨Nat.zero_le _, sane.buffer_le, sane.inHeader, sane.unpublished, sane.header_ne,
    sane.clusterStart_le, sane.clusterStart_lt, sane.copying, sane.starting⟩

theorem AtRest.ebmlWrote (rest : AtRest ebml) (hread : (Ebml.ebmlReadSpace ebml).1 = 0)
    {written : Bytes} (hfits : written.length ≤ ebmlGetWriteBuffer ebml)
    (hguard : startsCluster (ebml.inputBuffer ++ written) →
      ¬(ebml.parseState = .parsingHeader ∧ ebml.header = []) ∧
      ¬(ebml.parseState = .parsingClusters ∧ 0 ≤ ebml.clusterStart ∧
        (ebml.inputBuffer ++ written).length = ebmlSliceSize))
    (hok : (Ebml.ebmlWrote ebml written).1 ≠ -1) : AtRest (Ebml.ebmlWrote ebml written).2 := by
  have hopened : Opened { ebml with inputBuffer := ebml.inputBuffer ++ written } 0 := by
    intro hstate hheader
    cases hcluster : startsCluster (ebml.inputBuffer ++ written) with
    | false => exact hcluster
    | true => exact absurd ⟨hstate, hheader⟩ (hguard hcluster).1
  have hloop := (rest.sane.receive written).wroteLoop hopened
    (work_zero_lt { ebml with inputBuffer := ebml.inputBuffer ++ written })
  have hlength : (ebml.inputBuffer ++ written).length ≤ ebmlSliceSize := by
    have := rest.room
    rw [List.length_append]
    unfold ebmlGetWriteBuffer at hfits
    omega
  unfold Ebml.ebmlWrote at hok ⊢
  simp only at hok hloop ⊢
  rcases hresult : Ebml.wroteLoop (3 * (ebml.inputBuffer ++ written).length + 3)
    { ebml with inputBuffer := ebml.inputBuffer ++ written } 0 with ⟨result, ebml', cursor'⟩
  rw [hresult] at hloop hok
  cases result with
  | fail => exact absurd rfl hok
  | proceed => exact absurd (hloop (by simp)).waits (by simp)
  | wait =>
    have hended := hloop (by simp)
    refine ⟨hended.sane.shift, hended.flushed, ?_⟩
    have hinput : ebml'.inputBuffer = ebml.inputBuffer ++ written := hended.inputBuffer_eq
    simp only [List.length_drop, hinput]
    by_cases hfull : (ebml.inputBuffer ++ written).length = ebmlSliceSize
    · have hmoved : 0 < cursor' := by
        refine hended.moves hfull fun _ ↦ rest.ready hread fun hstate hcluster ↦ ?_
        by_contra hwaits
        exact (hguard hcluster).2 ⟨hstate, not_lt.mp hwaits, hfull⟩
      simp only [ebmlSliceSize] at hfull ⊢
      omega
    · exact lt_of_le_of_lt (Nat.sub_le _ _) (lt_of_le_of_ne hlength hfull)

/-- A read takes bytes off the read buffer and moves `cluster_start` down with them; a Cluster at
the start of the buffer is forgotten. -/
theorem ebmlReadCluster_state (ebml : EbmlState) (len : ℕ) :
    ∃ toRead clusterStart,
      (ebmlReadCluster ebml len).2.2 =
        { ebml with buffer := ebml.buffer.drop toRead, clusterStart := clusterStart } ∧
      (0 ≤ clusterStart ∧ clusterStart = ebml.clusterStart - toRead ∨
        ebml.clusterStart ≤ 0 ∧ clusterStart = min ebml.clusterStart (-1)) := by
  by_cases hsome : 0 < ebml.clusterStart
  · refine ⟨min len ebml.clusterStart.toNat, _, ?_, Or.inl ⟨?_, rfl⟩⟩
    · simp only [ebmlReadCluster, if_pos hsome, if_neg hsome.ne']
      rw [if_neg (by omega)]
    · omega
  · by_cases hzero : ebml.clusterStart = 0
    · by_cases hempty : ebml.buffer.length < 1
      · refine ⟨0, -1, ?_, Or.inr ⟨by omega, by omega⟩⟩
        simp [ebmlReadCluster, hzero, hempty]
      · refine ⟨min len ebml.buffer.length, -1, ?_, Or.inr ⟨by omega, by omega⟩⟩
        simp [ebmlReadCluster, hzero, hempty]
    · by_cases hempty : ebml.buffer.length < 1
      · refine ⟨0, ebml.clusterStart, ?_, Or.inr ⟨by omega, by omega⟩⟩
        simp [ebmlReadCluster, hsome, hzero, hempty]
      · refine ⟨min len ebml.buffer.length, ebml.clusterStart, ?_, Or.inr ⟨by omega, by omega⟩⟩
        simp [ebmlReadCluster, hsome, hzero, hempty]

theorem AtRest.ebmlReadCluster (rest : AtRest ebml) (len : ℕ) :
    AtRest (Ebml.ebmlReadCluster ebml len).2.2 := by
  have sane := rest.sane
  have hbuffer := sane.buffer_le
  have hle := sane.clusterStart_le
  have hlt := sane.clusterStart_lt
  obtain ⟨toRead, clusterStart, hstate, hstart⟩ := ebmlReadCluster_state ebml len
  rw [hstate]
  refine ⟨⟨sane.cursor_le, ?_, sane.inHeader, ?_, sane.header_ne, ?_, ?_, sane.copying,
    sane.starting⟩, ?_, rest.room⟩
  · simp only [List.length_drop]
    omega
  · intro hsize
    obtain ⟨hempty, hnone, hnot⟩ := sane.unpublished hsize
    exact ⟨by simp [hempty], by simp only; omega, hnot⟩
  · simp only [List.length_drop]
    omega
  · intro hpos hcopy
    have hfirst := fun h ↦ hlt h hcopy
    simp only [List.length_drop] at hpos ⊢
    omega
  · intro hcluster hpos
    simp only at hpos
    exact rest.flushed hcluster (by omega)

theorem AtRest.ebmlRead (rest : AtRest ebml) (len : ℕ) : AtRest (Ebml.ebmlRead ebml len).2.2 := by
  unfold Ebml.ebmlRead
  split
  · exact rest
  · split
    · unfold ebmlReadHeader
      split
      · exact ⟨rest.sane.congr_flags _ _ _, rest.flushed, rest.room⟩
      · exact rest
    · exact rest.ebmlReadCluster len

/-- What every step keeps as long as the writes meet the condition. -/
def ProgressInv (parser : Parser) : Prop := parser.failed = true ∨ AtRest parser.ebml

theorem ProgressInv.parserStep {parser : Parser} (inv : ProgressInv parser) (event : ParserEvent)
    (hguard : RoomBehindCluster parser event) : ProgressInv (Ebml.parserStep parser event) := by
  rcases inv with hfailed | rest
  · refine Or.inl ?_
    cases event with
    | feed data =>
      simp only [Ebml.parserStep]
      split
      · exact hfailed
      · simp [hfailed]
    | read len => exact hfailed
  · cases event with
    | feed data =>
      simp only [Ebml.parserStep]
      split
      · exact Or.inr rest.ebmlReadSpace
      · rename_i hread
        have hread' : (ebmlReadSpace parser.ebml).1 = 0 := by omega
        rw [(ebmlReadSpace_zero hread').1]
        by_cases hok : (ebmlWrote parser.ebml (data.take (ebmlGetWriteBuffer parser.ebml))).1 = -1
        · exact Or.inl (by simp [hok])
        · refine Or.inr (rest.ebmlWrote hread' ?_ (hguard hread') hok)
          rw [List.length_take]
          omega
    | read len => exact Or.inr (rest.ebmlRead len)

theorem ebmlWrote_ret (ebml : EbmlState) (written : Bytes) :
    (ebmlWrote ebml written).1 = -1 ∨ (ebmlWrote ebml written).1 = written.length := by
  unfold ebmlWrote
  simp only
  split
  · exact Or.inl rfl
  · exact Or.inr rfl

/-- The loop of `ebml_get_buffer` runs the parser: a turn that returns a chunk reads all of it, and
one that does not feeds what the connection has. -/
theorem getBufferTurn_run (s : Source) (limit : ℕ) :
    ∃ events, run parserStep ⟨s.ebml, s.parseError⟩ events =
      ⟨(getBufferTurn s limit).ebml, (getBufferTurn s limit).parseError⟩ := by
  by_cases hpos : 0 < (ebmlReadSpace s.ebml).1
  · refine ⟨[.feed [], .read (ebmlReadSpace s.ebml).1], ?_⟩
    simp only [run_cons, run_nil, parserStep, getBufferTurn, takeChunk, if_pos hpos]
    cases s.header <;> rfl
  · have hzero : (ebmlReadSpace s.ebml).1 = 0 := by omega
    have hebml := (ebmlReadSpace_zero hzero).1
    rcases hread : readBytes s.incoming limit (ebmlSliceSize - s.ebml.inputBuffer.length) with
      ⟨data, incoming⟩
    have hle := readBytes_length_le s.incoming limit (ebmlSliceSize - s.ebml.inputBuffer.length)
    rw [hread] at hle
    have hfits : data.take (ebmlGetWriteBuffer s.ebml) = data := List.take_of_length_le hle
    refine ⟨[.feed data], ?_⟩
    simp only [run_cons, run_nil, parserStep, getBufferTurn, feed, if_neg hpos, hebml, hfits, hread]
    rcases ebmlWrote_ret s.ebml data with hret | hret
    · by_cases hdata : data = []
      · rw [if_pos hdata]
      · rw [if_neg hdata, if_pos (by omega)]
        simp [hret]
    · have hnot : (ebmlWrote s.ebml data).1 ≠ -1 := by omega
      by_cases hdata : data = []
      · rw [if_pos hdata]
      · rw [if_neg hdata, if_neg (by omega)]
        simp [hnot]

/-- In every run whose writes meet the condition, as long as no error has been reported, there is a
chunk to read or room for more bytes. -/
theorem ebml_progress (events : List ParserEvent)
    (hguard : Guarded parserStep RoomBehindCluster parserCreate events)
    (hok : (run parserStep parserCreate events).failed = false) :
    0 < (ebmlReadSpace (run parserStep parserCreate events).ebml).1 ∨
      0 < ebmlGetWriteBuffer (run parserStep parserCreate events).ebml := by
  have inv := run_invariant_of_guarded parserStep ProgressInv
    (fun _ event inv hguard ↦ inv.parserStep event hguard) events (Or.inr atRest_create) hguard
  rcases inv with hfailed | rest
  · rw [hok] at hfailed
    cases hfailed
  · exact Or.inr (Nat.sub_pos_of_lt rest.room)

/-! ## The condition is needed -/

theorem ebmlParseVarInt_magic {input : Bytes} {typeLength tagId : ℕ}
    (hmagic : input.take uncommonMagicLen = clusterMagic)
    (h : ebmlParseVarInt input = .done typeLength tagId) : typeLength = 4 := by
  obtain ⟨rest, rfl⟩ : ∃ rest, input = clusterMagic ++ rest :=
    ⟨input.drop uncommonMagicLen, by rw [← hmagic, List.take_append_drop]⟩
  have hmarker : findMarker (0x1F : UInt8).toNat 8 = some (4, 15, 15) := by decide
  simp only [clusterMagic, List.cons_append, List.nil_append, ebmlParseVarInt, hmarker] at h
  rw [if_neg (by simp), Parsed.done.injEq] at h
  exact h.1.symm

/-- A Cluster at the start of the input is recognised. -/
theorem parseElement_startsCluster (hcluster : startsCluster ebml.inputBuffer = true) :
    parseElement ebml 0 = (.proceed, { ebml with
      parseState := .startCluster
      clusters := ebml.clusters ++ [ebml.consumed] }) := by
  unfold startsCluster at hcluster
  split at hcluster
  · rename_i length payload htag
    rw [decide_eq_true_eq] at hcluster
    obtain ⟨typeLength, tagId, sizeLength, htype, hsize, hlength⟩ := ebmlParseTag_cases htag
    have htypeLength := ebmlParseVarInt_magic hcluster htype
    have hlong : uncommonMagicLen < length := by
      have := ebmlParseVarInt_pos hsize
      unfold uncommonMagicLen
      omega
    simp [parseElement, htag, hcluster, hlong]
  · cases hcluster

theorem turn_startsCluster (hstate : ebml.parseState = .parsingClusters)
    (hcluster : startsCluster ebml.inputBuffer = true) :
    turn ebml 0 = (.proceed, { ebml with
      parseState := .startCluster
      clusters := ebml.clusters ++ [ebml.consumed] }, 0) := by
  simp only [turn, hstate, parseElement_startsCluster hcluster]

theorem turn_waits (hstate : ebml.parseState = .startCluster) (hstart : 0 ≤ ebml.clusterStart) :
    turn ebml 0 = (.wait, { ebml with flushCluster := true }, 0) := by
  simp only [turn, hstate, startCluster, if_pos hstart]

/-- The Cluster waits at the cursor for the one in the read buffer. -/
theorem ebmlWrote_waits {written : Bytes} (hstate : ebml.parseState = .parsingClusters)
    (hstart : 0 ≤ ebml.clusterStart)
    (hcluster : startsCluster (ebml.inputBuffer ++ written) = true) :
    (ebmlWrote ebml written).2 = { ebml with
      parseState := .startCluster
      clusters := ebml.clusters ++ [ebml.consumed]
      flushCluster := true
      inputBuffer := ebml.inputBuffer ++ written } := by
  unfold ebmlWrote
  simp only
  rw [wroteLoop, turn_startsCluster (by exact hstate) (by exact hcluster)]
  simp only
  rw [wroteLoop, turn_waits (by rfl) (by exact hstart)]
  rfl

/-- A write that fills the input buffer behind such a Cluster leaves a parser that is stuck as soon
as the chunk that it lets go has been read. -/
theorem AtRest.stuck (rest : AtRest ebml) (hread : (Ebml.ebmlReadSpace ebml).1 = 0)
    (hstate : ebml.parseState = .parsingClusters) (hstart : 0 ≤ ebml.clusterStart)
    {written : Bytes} (hcluster : startsCluster (ebml.inputBuffer ++ written) = true)
    (hfull : (ebml.inputBuffer ++ written).length = ebmlSliceSize) :
    let waiting := (Ebml.ebmlWrote ebml written).2
    let emptied := (Ebml.ebmlRead waiting (Ebml.ebmlReadSpace waiting).1).2.2
    (Ebml.ebmlReadSpace emptied).1 = 0 ∧ ebmlGetWriteBuffer emptied = 0 := by
  have hsize : ebml.headerSize ≠ 0 := fun h ↦ (rest.sane.unpublished h).2.2 (Or.inl hstate)
  have houtput : ebml.outputState = .readingClusters := by
    cases h : ebml.outputState with
    | readingHeader =>
      simp only [Ebml.ebmlReadSpace, h] at hread
      exact absurd hread hsize
    | readingClusters => rfl
  have hzero : ebml.clusterStart = 0 := by
    rcases (ebmlReadSpace_zero hread).2 with h | ⟨hle, -⟩
    · exact absurd h hsize
    · omega
  have hfirst := rest.sane.clusterStart_lt hstart (by simp [hstate])
  have hbuffer : ¬ebml.buffer.length < 1 := by omega
  rw [ebmlWrote_waits hstate hstart hcluster]
  have hspace : (Ebml.ebmlReadSpace { ebml with
      parseState := .startCluster
      clusters := ebml.clusters ++ [ebml.consumed]
      flushCluster := true
      inputBuffer := ebml.inputBuffer ++ written }).1 = ebml.buffer.length := by
    by_cases hslice : ebml.buffer.length = ebmlSliceSize
    · simp [Ebml.ebmlReadSpace, houtput, hzero, hslice]
    · simp [Ebml.ebmlReadSpace, houtput, hzero, hslice]
  simp only [hspace]
  simp only [Ebml.ebmlRead, if_neg hbuffer, houtput, Ebml.ebmlReadCluster, hzero, lt_irrefl,
    if_false, if_true, min_self, List.drop_length]
  refine ⟨?_, ?_⟩
  · simp [Ebml.ebmlReadSpace, ebmlSliceSize]
  · simp only [ebmlGetWriteBuffer, hfull, Nat.sub_self]

/-- An empty EBML header and the tags of two empty Clusters. -/
def exampleHeader : Bytes := [0x1A, 0x45, 0xDF, 0xA3, 0x80]
def exampleCluster : Bytes := clusterMagic ++ [0x80]

theorem ebml_progress_example :
    0 < (ebmlReadSpace (run parserStep parserCreate
        [.feed (exampleHeader ++ exampleCluster), .read 5, .feed exampleCluster]).ebml).1 ∨
      0 < ebmlGetWriteBuffer (run parserStep parserCreate
        [.feed (exampleHeader ++ exampleCluster), .read 5, .feed exampleCluster]).ebml :=
  ebml_progress _ (by decide +kernel) (by decide +kernel)

/-- The first three bytes of the second Cluster come with the first one, the next read fills the
input buffer, and the first Cluster leaves: nothing can be read and nothing can be written. -/
theorem ebml_progress_stuck :
    ¬∀ events : List ParserEvent, (run parserStep parserCreate events).failed = false →
      0 < (ebmlReadSpace (run parserStep parserCreate events).ebml).1 ∨
        0 < ebmlGetWriteBuffer (run parserStep parserCreate events).ebml := by
  intro h
  have hstuck := h [.feed (exampleHeader ++ exampleCluster ++ exampleCluster.take 3), .read 5,
    .feed (exampleCluster.drop 3 ++ List.replicate 4091 0), .read 5] (by decide +kernel)
  revert hstuck
  decide +kernel

/-- A stream that opens with a Cluster, here with a Void element of 65535 bytes in it, fills both
buffers: its empty header is never read. -/
example :
    let parser := run parserStep parserCreate
      [.feed (exampleCluster ++ [0xEC, 0x10, 0x00, 0xFF, 0xFF] ++ List.replicate 4086 0),
        .feed (List.replicate 4096 0)]
    parser.failed = false ∧ (ebmlReadSpace parser.ebml).1 = 0 ∧
      ebmlGetWriteBuffer parser.ebml = 0 := by
  decide +kernel

end Icecast.Format.Ebml
