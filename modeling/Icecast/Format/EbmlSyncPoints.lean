import Icecast.Format.EbmlKeyframes

/-!
# Chunks that begin with a Cluster

The parser goes through the elements of the stream in their order, however the stream is split into reads.
When a chunk that begins with a Cluster leaves the read buffer, no later Cluster has been started, so what is
known about its first block comes from the elements behind it.
-/

namespace Icecast.Format.Ebml

open Lib.Machine Lib.Socket

/-- The bytes of an element that are still to be copied. -/
def pending (ebml : EbmlState) : ℕ :=
  match ebml.parseState with
  | .copyingToHeader | .copyingToData => ebml.copyLen
  | _ => 0

/-- The elements in front of this offset have been parsed. -/
def frontier (ebml : EbmlState) : ℕ := ebml.consumed + pending ebml

/-- The parser has come through these elements. -/
structure Follows (stream : Bytes) (ebml : EbmlState) (cursor : ℕ) (elements : List Element) : Prop where
  path : Path stream 0 elements (ebml.consumed + cursor + pending ebml)
  tracks : TracksKnown ebml elements
  status : StatusKnown ebml elements
  starting : ebml.parseState = .startCluster → ebml.consumed + cursor ∈ ebml.clusters ∧
    ∃ length, elementAt (stream.drop (ebml.consumed + cursor)) = some (.cluster, length) ∧
      (ebmlParseTag (ebml.inputBuffer.drop cursor)).length = length
  recognised : ∀ element ∈ elements, element.kind = .cluster → element.offset ∈ ebml.clusters
  placed : 0 ≤ ebml.clusterStart → ∃ before offset inside,
    elements = before ++ (⟨offset, .cluster⟩ : Element) :: inside ∧
      (∀ element ∈ inside, element.kind ≠ .cluster) ∧
      (offset : ℤ) + ebml.buffer.length = ebml.consumed + cursor + ebml.clusterStart

section Turns

variable {stream : Bytes} {ebml : EbmlState} {cursor : ℕ} {elements : List Element} {received out : Bytes}
  {starts : ℕ → Prop} {captured : Option Bytes}

/-- The bytes behind the cursor, continued by what the stream still has. -/
theorem ParserInv.drop_stream (inv : ParserInv ebml cursor received out starts captured)
    (hstream : received <+: stream) :
    ∃ more, stream.drop (ebml.consumed + cursor) = ebml.inputBuffer.drop cursor ++ more := by
  obtain ⟨rest, rfl⟩ := hstream
  refine ⟨rest.drop (ebml.consumed + cursor - received.length), ?_⟩
  rw [List.drop_append, inv.drop_received]

theorem Follows.recognise (h : Follows stream ebml cursor elements) {length : ℕ}
    (hstate : ebml.parseState = .parsingHeader ∨ ebml.parseState = .parsingClusters)
    (helement : elementAt (stream.drop (ebml.consumed + cursor)) = some (.cluster, length))
    (htag : (ebmlParseTag (ebml.inputBuffer.drop cursor)).length = length) :
    Follows stream { ebml with
      parseState := .startCluster
      clusters := ebml.clusters ++ [ebml.consumed + cursor] } cursor elements := by
  have hpending : pending ebml = 0 := by
    rcases hstate with hstate | hstate <;> simp [pending, hstate]
  refine ⟨?_, ⟨h.tracks.video, h.tracks.number, h.tracks.isVideo⟩, h.status, fun _ ↦ ?_, ?_, h.placed⟩
  · have hpath := h.path
    rw [hpending] at hpath
    exact hpath
  · exact ⟨List.mem_append_right _ List.mem_cons_self, length, helement, htag⟩
  · exact fun element hmem hkind ↦ List.mem_append_left _ (h.recognised element hmem hkind)

theorem Follows.probed (h : Follows stream ebml cursor elements) {kind : ElementKind} {length : ℕ}
    {probed : EbmlState} (hstate : ebml.parseState = .parsingHeader ∨ ebml.parseState = .parsingClusters)
    (helement : elementAt (stream.drop (ebml.consumed + cursor)) = some (kind, length))
    (hkind : kind ≠ .cluster) (hprobed : Probed ebml probed kind) (hsame : SameBuffers ebml probed) :
    Follows stream { probed with copyLen := length, parseState := copyState ebml.parseState } cursor
      (elements ++ [⟨ebml.consumed + cursor, kind⟩]) := by
  have hpath := h.path
  have hpending : pending ebml = 0 := by
    rcases hstate with hstate | hstate <;> simp [pending, hstate]
  have htracks := h.tracks.probed hprobed (ebml.consumed + cursor)
  have hstatus := h.status.probed h.tracks hkind hprobed (ebml.consumed + cursor)
  rw [hpending, Nat.add_zero] at hpath
  obtain ⟨status, keyframeTrack, parsingTrack, isVideo, rfl⟩ := hsame
  refine ⟨?_, ⟨htracks.video, htracks.number, htracks.isVideo⟩, hstatus, ?_, ?_, ?_⟩
  · have hlength : pending { ebml with
        clusterStartsWithKeyframe := status
        keyframeTrackNumber := keyframeTrack
        parsingTrackNumber := parsingTrack
        parsingTrackIsVideo := isVideo
        copyLen := length
        parseState := copyState ebml.parseState } = length := by
      rcases hstate with hstate | hstate <;> simp [pending, hstate, copyState]
    rw [hlength]
    exact hpath.snoc helement
  · intro hstart
    rcases hstate with hstate | hstate <;> simp [copyState, hstate] at hstart
  · intro element hmem hcluster
    rcases List.mem_append.mp hmem with hmem | hmem
    · exact h.recognised element hmem hcluster
    · rw [List.mem_singleton.mp hmem] at hcluster
      exact absurd hcluster hkind
  · intro hstart
    obtain ⟨before, offset, inside, rfl, hinside, hoffset⟩ := h.placed hstart
    refine ⟨before, offset, inside ++ [⟨ebml.consumed + cursor, kind⟩], by simp, ?_, hoffset⟩
    intro element hmem
    rcases List.mem_append.mp hmem with hmem | hmem
    · exact hinside element hmem
    · rw [List.mem_singleton.mp hmem]
      exact hkind

theorem Follows.parseElement (h : Follows stream ebml cursor elements)
    (inv : ParserInv ebml cursor received out starts captured) (hstream : received <+: stream)
    (hstate : ebml.parseState = .parsingHeader ∨ ebml.parseState = .parsingClusters)
    (hok : (Ebml.parseElement ebml cursor).1 ≠ .fail) :
    ∃ elements', Follows stream (Ebml.parseElement ebml cursor).2 cursor elements' := by
  obtain ⟨more, hmore⟩ := inv.drop_stream hstream
  rcases hresult : Ebml.parseElement ebml cursor with ⟨turn, ebml'⟩
  rw [hresult] at hok
  cases turn with
  | fail => exact absurd rfl hok
  | wait =>
    rw [parseElement_wait hresult]
    exact ⟨elements, h⟩
  | proceed =>
    rcases parseElement_probed hresult more with ⟨length, payload, htag, helement, rfl⟩ |
      ⟨kind, length, probed, helement, hkind, hprobed, rfl⟩
    · rw [← hmore] at helement
      refine ⟨elements, h.recognise hstate helement ?_⟩
      rw [htag, Parsed.length]
    · rw [← hmore] at helement
      exact ⟨_, h.probed hstate helement hkind hprobed hprobed.sameBuffers⟩

theorem Follows.startCluster (h : Follows stream ebml cursor elements)
    (hstate : ebml.parseState = .startCluster) :
    ∃ elements', Follows stream (Ebml.startCluster ebml cursor).2 cursor elements' := by
  unfold Ebml.startCluster
  split
  · exact ⟨elements, h.path, ⟨h.tracks.video, h.tracks.number, h.tracks.isVideo⟩, h.status, h.starting,
      h.recognised, h.placed⟩
  · obtain ⟨hmem, length, helement, htag⟩ := h.starting hstate
    have hpath := h.path
    have hpending : pending ebml = 0 := by simp [pending, hstate]
    rw [hpending, Nat.add_zero] at hpath
    have htracks : TracksKnown ebml (elements ++ [⟨ebml.consumed + cursor, .cluster⟩]) :=
      h.tracks.unchanged rfl _
    refine ⟨elements ++ [⟨ebml.consumed + cursor, .cluster⟩], ?_,
      ⟨htracks.video, htracks.number, htracks.isVideo⟩, StatusKnown.cluster elements _ rfl, nofun, ?_,
      fun _ ↦ ?_⟩
    · simp only [pending, htag]
      exact hpath.snoc helement
    · intro element hmem' hcluster
      rcases List.mem_append.mp hmem' with hmem' | hmem'
      · exact h.recognised element hmem' hcluster
      · rw [List.mem_singleton.mp hmem']
        exact hmem
    · exact ⟨elements, ebml.consumed + cursor, [], rfl, nofun, by simp⟩

theorem Follows.finishCopy (h : Follows stream ebml cursor elements) {header buffer : Bytes}
    {toCopy : ℕ} {resume : ParsingState} (hcopying : ebml.parseState.Copying)
    (hresume : resume = .parsingHeader ∨ resume = .parsingClusters) (hle : toCopy ≤ ebml.copyLen)
    (hbuffer : 0 ≤ ebml.clusterStart → buffer.length = ebml.buffer.length + toCopy) :
    Follows stream
      (Ebml.finishCopy { ebml with header := header, buffer := buffer } toCopy resume cursor).2.1
      (Ebml.finishCopy { ebml with header := header, buffer := buffer } toCopy resume cursor).2.2
      elements := by
  have hpath := h.path
  have hpending : pending ebml = ebml.copyLen := by
    rcases hcopying with hstate | hstate <;> simp [pending, hstate]
  have hplaced : 0 ≤ ebml.clusterStart → ∃ before offset inside,
      elements = before ++ (⟨offset, .cluster⟩ : Element) :: inside ∧
        (∀ element ∈ inside, element.kind ≠ .cluster) ∧
        (offset : ℤ) + buffer.length = ebml.consumed + (cursor + toCopy : ℕ) + ebml.clusterStart := by
    intro hstart
    obtain ⟨before, offset, inside, helements, hinside, hoffset⟩ := h.placed hstart
    refine ⟨before, offset, inside, helements, hinside, ?_⟩
    rw [hbuffer hstart]
    push_cast
    omega
  rw [hpending] at hpath
  unfold Ebml.finishCopy
  simp only
  split
  · rename_i hdone
    refine ⟨?_, ⟨h.tracks.video, h.tracks.number, h.tracks.isVideo⟩, h.status, ?_, h.recognised,
      hplaced⟩
    · have hfrontier : ebml.consumed + (cursor + toCopy) + 0 = ebml.consumed + cursor + ebml.copyLen := by
        omega
      rcases hresume with rfl | rfl
      · simp only [pending, hfrontier]
        exact hpath
      · simp only [pending, hfrontier]
        exact hpath
    · rintro rfl
      rcases hresume with hresume | hresume <;> cases hresume
  · refine ⟨?_, ⟨h.tracks.video, h.tracks.number, h.tracks.isVideo⟩, h.status, ?_, h.recognised,
      hplaced⟩
    · have hfrontier : ebml.consumed + (cursor + toCopy) + (ebml.copyLen - toCopy) =
          ebml.consumed + cursor + ebml.copyLen := by omega
      rcases hcopying with hstate | hstate
      · simp only [pending, hstate, hfrontier]
        exact hpath
      · simp only [pending, hstate, hfrontier]
        exact hpath
    · intro hstart
      rcases hcopying with hstate | hstate <;> simp [hstate] at hstart

theorem Follows.turn (h : Follows stream ebml cursor elements)
    (inv : ParserInv ebml cursor received out starts captured) (hstream : received <+: stream)
    (hok : (Ebml.turn ebml cursor).1 ≠ .fail) :
    ∃ elements', Follows stream (Ebml.turn ebml cursor).2.1 (Ebml.turn ebml cursor).2.2 elements' := by
  unfold Ebml.turn at hok ⊢
  cases hstate : ebml.parseState with
  | parsingHeader =>
    simp only [hstate] at hok
    exact h.parseElement inv hstream (Or.inl hstate) hok
  | parsingClusters =>
    simp only [hstate] at hok
    exact h.parseElement inv hstream (Or.inr hstate) hok
  | startCluster => exact h.startCluster hstate
  | copyingToHeader =>
    simp only [hstate] at hok
    obtain ⟨-, -, hstart, -⟩ := inv.inHeader (Or.inr hstate)
    refine ⟨elements, ?_⟩
    unfold Ebml.copyToHeader at hok ⊢
    simp only at hok ⊢
    split
    · rename_i hlarge
      exact absurd (if_pos hlarge ▸ rfl) hok
    · apply h.finishCopy (Or.inl hstate) (Or.inl rfl) (min_le_right _ _)
      intro hnonneg
      omega
  | copyingToData =>
    refine ⟨elements, ?_⟩
    simp only
    rw [copyToData_eq]
    apply h.finishCopy (Or.inr hstate) (Or.inr rfl)
    · exact (min_le_left _ _).trans (min_le_right _ _)
    · intro _
      have hle := toCopy_le ebml cursor
      rw [List.length_append, List.length_take, List.length_drop]
      omega

theorem Follows.wroteLoop (h : Follows stream ebml cursor elements)
    (inv : ParserInv ebml cursor received out starts captured) (hstream : received <+: stream)
    (fuel : ℕ) (hok : (Ebml.wroteLoop fuel ebml cursor).1 ≠ .fail) :
    ∃ elements', Follows stream (Ebml.wroteLoop fuel ebml cursor).2.1
      (Ebml.wroteLoop fuel ebml cursor).2.2 elements' := by
  induction fuel generalizing ebml cursor elements with
  | zero => exact ⟨elements, h⟩
  | succ fuel ih =>
    unfold Ebml.wroteLoop at hok ⊢
    have hinv := inv.turn
    have hturn := h.turn inv hstream
    rcases hresult : Ebml.turn ebml cursor with ⟨result, ebml', cursor'⟩
    rw [hresult] at hinv hturn hok
    cases result with
    | proceed =>
      obtain ⟨elements', hfollows⟩ := hturn (by simp)
      exact ih hfollows (hinv (by simp)).inv hok
    | wait => exact hturn (by simp)
    | fail => exact absurd rfl hok

/-- What is written comes from the stream. -/
theorem Follows.ebmlWrote (h : Follows stream ebml 0 elements)
    (inv : ParserInv ebml 0 received out starts captured) {written : Bytes}
    (hstream : received ++ written <+: stream) (hok : (Ebml.ebmlWrote ebml written).1 ≠ -1) :
    ∃ elements', Follows stream (Ebml.ebmlWrote ebml written).2 0 elements' := by
  have hreceived : Follows stream { ebml with inputBuffer := ebml.inputBuffer ++ written } 0 elements := by
    refine ⟨h.path, ⟨h.tracks.video, h.tracks.number, h.tracks.isVideo⟩, h.status, ?_, h.recognised,
      h.placed⟩
    intro hstate
    obtain ⟨hmem, length, helement, hlength⟩ := h.starting hstate
    obtain ⟨tagLength, payload, htag⟩ := inv.starting hstate
    refine ⟨hmem, length, helement, ?_⟩
    rw [htag] at hlength
    rw [List.drop_zero] at htag ⊢
    rw [ebmlParseTag_append htag written]
    exact hlength
  have hloop := hreceived.wroteLoop (inv.receive written) hstream
    (3 * (ebml.inputBuffer ++ written).length + 3)
  unfold Ebml.ebmlWrote at hok ⊢
  simp only at hok ⊢
  rcases hresult : Ebml.wroteLoop (3 * (ebml.inputBuffer ++ written).length + 3)
    { ebml with inputBuffer := ebml.inputBuffer ++ written } 0 with ⟨result, ebml', cursor'⟩
  rw [hresult] at hloop hok
  have hshift : ∀ elements', Follows stream ebml' cursor' elements' → Follows stream { ebml' with
      inputBuffer := ebml'.inputBuffer.drop cursor'
      consumed := ebml'.consumed + cursor' } 0 elements' := fun elements' h' ↦
    ⟨h'.path, ⟨h'.tracks.video, h'.tracks.number, h'.tracks.isVideo⟩, h'.status, h'.starting,
      h'.recognised, h'.placed⟩
  cases result with
  | fail => exact absurd rfl hok
  | proceed =>
    obtain ⟨elements', hfollows⟩ := hloop (by simp)
    exact ⟨elements', hshift elements' hfollows⟩
  | wait =>
    obtain ⟨elements', hfollows⟩ := hloop (by simp)
    exact ⟨elements', hshift elements' hfollows⟩

theorem Follows.flush (h : Follows stream ebml 0 elements) (flush : Bool) :
    Follows stream { ebml with flushCluster := flush } 0 elements :=
  ⟨h.path, ⟨h.tracks.video, h.tracks.number, h.tracks.isVideo⟩, h.status, h.starting, h.recognised,
    h.placed⟩

theorem Follows.ebmlRead (h : Follows stream ebml 0 elements)
    (hle : ebml.clusterStart ≤ ebml.buffer.length) (len : ℕ) :
    Follows stream (Ebml.ebmlRead ebml len).2.2 0 elements := by
  unfold Ebml.ebmlRead
  split
  · exact h
  · split
    · unfold ebmlReadHeader
      split
      · exact ⟨h.path, ⟨h.tracks.video, h.tracks.number, h.tracks.isVideo⟩, h.status, h.starting,
          h.recognised, h.placed⟩
      · exact h
    · obtain ⟨toRead, clusterStart, hstate, hstart⟩ := ebmlReadCluster_state ebml len
      rw [hstate]
      refine ⟨h.path, ⟨h.tracks.video, h.tracks.number, h.tracks.isVideo⟩, h.status, h.starting,
        h.recognised, fun hnonneg ↦ ?_⟩
      simp only at hnonneg
      obtain ⟨before, offset, inside, helements, hinside, hoffset⟩ := h.placed (by omega)
      refine ⟨before, offset, inside, helements, hinside, ?_⟩
      simp only [List.length_drop]
      omega

end Turns

/-! ## Runs -/

/-- The source is asked for buffers as long as it is running. -/
def sourceTurn (s : Source) (limit : ℕ) : Source := if s.running then getBufferTurn s limit else s

/-- A read brings nothing, and what is left in the input buffer is corrupt. `ebml_get_buffer` does not look
at what `ebml_wrote` returns then, and the same bytes are parsed again. -/
def IgnoresError (s : Source) (limit : ℕ) : Prop :=
  (ebmlReadSpace s.ebml).1 = 0 ∧
    (readBytes s.incoming limit (ebmlSliceSize - s.ebml.inputBuffer.length)).1 = [] ∧
    (ebmlWrote (ebmlReadSpace s.ebml).2 []).1 = -1

instance (s : Source) (limit : ℕ) : Decidable (IgnoresError s limit) :=
  inferInstanceAs (Decidable (_ ∧ _ ∧ _))

/-- While the source is running, its parser follows the elements of the stream. -/
structure Healthy (stream : Bytes) (s : Source) : Prop where
  streamInv : StreamInv stream s
  follows : s.running = true → s.parseError = false ∧ ∃ elements, Follows stream s.ebml 0 elements

section Runs

variable {stream : Bytes} {s : Source}

theorem healthy_startSource (stream : Bytes) : Healthy stream (startSource stream) := by
  refine ⟨startSource_streamInv stream, fun _ ↦ ⟨rfl, [], .nil 0, ⟨rfl, rfl, rfl⟩, ?_, nofun, nofun, ?_⟩⟩
  · intro _ before offset inside helements
    exact absurd helements (by simp)
  · intro hstart
    have hnone : ¬ (0 : ℤ) ≤ -1 := by decide
    exact absurd hstart hnone

theorem Healthy.feed (h : Healthy stream s) (hrunning : s.running = true) {limit : ℕ}
    (hread : (readBytes s.incoming limit (ebmlSliceSize - s.ebml.inputBuffer.length)).1 = [] →
      (ebmlWrote s.ebml []).1 ≠ -1) :
    (feed s limit).running = true →
      (feed s limit).parseError = false ∧ ∃ elements, Follows stream (feed s limit).ebml 0 elements := by
  obtain ⟨hok, elements, hfollows⟩ := h.follows hrunning
  have inv := (h.streamInv.2 hok).parser
  have happend := readBytes_append s.incoming limit (ebmlSliceSize - s.ebml.inputBuffer.length)
  unfold Ebml.feed
  rcases hbytes : readBytes s.incoming limit (ebmlSliceSize - s.ebml.inputBuffer.length) with
    ⟨data, incoming⟩
  rw [hbytes] at hread happend
  have hstream : s.received ++ data <+: stream := by
    refine ⟨incoming, ?_⟩
    rw [List.append_assoc, happend]
    exact h.streamInv.1
  simp only at hread ⊢
  split
  · rename_i hempty
    intro _
    have hret := hread hempty
    rw [hempty] at hstream ⊢
    refine ⟨?_, hfollows.ebmlWrote inv hstream hret⟩
    simp [hok, hret]
  · split
    · exact fun hstopped ↦ nomatch hstopped
    · rename_i hwhole
      rw [not_ne_iff] at hwhole
      exact fun _ ↦ ⟨hok, hfollows.ebmlWrote inv hstream (by omega)⟩

theorem Healthy.sourceTurn (h : Healthy stream s) {limit : ℕ} (hguard : ¬ IgnoresError s limit) :
    Healthy stream (sourceTurn s limit) := by
  unfold Ebml.sourceTurn
  split
  · rename_i hrunning
    refine ⟨getBufferTurn_streamInv stream s limit h.streamInv, ?_⟩
    obtain ⟨hok, elements, hfollows⟩ := h.follows hrunning
    have inv := (h.streamInv.2 hok).parser
    obtain ⟨flush, hflush, -⟩ := ebmlReadSpace_cases s.ebml
    unfold getBufferTurn
    simp only
    split
    · rename_i hpos
      obtain ⟨-, -, herror⟩ :=
        takeChunk_stream { s with ebml := (ebmlReadSpace s.ebml).2 } (ebmlReadSpace s.ebml).1
      refine fun _ ↦ ⟨herror.trans hok, elements, ?_⟩
      have hread := (hfollows.flush flush).ebmlRead inv.clusterStart_le (ebmlReadSpace s.ebml).1
      rw [← hflush] at hread
      unfold takeChunk
      cases s.header with
      | none => exact hread
      | some data => exact hread
    · rename_i hnone
      have hfed : Healthy stream { s with ebml := (ebmlReadSpace s.ebml).2 } := by
        refine ⟨⟨h.streamInv.1, fun hok ↦ ?_⟩, fun _ ↦ ⟨hok, elements, ?_⟩⟩
        · rw [hflush]
          exact (h.streamInv.2 hok).congr_flush flush
        · rw [hflush]
          exact hfollows.flush flush
      apply hfed.feed hrunning
      intro hempty hret
      refine hguard ⟨Nat.eq_zero_of_not_pos hnone, ?_, hret⟩
      rw [hflush] at hempty
      exact hempty
  · exact h

theorem feed_chunks (s : Source) (limit : ℕ) : (feed s limit).chunks = s.chunks := by
  unfold feed
  simp only
  split
  · rfl
  · split
    · rfl
    · rfl

theorem ebmlReadCluster_chunkType (ebml : EbmlState) (len : ℕ) :
    (ebmlReadCluster ebml len).2.1 =
      if ebml.clusterStart = 0 ∧ ebml.clusterStartsWithKeyframe ≠ .doesNotStartCluster
      then .clusterStart else .clusterContinue := by
  unfold ebmlReadCluster
  simp only
  generalize (if 0 < ebml.clusterStart then ebml.clusterStart.toNat else ebml.buffer.length) = readSpace
  by_cases hempty : readSpace < 1
  · rw [if_pos hempty]
  · rw [if_neg hempty]

/-- A chunk that a turn returns: its bytes, and how it is marked. -/
theorem SourceInv.returned (inv : SourceInv s) {limit : ℕ} {chunk : Chunk}
    (hchunk : (Ebml.sourceTurn s limit).chunks = s.chunks ++ [chunk]) :
    s.running = true ∧ chunk.data ≠ [] ∧ chunk.data <+: s.ebml.buffer ∧
      chunk.syncPoint = decide (s.ebml.clusterStart = 0 ∧
        s.ebml.clusterStartsWithKeyframe ≠ .doesNotStartCluster) := by
  have hself : s.chunks ≠ s.chunks ++ [chunk] := fun h ↦ by simpa using congrArg List.length h
  unfold Ebml.sourceTurn at hchunk
  split at hchunk
  · rename_i hrunning
    obtain ⟨flush, hflush, hlen⟩ := ebmlReadSpace_cases s.ebml
    unfold getBufferTurn at hchunk
    simp only at hchunk
    split at hchunk
    · rename_i hpos
      rcases hlen hpos with ⟨houtput, -⟩ | ⟨houtput, hcases⟩
      · obtain ⟨hheader, -⟩ := inv.reading houtput
        simp only [takeChunk, hheader] at hchunk
        exact absurd hchunk hself
      · obtain ⟨data, hheader⟩ := Option.ne_none_iff_exists'.mp (inv.captured houtput)
        have hstart := inv.parser.clusterStart_le
        have hread : ebmlRead { s.ebml with flushCluster := flush } (ebmlReadSpace s.ebml).1 =
            ebmlReadCluster { s.ebml with flushCluster := flush } (ebmlReadSpace s.ebml).1 := by
          simp [ebmlRead, houtput, hpos.ne']
        have hdata : (ebmlReadCluster { s.ebml with flushCluster := flush }
            (ebmlReadSpace s.ebml).1).1 = s.ebml.buffer.take (ebmlReadSpace s.ebml).1 := by
          obtain ⟨chunkType, clusterStart, hresult, -⟩ :=
            @ebmlReadCluster_eq { s.ebml with flushCluster := flush } _ hpos hcases
          rw [hresult]
        simp only [takeChunk, hflush, hread, hheader] at hchunk
        obtain rfl := List.singleton_inj.mp (List.append_cancel_left hchunk)
        refine ⟨hrunning, ?_, ?_, ?_⟩
        · rw [hdata]
          apply List.ne_nil_of_length_pos
          rw [List.length_take]
          omega
        · rw [hdata]
          exact List.take_prefix _ _
        · rw [ebmlReadCluster_chunkType]
          split
          · rename_i hsync
            exact (decide_eq_true hsync).symm
          · rename_i hsync
            exact (decide_eq_false hsync).symm
    · rw [feed_chunks] at hchunk
      exact absurd hchunk hself
  · exact absurd hchunk hself

/-- The place in the stream of the next chunk. -/
def place (s : Source) : ℕ := s.ebml.header.length + (output s.chunks).length

/-- A chunk that the next turn returns is the part of the stream at its place. If it begins with a Cluster,
it is not a sync point exactly when the first block of the video track in this Cluster, of those parsed so
far, is not a keyframe. -/
def MarkedByVideo (stream : Bytes) (s : Source) (limit : ℕ) : Prop :=
  ∀ chunk, (Ebml.sourceTurn s limit).chunks = s.chunks ++ [chunk] →
    chunk.data <+: stream.drop (place s) ∧
      ((⟨place s, .cluster⟩ : Element) ∈ elementsBefore stream (frontier s.ebml) →
        (chunk.syncPoint = false ↔
          firstVideoBlockOf (place s) [] (elementsBefore stream (frontier s.ebml)) = some false))

/-- A Cluster that begins at the place of the next chunk is the one that the parser has marked. -/
theorem SourceInv.clusterStart_eq_zero (inv : SourceInv s) {data : Bytes}
    (hmem : place s ∈ s.ebml.clusters) (hdata : data ≠ []) (hpart : data <+: s.ebml.buffer) :
    s.ebml.clusterStart = 0 := by
  have hconsumed := inv.parser.consumed_eq
  have hpos : 0 < s.ebml.buffer.length :=
    (List.length_pos_iff.mpr hdata).trans_le hpart.length_le
  have hplaced := inv.parser.placed (place s) hmem
  unfold place at hplaced
  rcases hplaced with ⟨before, hlt, hoffset, -⟩ | ⟨hstart, hoffset⟩ | ⟨-, hoffset⟩
  · omega
  · push_cast at hoffset
    omega
  · omega

theorem statusOf_marks {clusterStart : ℤ} (hzero : clusterStart = 0) (decision : Option Bool) :
    decide (clusterStart = 0 ∧ statusOf decision ≠ .doesNotStartCluster) = false ↔
      decision = some false := by
  rcases decision with _ | (_ | _) <;> simp [statusOf, hzero]

theorem Healthy.markedByVideo (h : Healthy stream s) (limit : ℕ) (hrunning : s.running = true)
    (hregular : Regular (elementsBefore stream (frontier s.ebml))) : MarkedByVideo stream s limit := by
  obtain ⟨hok, elements, hfollows⟩ := h.follows hrunning
  have inv := h.streamInv.2 hok
  have hconsumed := inv.parser.consumed_eq
  have helements : elementsBefore stream (frontier s.ebml) = elements :=
    hfollows.path.elementsBefore_eq
  rw [helements] at hregular
  intro chunk hchunk
  obtain ⟨-, hdata, hpart, hsync⟩ := inv.returned hchunk
  rw [helements]
  refine ⟨?_, fun hmem ↦ ?_⟩
  · have hstream : s.ebml.header ++ output s.chunks ++
        (s.ebml.buffer ++ (s.ebml.inputBuffer.drop 0 ++ s.incoming)) = stream := by
      rw [← h.streamInv.1, ← inv.parser.bytes_eq]
      simp only [List.append_assoc]
    rw [← hstream, List.drop_left' (by rw [List.length_append, place])]
    exact hpart.trans (List.prefix_append _ _)
  · have hzero := inv.clusterStart_eq_zero (hfollows.recognised _ hmem rfl) hdata hpart
    obtain ⟨before, offset, inside, rfl, hinside, hoffset⟩ := hfollows.placed hzero.ge
    have hplace : offset = place s := by
      rw [place]
      omega
    subst hplace
    rw [firstVideoBlockOf_cluster [] inside hfollows.path.not_mem, List.nil_append, hsync,
      hfollows.status hregular before _ inside rfl hinside]
    exact statusOf_marks hzero _

end Runs

/-- Through every run in which no error is ignored, as long as the elements parsed so far leave no doubt about
the video track, Clusters are marked by their first block of the video track. -/
theorem run_markedByVideo (stream : Bytes) (limits : List ℕ) (limit : ℕ)
    (hread : Guarded sourceTurn (fun s limit ↦ ¬ IgnoresError s limit) (startSource stream) limits)
    (hregular : Regular
      (elementsBefore stream (frontier (run sourceTurn (startSource stream) limits).ebml))) :
    MarkedByVideo stream (run sourceTurn (startSource stream) limits) limit := by
  have healthy : Healthy stream (run sourceTurn (startSource stream) limits) :=
    run_invariant_of_guarded sourceTurn (Healthy stream) (fun _ _ h hguard ↦ h.sourceTurn hguard) limits
      (healthy_startSource stream) hread
  by_cases hrunning : (run sourceTurn (startSource stream) limits).running = true
  · exact healthy.markedByVideo limit hrunning hregular
  · -- A source that has been stopped returns nothing.
    intro chunk hchunk
    rw [sourceTurn, if_neg hrunning] at hchunk
    exact absurd (congrArg List.length hchunk) (by simp)

/-- A video track, and a Cluster with a keyframe of another track and a block of the video track. -/
def videoCluster : Bytes :=
  [0xAE, 0x86, 0xD7, 0x81, 0x01, 0x83, 0x81, 0x01] ++ clusterMagic ++ [0xFF] ++
    [0xA3, 0x84, 0x82, 0x00, 0x00, 0x80] ++ [0xA3, 0x84, 0x81, 0x00, 0x00, 0x00] ++ clusterMagic ++ [0xFF]

theorem run_markedByVideo_videoCluster :
    let s := run sourceTurn (startSource videoCluster) [30, 1]
    (sourceTurn s 1).chunks = [⟨clusterMagic ++ [0xFF] ++ [0xA3, 0x84, 0x82, 0x00, 0x00, 0x80] ++
      [0xA3, 0x84, 0x81, 0x00, 0x00, 0x00], false⟩] ∧
    (⟨place s, .cluster⟩ : Element) ∈ elementsBefore videoCluster (frontier s.ebml) ∧
    MarkedByVideo videoCluster s 1 := by
  refine ⟨by decide +kernel, by decide +kernel, ?_⟩
  apply run_markedByVideo videoCluster [30, 1] 1
  · decide +kernel
  · apply regular_of_numbered
    · decide +kernel
    · decide +kernel

/-- No track, and a Cluster with a block whose track number stands for "unknown". -/
def strayBlock : Bytes :=
  [0xEC, 0x81, 0x00] ++ clusterMagic ++ [0xFF] ++ [0xA3, 0x84, 0xFF, 0x00, 0x00, 0x00] ++
    clusterMagic ++ [0xFF]

/-- Without a video track, the number that is looked for stands for "unknown", too. -/
theorem not_markedByVideo_strayBlock :
    let s := run sourceTurn (startSource strayBlock) [30, 1]
    videoTrack (elementsBefore strayBlock strayBlock.length) = none ∧ ¬ MarkedByVideo strayBlock s 1 := by
  refine ⟨by decide +kernel, fun hmarked ↦ ?_⟩
  have hchunk := hmarked ⟨clusterMagic ++ [0xFF] ++ [0xA3, 0x84, 0xFF, 0x00, 0x00, 0x00], false⟩
    (by decide +kernel)
  have hdecided := (hchunk.2 (by decide +kernel)).mp rfl
  exact absurd hdecided (by decide +kernel)

end Icecast.Format.Ebml
