import Icecast.Format.EbmlMemory
import Icecast.Format.EbmlProgress

/-!
# The EBML parser stays within its buffers

What the parser does to the bytes that its buffers hold keeps all fill levels in bounds, whether or not an
error has been reported before, and each turn of the loop leaves less work. On memory a turn does the same
and has no fault, so the parser stays within its memory through every sequence of calls.
-/

namespace Icecast.Format.EbmlBounds

open Lib.Checked Lib.MachineInt
open Ebml (Bytes EbmlState Parsed ParsingState SameBuffers Turn clusterMagic commonMagicLen copyState
  ebmlHeaderMaxSize ebmlSliceSize ebmlUnknown findMarker toCopy uncommonMagicLen work)
open EbmlMemory (EbmlSt Machine Run)

/-! ## The bytes that the buffers hold -/

variable {ebml : EbmlState} {cursor : ℕ}

/-- The fill levels of the buffers, and what goes with the parse states. -/
structure Bounded (ebml : EbmlState) (cursor : ℕ) : Prop where
  cursor_le : cursor ≤ ebml.inputBuffer.length
  input_le : ebml.inputBuffer.length ≤ ebmlSliceSize
  buffer_le : ebml.buffer.length ≤ ebmlSliceSize
  header_le : ebml.header.length ≤ ebmlHeaderMaxSize
  clusterStart : ebml.clusterStart = -1 ∨ 0 ≤ ebml.clusterStart ∧ ebml.clusterStart ≤ ebml.buffer.length
  headerSize_le : ebml.headerSize ≤ ebml.header.length
  headerRead_le : ebml.headerReadPosition ≤ ebml.headerSize
  copying : ebml.parseState.Copying → 0 < ebml.copyLen
  starting : ebml.parseState = .startCluster → ∃ length payload,
    Ebml.ebmlParseTag (ebml.inputBuffer.drop cursor) = .done length payload

/-- A turn of the loop keeps the bounds. If it fails, the cursor is of no use any more; if it goes on, there
is less work left. -/
structure TurnBounded (ebml : EbmlState) (cursor : ℕ) (result : Turn × EbmlState × ℕ) : Prop where
  bounded : Bounded result.2.1 (if result.1 = .fail then 0 else result.2.2)
  work_lt : result.1 = .proceed → work result.2.1 result.2.2 < work ebml cursor

theorem bounded_create : Bounded Ebml.ebmlCreate 0 := by
  refine ⟨Nat.zero_le _, Nat.zero_le _, Nat.zero_le _, Nat.zero_le _, Or.inl rfl, Nat.zero_le _,
    Nat.zero_le _, ?_, nofun⟩
  rintro (h | h) <;> cases h

theorem Bounded.congr {ebml' : EbmlState} (h : Bounded ebml cursor) (hsame : SameBuffers ebml ebml') :
    Bounded ebml' cursor := by
  obtain ⟨status, keyframeTrack, parsingTrack, isVideo, rfl⟩ := hsame
  exact ⟨h.cursor_le, h.input_le, h.buffer_le, h.header_le, h.clusterStart, h.headerSize_le,
    h.headerRead_le, h.copying, h.starting⟩

/-- Where no Cluster is waiting, the cursor can be set back. -/
theorem Bounded.setBack (h : Bounded ebml cursor) (hstate : ebml.parseState ≠ .startCluster) :
    Bounded ebml 0 :=
  ⟨Nat.zero_le _, h.input_le, h.buffer_le, h.header_le, h.clusterStart, h.headerSize_le,
    h.headerRead_le, h.copying, fun hstart ↦ absurd hstart hstate⟩

/-- An element that cannot be parsed changes what probing may change. -/
theorem parseElement_fail (hfail : (Ebml.parseElement ebml cursor).1 = .fail) :
    SameBuffers ebml (Ebml.parseElement ebml cursor).2 := by
  cases htag : Ebml.ebmlParseTag (ebml.inputBuffer.drop cursor) with
  | wait => simp [Ebml.parseElement, htag] at hfail
  | corrupt =>
    simp only [Ebml.parseElement, htag]
    exact .refl ebml
  | done length payload =>
    simp only [Ebml.parseElement, htag] at hfail ⊢
    split
    · rename_i hcluster
      rw [if_pos hcluster] at hfail
      cases hfail
    · rename_i hcluster
      rw [if_neg hcluster] at hfail
      generalize (if uncommonMagicLen < length ∧
        ((ebml.inputBuffer.drop cursor).take uncommonMagicLen = Ebml.segmentMagic ∨
          (ebml.inputBuffer.drop cursor).take uncommonMagicLen = Ebml.tracksMagic) then 0
        else if payload = ebmlUnknown then 0 else payload) = payloadLength at hfail ⊢
      have hsame := Ebml.probe_sameBuffers ebml (ebml.inputBuffer.drop cursor) length payloadLength
      rcases hprobe : Ebml.probe ebml (ebml.inputBuffer.drop cursor) length payloadLength with
        ⟨result, probed, copied⟩
      rw [hprobe] at hsame hfail
      cases result with
      | proceed => cases hfail
      | wait => exact hsame
      | fail => exact hsame

theorem Bounded.parseElement (h : Bounded ebml cursor)
    (hstate : ebml.parseState = .parsingHeader ∨ ebml.parseState = .parsingClusters) :
    TurnBounded ebml cursor
      ((Ebml.parseElement ebml cursor).1, (Ebml.parseElement ebml cursor).2, cursor) := by
  have hnot : ebml.parseState ≠ .startCluster := by
    rcases hstate with hstate | hstate <;> simp [hstate]
  have hwork : work ebml cursor = 3 * (ebml.inputBuffer.length - cursor) + 2 := by
    rcases hstate with hstate | hstate <;> simp [work, hstate]
  rcases Ebml.parseElement_cases ebml cursor with hfail | ⟨ebml', hresult, hsame⟩ |
    ⟨length, payload, htag, -, hresult⟩ | ⟨ebml', length, hpos, hsame, hresult⟩
  · have hsame := parseElement_fail hfail
    refine ⟨?_, fun hproceed ↦ ?_⟩
    · simp only [hfail, if_true]
      exact (h.setBack hnot).congr hsame
    · rw [hfail] at hproceed
      cases hproceed
  · rw [hresult]
    exact ⟨h.congr hsame, by rintro ⟨⟩⟩
  · rw [hresult]
    refine ⟨⟨h.cursor_le, h.input_le, h.buffer_le, h.header_le, h.clusterStart, h.headerSize_le,
      h.headerRead_le, ?_, fun _ ↦ ⟨length, payload, htag⟩⟩, fun _ ↦ ?_⟩
    · rintro (hcopying | hcopying) <;> cases hcopying
    · rw [hwork]
      simp [work]
  · rw [hresult]
    have h' := h.congr hsame
    obtain ⟨_, _, _, _, rfl⟩ := hsame
    refine ⟨⟨h'.cursor_le, h'.input_le, h'.buffer_le, h'.header_le, h'.clusterStart, h'.headerSize_le,
      h'.headerRead_le, fun _ ↦ hpos, ?_⟩, fun _ ↦ ?_⟩
    · intro hstart
      rcases hstate with hstate | hstate <;> simp [copyState, hstate] at hstart
    · rw [hwork]
      rcases hstate with hstate | hstate <;> simp [work, copyState, hstate]

theorem Bounded.startCluster (h : Bounded ebml cursor) (hstate : ebml.parseState = .startCluster) :
    TurnBounded ebml cursor
      ((Ebml.startCluster ebml cursor).1, (Ebml.startCluster ebml cursor).2, cursor) := by
  unfold Ebml.startCluster
  split
  · exact ⟨⟨h.cursor_le, h.input_le, h.buffer_le, h.header_le, h.clusterStart, h.headerSize_le,
      h.headerRead_le, h.copying, h.starting⟩, nofun⟩
  · obtain ⟨length, payload, htag⟩ := h.starting hstate
    refine ⟨⟨h.cursor_le, h.input_le, h.buffer_le, h.header_le, ?_, Nat.le_refl _,
      h.headerRead_le.trans h.headerSize_le, fun _ ↦ ?_, nofun⟩, fun _ ↦ ?_⟩
    · exact Or.inr ⟨Int.natCast_nonneg _, le_rfl⟩
    · simp only [htag, Parsed.length]
      exact Ebml.ebmlParseTag_pos htag
    · simp [work, hstate]

theorem Bounded.copyToHeader (h : Bounded ebml cursor) (hstate : ebml.parseState = .copyingToHeader) :
    TurnBounded ebml cursor (Ebml.copyToHeader ebml cursor) := by
  have hpos := h.copying (Or.inl hstate)
  have hcursor := h.cursor_le
  have hsize := h.headerSize_le
  unfold Ebml.copyToHeader
  simp only
  split
  · exact ⟨h.setBack (by simp [hstate]), by rintro ⟨⟩⟩
  · rename_i hfits
    have hlength : (ebml.header ++ (ebml.inputBuffer.drop cursor).take
        (min (ebml.inputBuffer.length - cursor) ebml.copyLen)).length =
        ebml.header.length + min (ebml.inputBuffer.length - cursor) ebml.copyLen := by
      rw [List.length_append, List.length_take, List.length_drop]
      omega
    unfold Ebml.finishCopy
    simp only
    split
    · rename_i hdone
      refine ⟨⟨?_, h.input_le, h.buffer_le, ?_, h.clusterStart, ?_, h.headerRead_le, ?_, by rintro ⟨⟩⟩,
        fun _ ↦ ?_⟩
      · simp only [reduceCtorEq, if_false]
        omega
      · simp only [hlength]
        omega
      · simp only [hlength]
        omega
      · rintro (hcopying | hcopying) <;> cases hcopying
      · simp only [work, hstate]
        omega
    · rename_i hmore
      refine ⟨⟨?_, h.input_le, h.buffer_le, ?_, h.clusterStart, ?_, h.headerRead_le,
        fun _ ↦ Nat.pos_of_ne_zero hmore, by simp [hstate]⟩, by rintro ⟨⟩⟩
      · simp only [reduceCtorEq, if_false]
        omega
      · simp only [hlength]
        omega
      · simp only [hlength]
        omega

theorem Bounded.copyToData (h : Bounded ebml cursor) (hstate : ebml.parseState = .copyingToData) :
    TurnBounded ebml cursor (Ebml.copyToData ebml cursor) := by
  have hpos := h.copying (Or.inr hstate)
  have hcursor := h.cursor_le
  have hbuffer := h.buffer_le
  have hstart := h.clusterStart
  have hle := Ebml.toCopy_le ebml cursor
  have hroom : ebml.buffer.length + toCopy ebml cursor ≤ ebmlSliceSize := by
    unfold toCopy
    omega
  have hlength : (ebml.buffer ++ (ebml.inputBuffer.drop cursor).take (toCopy ebml cursor)).length =
      ebml.buffer.length + toCopy ebml cursor := by
    rw [List.length_append, List.length_take, List.length_drop]
    omega
  rw [Ebml.copyToData_eq]
  unfold Ebml.finishCopy
  simp only
  split
  · rename_i hdone
    refine ⟨⟨?_, h.input_le, ?_, h.header_le, ?_, h.headerSize_le, h.headerRead_le, ?_, by rintro ⟨⟩⟩,
      fun _ ↦ ?_⟩
    · simp only [reduceCtorEq, if_false]
      omega
    · simp only [hlength]
      omega
    · simp only [hlength]
      omega
    · rintro (hcopying | hcopying) <;> cases hcopying
    · simp only [work, hstate]
      omega
  · rename_i hmore
    refine ⟨⟨?_, h.input_le, ?_, h.header_le, ?_, h.headerSize_le, h.headerRead_le,
      fun _ ↦ Nat.pos_of_ne_zero hmore, by simp [hstate]⟩, by rintro ⟨⟩⟩
    · simp only [reduceCtorEq, if_false]
      omega
    · simp only [hlength]
      omega
    · simp only [hlength]
      omega

theorem Bounded.turn (h : Bounded ebml cursor) : TurnBounded ebml cursor (Ebml.turn ebml cursor) := by
  unfold Ebml.turn
  cases hstate : ebml.parseState with
  | parsingHeader => exact h.parseElement (Or.inl hstate)
  | parsingClusters => exact h.parseElement (Or.inr hstate)
  | startCluster => exact h.startCluster hstate
  | copyingToHeader => exact h.copyToHeader hstate
  | copyingToData => exact h.copyToData hstate

theorem Bounded.receive (h : Bounded ebml 0) {written : Bytes}
    (hfits : ebml.inputBuffer.length + written.length ≤ ebmlSliceSize) :
    Bounded { ebml with inputBuffer := ebml.inputBuffer ++ written } 0 := by
  refine ⟨Nat.zero_le _, ?_, h.buffer_le, h.header_le, h.clusterStart, h.headerSize_le,
    h.headerRead_le, h.copying, fun hstate ↦ ?_⟩
  · rw [List.length_append]
    exact hfits
  · obtain ⟨length, payload, htag⟩ := h.starting hstate
    exact ⟨length, payload, Ebml.ebmlParseTag_append htag written⟩

theorem Bounded.shift (h : Bounded ebml cursor) (consumed : ℕ) :
    Bounded { ebml with inputBuffer := ebml.inputBuffer.drop cursor, consumed := consumed } 0 := by
  refine ⟨Nat.zero_le _, ?_, h.buffer_le, h.header_le, h.clusterStart, h.headerSize_le,
    h.headerRead_le, h.copying, h.starting⟩
  rw [List.length_drop]
  exact (Nat.sub_le _ _).trans h.input_le

theorem Bounded.ebmlReadSpace (h : Bounded ebml cursor) : Bounded (Ebml.ebmlReadSpace ebml).2 cursor := by
  rcases Ebml.ebmlReadSpace_flush ebml with hsame | hsame
  · rw [hsame]
    exact h
  · rw [hsame]
    exact ⟨h.cursor_le, h.input_le, h.buffer_le, h.header_le, h.clusterStart, h.headerSize_le,
      h.headerRead_le, h.copying, h.starting⟩

theorem Bounded.ebmlRead (h : Bounded ebml cursor) (len : ℕ) :
    Bounded (Ebml.ebmlRead ebml len).2.2 cursor := by
  unfold Ebml.ebmlRead
  split
  · exact h
  · split
    · unfold Ebml.ebmlReadHeader
      have hread := h.headerRead_le
      split
      · refine ⟨h.cursor_le, h.input_le, h.buffer_le, h.header_le, h.clusterStart, h.headerSize_le, ?_,
          h.copying, h.starting⟩
        simp only
        omega
      · exact h
    · obtain ⟨toRead, clusterStart, hstate, hstart⟩ := Ebml.ebmlReadCluster_state ebml len
      have hplace := h.clusterStart
      rw [hstate]
      refine ⟨h.cursor_le, h.input_le, ?_, h.header_le, ?_, h.headerSize_le, h.headerRead_le, h.copying,
        h.starting⟩
      · rw [List.length_drop]
        exact (Nat.sub_le _ _).trans h.buffer_le
      · simp only [List.length_drop]
        omega

/-! ## Numbers and tags on memory -/

section Numbers

variable {memory : Bytes} {buffer bufferEnd : ℕ}

theorem ebmlParseVarInt_eq (buffer : ℕ) (hend : bufferEnd ≤ memory.length) :
    EbmlMemory.ebmlParseVarInt memory buffer bufferEnd =
      .ok (Ebml.ebmlParseVarInt ((memory.take bufferEnd).drop buffer)) := by
  unfold EbmlMemory.ebmlParseVarInt
  split
  · rename_i hle
    rw [List.drop_of_length_le (by rw [List.length_take]; omega)]
    rfl
  · rename_i hlt
    have hbuffer : buffer < memory.length := by omega
    have hfirst : memory[buffer]? = some memory[buffer] := List.getElem?_eq_getElem hbuffer
    have hlength : ((memory.take bufferEnd).drop (buffer + 1)).length = bufferEnd - (buffer + 1) := by
      rw [List.length_drop, List.length_take]
      omega
    have hinput : (memory.take bufferEnd).drop buffer =
        memory[buffer] :: (memory.take bufferEnd).drop (buffer + 1) := by
      rw [List.drop_eq_getElem_cons (by rw [List.length_take]; omega), List.getElem_take]
    rw [hinput, load_of_getElem? hfirst, ok_bind, Ebml.ebmlParseVarInt]
    cases hmarker : findMarker memory[buffer].toNat 8 with
    | none => rfl
    | some found =>
      obtain ⟨size, value, marker⟩ := found
      have hsize := Ebml.findMarker_size le_rfl hmarker
      dsimp only
      rw [hlength]
      split
      · rw [if_pos (by omega)]
        rfl
      · have hdigits : (memory.drop (buffer + 1)).take (size - 1) =
            ((memory.take bufferEnd).drop (buffer + 1)).take (size - 1) := by
          rw [List.drop_take, List.take_take, Nat.min_eq_left (by omega)]
        rw [if_neg (by omega), loadRange_of_le (by omega), ok_bind, hdigits]
        rfl

theorem ebmlParseTag_eq (buffer : ℕ) (hend : bufferEnd ≤ memory.length) :
    EbmlMemory.ebmlParseTag memory buffer bufferEnd =
      .ok (Ebml.ebmlParseTag ((memory.take bufferEnd).drop buffer)) := by
  unfold EbmlMemory.ebmlParseTag Ebml.ebmlParseTag
  rw [ebmlParseVarInt_eq buffer hend, ok_bind]
  cases Ebml.ebmlParseVarInt ((memory.take bufferEnd).drop buffer) with
  | wait => rfl
  | corrupt => rfl
  | done typeLength tagId =>
    simp only [ebmlParseVarInt_eq (buffer + typeLength) hend, ok_bind, List.drop_drop]
    cases Ebml.ebmlParseVarInt ((memory.take bufferEnd).drop (buffer + typeLength)) with
    | wait => rfl
    | corrupt => rfl
    | done sizeLength payloadLength => rfl

theorem ebmlParseSizedInt_eq (buffer len : ℕ) (isSigned : Bool) (hend : bufferEnd ≤ memory.length) :
    EbmlMemory.ebmlParseSizedInt memory buffer bufferEnd len isSigned =
      .ok (Ebml.ebmlParseSizedInt ((memory.take bufferEnd).drop buffer) len isSigned) := by
  have hlength : ((memory.take bufferEnd).drop buffer).length = bufferEnd - buffer := by
    rw [List.length_drop, List.length_take]
    omega
  unfold EbmlMemory.ebmlParseSizedInt Ebml.ebmlParseSizedInt
  rw [hlength]
  split
  · rfl
  · rename_i hsize
    split
    · rw [if_pos (by omega)]
      rfl
    · have hbuffer : buffer < memory.length := by omega
      have hfirst : memory[buffer]? = some memory[buffer] := List.getElem?_eq_getElem hbuffer
      have hhead : ((memory.take bufferEnd).drop buffer).headD 0 = memory[buffer] := by
        rw [List.drop_eq_getElem_cons (by rw [List.length_take]; omega), List.getElem_take]
        rfl
      have hdigits : (memory.drop buffer).take len = ((memory.take bufferEnd).drop buffer).take len := by
        rw [List.drop_take, List.take_take, Nat.min_eq_left (by omega)]
      rw [if_neg (by omega), load_of_getElem? hfirst, ok_bind, loadRange_of_le (by omega), ok_bind,
        hdigits, hhead]
      rfl

/-- The first digits of a number leave room for the others in 56 bits. -/
theorem findMarker_digits {value size digits marker : ℕ} (hvalue : value < 256)
    (h : findMarker value 8 = some (size, digits, marker)) : (digits + 1) * 256 ^ (size - 1) ≤ 2 ^ 56 := by
  have hall : ∀ value < 256, ∀ found ∈ findMarker value 8,
      (found.2.1 + 1) * 256 ^ (found.1 - 1) ≤ 2 ^ 56 := by decide +kernel
  exact hall value hvalue (size, digits, marker) h

theorem foldl_digits_lt (digits : Bytes) (value : ℕ) :
    digits.foldl (fun value digit ↦ value * 256 + digit.toNat) value <
      (value + 1) * 256 ^ digits.length := by
  induction digits generalizing value with
  | nil => simp
  | cons digit digits ih =>
    have hdigit := digit.toNat_lt
    calc digits.foldl (fun value digit ↦ value * 256 + digit.toNat) (value * 256 + digit.toNat)
      _ < (value * 256 + digit.toNat + 1) * 256 ^ digits.length := ih _
      _ ≤ ((value + 1) * 256) * 256 ^ digits.length := by
        apply Nat.mul_le_mul_right
        omega
      _ = (value + 1) * 256 ^ (digit :: digits).length := by
        rw [List.length_cons, Nat.pow_succ, Nat.mul_assoc, Nat.mul_comm (256 ^ digits.length)]

/-- A number is unknown or has at most 56 bits. -/
theorem ebmlParseVarInt_value {input : Bytes} {length value : ℕ}
    (h : Ebml.ebmlParseVarInt input = .done length value) : value = ebmlUnknown ∨ value < 2 ^ 56 := by
  unfold Ebml.ebmlParseVarInt at h
  split at h
  · cases h
  · rename_i first rest
    split at h
    · cases h
    · rename_i size digits marker hmarker
      split at h
      · cases h
      · rename_i hlong
        obtain ⟨-, hvalue⟩ := Parsed.done.inj h
        have hbound := findMarker_digits first.toNat_lt hmarker
        have hfold := foldl_digits_lt (rest.take (size - 1)) digits
        rw [List.length_take_of_le (not_lt.mp hlong)] at hfold
        split at hvalue
        · exact Or.inl hvalue.symm
        · rw [← hvalue]
          exact Or.inr (hfold.trans_le hbound)

theorem ebmlParseTag_payload {input : Bytes} {length payload : ℕ}
    (h : Ebml.ebmlParseTag input = .done length payload) : payload = ebmlUnknown ∨ payload < 2 ^ 56 := by
  obtain ⟨typeLength, tagId, sizeLength, -, hsize, -⟩ := Ebml.ebmlParseTag_cases h
  exact ebmlParseVarInt_value hsize

end Numbers

/-! ## Turns on memory -/

/-- The bytes that the buffers hold. The last two fields are those that memory does not have. -/
def view (memory : EbmlSt) (consumed : ℕ) (clusters : List ℕ) : EbmlState where
  outputState := memory.outputState
  parseState := memory.parseState
  copyLen := memory.copyLen
  clusterStart := memory.clusterStart
  clusterStartsWithKeyframe := memory.clusterStartsWithKeyframe
  flushCluster := memory.flushCluster
  buffer := memory.buffer.take memory.position
  inputBuffer := memory.inputBuffer.take memory.inputPosition
  headerSize := memory.headerSize
  headerReadPosition := memory.headerReadPosition
  header := memory.header.take memory.headerPosition
  keyframeTrackNumber := memory.keyframeTrackNumber
  parsingTrackNumber := memory.parsingTrackNumber
  parsingTrackIsVideo := memory.parsingTrackIsVideo
  consumed := consumed
  clusters := clusters

/-- The memory that was allocated, and fill levels that are in it. -/
structure Sized (memory : EbmlSt) : Prop where
  buffer : memory.buffer.length = ebmlSliceSize
  inputBuffer : memory.inputBuffer.length = ebmlSliceSize
  header : memory.header.length = ebmlHeaderMaxSize
  position_le : memory.position ≤ ebmlSliceSize
  inputPosition_le : memory.inputPosition ≤ ebmlSliceSize
  headerPosition_le : memory.headerPosition ≤ ebmlHeaderMaxSize

/-- What probing may change on memory. -/
def SameMemory (memory memory' : EbmlSt) : Prop :=
  ∃ status keyframeTrack parsingTrack isVideo, memory' = { memory with
    clusterStartsWithKeyframe := status
    keyframeTrackNumber := keyframeTrack
    parsingTrackNumber := parsingTrack
    parsingTrackIsVideo := isVideo }

section Turns

variable {memory : EbmlSt} {tagLength payloadLength consumed : ℕ} {clusters : List ℕ}

theorem SameMemory.refl (memory : EbmlSt) : SameMemory memory memory := ⟨_, _, _, _, rfl⟩

theorem Sized.congr {memory' : EbmlSt} (h : Sized memory) (hsame : SameMemory memory memory') :
    Sized memory' := by
  obtain ⟨_, _, _, _, rfl⟩ := hsame
  exact ⟨h.buffer, h.inputBuffer, h.header, h.position_le, h.inputPosition_le, h.headerPosition_le⟩

theorem Sized.end_le (h : Sized memory) : memory.inputPosition ≤ memory.inputBuffer.length :=
  h.inputPosition_le.trans_eq h.inputBuffer.symm

theorem Sized.length_input (h : Sized memory) :
    (view memory consumed clusters).inputBuffer.length = memory.inputPosition :=
  List.length_take_of_le h.end_le

theorem Sized.length_buffer (h : Sized memory) :
    (view memory consumed clusters).buffer.length = memory.position :=
  List.length_take_of_le (h.position_le.trans_eq h.buffer.symm)

theorem Sized.length_header (h : Sized memory) :
    (view memory consumed clusters).header.length = memory.headerPosition :=
  List.length_take_of_le (h.headerPosition_le.trans_eq h.header.symm)

theorem view_copyLen (memory : EbmlSt) (consumed : ℕ) (clusters : List ℕ) :
    (view memory consumed clusters).copyLen = memory.copyLen := rfl

/-- Probing on memory does what probing does on the bytes behind the cursor. -/
def Probes (memory : EbmlSt) (consumed : ℕ) (clusters : List ℕ) (run : Run (Turn × EbmlSt))
    (expected : Turn × EbmlState) : Prop :=
  ∃ turn memory', run = .ok (turn, memory') ∧ SameMemory memory memory' ∧
    expected = (turn, view memory' consumed clusters)

theorem view_ebmlCheckTrack (memory : EbmlSt) (consumed : ℕ) (clusters : List ℕ) :
    view (EbmlMemory.ebmlCheckTrack memory) consumed clusters =
      Ebml.ebmlCheckTrack (view memory consumed clusters) := by
  unfold EbmlMemory.ebmlCheckTrack
  split
  · rename_i hfound
    exact (if_pos hfound).symm
  · rename_i hfound
    exact (if_neg hfound).symm

theorem ebmlCheckTrack_sameMemory {memory' : EbmlSt} (h : SameMemory memory memory') :
    SameMemory memory (EbmlMemory.ebmlCheckTrack memory') := by
  obtain ⟨_, _, _, _, rfl⟩ := h
  unfold EbmlMemory.ebmlCheckTrack
  split
  · exact ⟨_, _, _, _, rfl⟩
  · exact ⟨_, _, _, _, rfl⟩

theorem Sized.probeSimpleBlock (h : Sized memory) (consumed : ℕ) (clusters : List ℕ)
    (cursor tagLength : ℕ) :
    Probes memory consumed clusters (EbmlMemory.probeSimpleBlock memory cursor tagLength)
      (Ebml.probeSimpleBlock (view memory consumed clusters)
        ((view memory consumed clusters).inputBuffer.drop cursor) tagLength) := by
  have hend := h.end_le
  unfold EbmlMemory.probeSimpleBlock Ebml.probeSimpleBlock
  simp only [view, ebmlParseVarInt_eq _ hend, ok_bind, List.drop_drop]
  by_cases hstatus : memory.clusterStartsWithKeyframe = .unknown
  · simp only [if_pos hstatus]
    cases Ebml.ebmlParseVarInt ((memory.inputBuffer.take memory.inputPosition).drop
      (cursor + tagLength)) with
    | wait => exact ⟨_, _, rfl, .refl memory, rfl⟩
    | corrupt => exact ⟨_, _, rfl, .refl memory, rfl⟩
    | done numberLength trackNumber =>
      by_cases htrack : trackNumber = memory.keyframeTrackNumber
      · have hplace : cursor + (tagLength + numberLength + 2) =
            cursor + tagLength + numberLength + 2 := by omega
        simp only [if_pos htrack, List.getElem?_drop, hplace]
        split
        · rename_i hle
          rw [List.getElem?_eq_none (by rw [List.length_take]; omega)]
          exact ⟨_, _, rfl, .refl memory, rfl⟩
        · rename_i hlt
          have hin : cursor + tagLength + numberLength + 2 < memory.inputBuffer.length := by omega
          rw [List.getElem?_take_of_lt (by omega), List.getElem?_eq_getElem hin,
            load_of_getElem? (List.getElem?_eq_getElem hin)]
          exact ⟨_, _, rfl, ⟨_, _, _, _, rfl⟩, rfl⟩
      · simp only [if_neg htrack]
        exact ⟨_, _, rfl, .refl memory, if_neg htrack⟩
  · simp only [if_neg hstatus]
    exact ⟨_, _, rfl, .refl memory, rfl⟩

theorem Sized.probeTrackNumber (h : Sized memory) (consumed : ℕ) (clusters : List ℕ)
    (cursor tagLength payloadLength : ℕ) :
    Probes memory consumed clusters
      (EbmlMemory.probeTrackNumber memory cursor tagLength payloadLength)
      (Ebml.probeTrackNumber (view memory consumed clusters)
        ((view memory consumed clusters).inputBuffer.drop cursor) tagLength payloadLength) := by
  have hend := h.end_le
  unfold EbmlMemory.probeTrackNumber Ebml.probeTrackNumber
  rw [ebmlParseSizedInt_eq _ _ _ hend, ok_bind, List.drop_drop]
  simp only [view]
  cases Ebml.ebmlParseSizedInt ((memory.inputBuffer.take memory.inputPosition).drop
    (cursor + tagLength)) payloadLength false with
  | wait => exact ⟨_, _, rfl, .refl memory, rfl⟩
  | corrupt => exact ⟨_, _, rfl, .refl memory, rfl⟩
  | done length value =>
    refine ⟨_, _, rfl, ebmlCheckTrack_sameMemory ⟨_, _, _, _, rfl⟩, ?_⟩
    rw [view_ebmlCheckTrack]
    rfl

theorem Sized.probeTrackType (h : Sized memory) (consumed : ℕ) (clusters : List ℕ)
    (cursor tagLength payloadLength : ℕ) :
    Probes memory consumed clusters
      (EbmlMemory.probeTrackType memory cursor tagLength payloadLength)
      (Ebml.probeTrackType (view memory consumed clusters)
        ((view memory consumed clusters).inputBuffer.drop cursor) tagLength payloadLength) := by
  have hend := h.end_le
  unfold EbmlMemory.probeTrackType Ebml.probeTrackType
  rw [ebmlParseSizedInt_eq _ _ _ hend, ok_bind, List.drop_drop]
  simp only [view]
  cases Ebml.ebmlParseSizedInt ((memory.inputBuffer.take memory.inputPosition).drop
    (cursor + tagLength)) payloadLength false with
  | wait => exact ⟨_, _, rfl, .refl memory, rfl⟩
  | corrupt => exact ⟨_, _, rfl, .refl memory, rfl⟩
  | done length value =>
    dsimp only
    split
    · refine ⟨_, _, rfl, ebmlCheckTrack_sameMemory ⟨_, _, _, _, rfl⟩, ?_⟩
      rw [view_ebmlCheckTrack]
      rfl
    · exact ⟨_, _, rfl, .refl memory, rfl⟩

theorem Sized.loadInput (h : Sized memory) {n : ℕ} (hlong : cursor + n ≤ memory.inputPosition)
    (consumed : ℕ) (clusters : List ℕ) :
    loadRange .outOfRange memory.inputBuffer cursor n =
      (.ok (((view memory consumed clusters).inputBuffer.drop cursor).take n) : Run Bytes) := by
  have hend := h.end_le
  have hbytes : (memory.inputBuffer.drop cursor).take n =
      ((memory.inputBuffer.take memory.inputPosition).drop cursor).take n := by
    rw [List.drop_take, List.take_take, Nat.min_eq_left (by omega)]
  rw [loadRange_of_le (by omega), hbytes]
  rfl

theorem Sized.compares (h : Sized memory) {magic : Bytes}
    (hlong : cursor + magic.length ≤ memory.inputPosition) (consumed : ℕ) (clusters : List ℕ) :
    EbmlMemory.compares memory cursor magic =
      .ok (((view memory consumed clusters).inputBuffer.drop cursor).take magic.length = magic) := by
  unfold EbmlMemory.compares
  rw [h.loadInput hlong consumed clusters, ok_bind]
  rfl

theorem Sized.probe (h : Sized memory) (hlong : cursor + tagLength ≤ memory.inputPosition)
    (payloadLength consumed : ℕ) (clusters : List ℕ) :
    ∃ turn memory' copied,
      EbmlMemory.probe memory cursor tagLength payloadLength = .ok (turn, memory', copied) ∧
        SameMemory memory memory' ∧ copied ≤ payloadLength ∧
          Ebml.probe (view memory consumed clusters)
            ((view memory consumed clusters).inputBuffer.drop cursor) tagLength payloadLength =
            (turn, view memory' consumed clusters, copied) := by
  unfold EbmlMemory.probe Ebml.probe
  by_cases htag : commonMagicLen < tagLength
  · have hcompares : ∀ magic : Bytes, magic.length = commonMagicLen →
        EbmlMemory.compares memory cursor magic =
          .ok (((view memory consumed clusters).inputBuffer.drop cursor).take commonMagicLen = magic) := by
      intro magic hmagic
      rw [h.compares (by omega) consumed clusters, hmagic]
    simp only [if_pos htag, hcompares Ebml.simpleBlockMagic rfl, hcompares Ebml.trackEntryMagic rfl,
      hcompares Ebml.trackNumberMagic rfl, hcompares Ebml.trackTypeMagic rfl, ok_bind, decide_eq_true_eq]
    generalize ((view memory consumed clusters).inputBuffer.drop cursor).take commonMagicLen = magic
    by_cases hblock : magic = Ebml.simpleBlockMagic
    · obtain ⟨turn, memory', hrun, hsame, hview⟩ := h.probeSimpleBlock consumed clusters cursor tagLength
      simp only [if_pos hblock, hrun, hview]
      exact ⟨turn, memory', payloadLength, rfl, hsame, le_rfl, rfl⟩
    simp only [if_neg hblock]
    by_cases hentry : magic = Ebml.trackEntryMagic
    · simp only [if_pos hentry]
      exact ⟨_, _, _, rfl, ⟨_, _, _, _, rfl⟩, Nat.zero_le _, rfl⟩
    simp only [if_neg hentry]
    by_cases hnumber : magic = Ebml.trackNumberMagic
    · obtain ⟨turn, memory', hrun, hsame, hview⟩ :=
        h.probeTrackNumber consumed clusters cursor tagLength payloadLength
      simp only [if_pos hnumber, hrun, hview]
      exact ⟨turn, memory', payloadLength, rfl, hsame, le_rfl, rfl⟩
    simp only [if_neg hnumber]
    by_cases htype : magic = Ebml.trackTypeMagic
    · obtain ⟨turn, memory', hrun, hsame, hview⟩ :=
        h.probeTrackType consumed clusters cursor tagLength payloadLength
      simp only [if_pos htype, hrun, hview]
      exact ⟨turn, memory', payloadLength, rfl, hsame, le_rfl, rfl⟩
    simp only [if_neg htype]
    exact ⟨_, _, _, rfl, .refl memory, le_rfl, rfl⟩
  · simp only [if_neg htag]
    exact ⟨_, _, _, rfl, .refl memory, le_rfl, rfl⟩

theorem Sized.parsedPayload (h : Sized memory) (hlong : cursor + tagLength ≤ memory.inputPosition)
    (payloadLength consumed : ℕ) (clusters : List ℕ) :
    EbmlMemory.parsedPayload memory cursor tagLength payloadLength =
      .ok (if uncommonMagicLen < tagLength ∧
        (((view memory consumed clusters).inputBuffer.drop cursor).take uncommonMagicLen =
            Ebml.segmentMagic ∨
          ((view memory consumed clusters).inputBuffer.drop cursor).take uncommonMagicLen =
            Ebml.tracksMagic) then 0 else payloadLength) := by
  unfold EbmlMemory.parsedPayload
  by_cases htag : uncommonMagicLen < tagLength
  · have hcompares : ∀ magic : Bytes, magic.length = uncommonMagicLen →
        EbmlMemory.compares memory cursor magic =
          .ok (((view memory consumed clusters).inputBuffer.drop cursor).take uncommonMagicLen = magic) := by
      intro magic hmagic
      rw [h.compares (by omega) consumed clusters, hmagic]
    simp only [hcompares Ebml.segmentMagic rfl, hcompares Ebml.tracksMagic rfl, ok_bind,
      decide_eq_true_eq, htag, true_and, if_true]
    generalize ((view memory consumed clusters).inputBuffer.drop cursor).take uncommonMagicLen = magic
    by_cases hsegment : magic = Ebml.segmentMagic
    · rw [if_pos hsegment, if_pos (Or.inl hsegment)]
      rfl
    · by_cases htracks : magic = Ebml.tracksMagic
      · rw [if_neg hsegment, if_pos htracks, if_pos (Or.inr htracks)]
        rfl
      · rw [if_neg hsegment, if_neg htracks, if_neg (not_or.mpr ⟨hsegment, htracks⟩)]
        rfl
  · rw [if_neg htag, if_neg fun hboth ↦ htag hboth.1]
    rfl

theorem Sized.ebmlParseTag (h : Sized memory) (cursor consumed : ℕ) (clusters : List ℕ) :
    EbmlMemory.ebmlParseTag memory.inputBuffer cursor memory.inputPosition =
      .ok (Ebml.ebmlParseTag ((view memory consumed clusters).inputBuffer.drop cursor)) :=
  ebmlParseTag_eq cursor h.end_le

theorem Sized.isCluster (h : Sized memory) (hlong : cursor + tagLength ≤ memory.inputPosition)
    (consumed : ℕ) (clusters : List ℕ) :
    EbmlMemory.isCluster memory cursor tagLength =
      .ok (uncommonMagicLen < tagLength ∧ ((view memory consumed clusters).inputBuffer.drop
        cursor).take uncommonMagicLen = clusterMagic) := by
  unfold EbmlMemory.isCluster
  by_cases htag : uncommonMagicLen < tagLength
  · have hfits : cursor + clusterMagic.length ≤ memory.inputPosition := by
      have hmagic : clusterMagic.length = uncommonMagicLen := rfl
      omega
    rw [if_pos htag, h.compares hfits consumed clusters]
    simp only [htag, true_and]
    rfl
  · simp only [htag, false_and, if_false]
    rfl

theorem Sized.parseElement (h : Sized memory) (hcursor : cursor ≤ memory.inputPosition)
    (consumed : ℕ) (clusters : List ℕ) :
    ∃ turn memory' clusters', EbmlMemory.parseElement memory cursor = .ok (turn, memory') ∧
      Sized memory' ∧ Ebml.parseElement (view memory consumed clusters) cursor =
        (turn, view memory' consumed clusters') := by
  unfold EbmlMemory.parseElement Ebml.parseElement
  rw [h.ebmlParseTag cursor consumed clusters, ok_bind]
  dsimp only
  cases htag : Ebml.ebmlParseTag ((view memory consumed clusters).inputBuffer.drop cursor) with
  | wait => exact ⟨_, _, _, rfl, h, rfl⟩
  | corrupt => exact ⟨_, _, _, rfl, h, rfl⟩
  | done tagLength payloadLength =>
    have hlong := Ebml.ebmlParseTag_length_le htag
    have hshort := Ebml.ebmlParseTag_le htag
    have hsmall : (if payloadLength = ebmlUnknown then 0 else payloadLength) < 2 ^ 56 := by
      rcases ebmlParseTag_payload htag with hunknown | hsmall
      · rw [if_pos hunknown]
        decide
      · split
        · decide
        · exact hsmall
    rw [List.length_drop, h.length_input] at hlong
    replace hlong : cursor + tagLength ≤ memory.inputPosition := by omega
    simp only [h.isCluster hlong consumed clusters, ok_bind, decide_eq_true_eq]
    generalize (if payloadLength = ebmlUnknown then 0 else payloadLength) = payload at hsmall
    by_cases hcluster : uncommonMagicLen < tagLength ∧ ((view memory consumed clusters).inputBuffer.drop
      cursor).take uncommonMagicLen = clusterMagic
    · simp only [if_pos hcluster]
      exact ⟨_, { memory with parseState := .startCluster }, _, rfl, ⟨h.buffer, h.inputBuffer, h.header,
        h.position_le, h.inputPosition_le, h.headerPosition_le⟩, rfl⟩
    · simp only [if_neg hcluster, h.parsedPayload hlong payload consumed clusters, ok_bind]
      have hparsed : (if uncommonMagicLen < tagLength ∧
          (((view memory consumed clusters).inputBuffer.drop cursor).take uncommonMagicLen =
              Ebml.segmentMagic ∨
            ((view memory consumed clusters).inputBuffer.drop cursor).take uncommonMagicLen =
              Ebml.tracksMagic) then 0 else payload) ≤ payload := by
        split
        · exact Nat.zero_le _
        · exact le_rfl
      generalize (if uncommonMagicLen < tagLength ∧
          (((view memory consumed clusters).inputBuffer.drop cursor).take uncommonMagicLen =
              Ebml.segmentMagic ∨
            ((view memory consumed clusters).inputBuffer.drop cursor).take uncommonMagicLen =
              Ebml.tracksMagic) then 0 else payload) = parsed at hparsed ⊢
      obtain ⟨turn, probed, copied, hrun, hsame, hcopied, hview⟩ :=
        h.probe hlong parsed consumed clusters
      have hsized := h.congr hsame
      have hwrap : uadd 64 tagLength copied = tagLength + copied := by
        unfold uadd
        apply Nat.mod_eq_of_lt
        omega
      rw [hrun, hview, ok_bind]
      cases turn with
      | proceed =>
        refine ⟨_, _, clusters, rfl, ⟨hsized.buffer, hsized.inputBuffer, hsized.header,
          hsized.position_le, hsized.inputPosition_le, hsized.headerPosition_le⟩, ?_⟩
        simp only [view, hwrap]
      | wait => exact ⟨_, _, _, rfl, hsized, rfl⟩
      | fail => exact ⟨_, _, _, rfl, hsized, rfl⟩

theorem Sized.startCluster (h : Sized memory) (cursor consumed : ℕ) (clusters : List ℕ) :
    ∃ turn memory', EbmlMemory.startCluster memory cursor = .ok (turn, memory') ∧ Sized memory' ∧
      Ebml.startCluster (view memory consumed clusters) cursor =
        (turn, view memory' consumed clusters) := by
  unfold EbmlMemory.startCluster Ebml.startCluster
  rw [h.ebmlParseTag cursor consumed clusters, ok_bind, h.length_buffer, h.length_header]
  by_cases hstart : 0 ≤ memory.clusterStart
  · rw [if_pos hstart]
    refine ⟨_, _, rfl, ⟨h.buffer, h.inputBuffer, h.header, h.position_le, h.inputPosition_le,
      h.headerPosition_le⟩, ?_⟩
    exact if_pos hstart
  · rw [if_neg hstart]
    refine ⟨_, _, rfl, ⟨h.buffer, h.inputBuffer, h.header, h.position_le, h.inputPosition_le,
      h.headerPosition_le⟩, ?_⟩
    exact if_neg hstart

theorem Sized.finishCopy (h : Sized memory) {toCopy : ℕ} (hle : toCopy ≤ memory.copyLen)
    (resume : ParsingState) (cursor consumed : ℕ) (clusters : List ℕ) :
    ∃ turn memory', EbmlMemory.finishCopy memory toCopy resume cursor =
        .ok (turn, memory', cursor + toCopy) ∧ Sized memory' ∧
      Ebml.finishCopy (view memory consumed clusters) toCopy resume cursor =
        (turn, view memory' consumed clusters, cursor + toCopy) := by
  unfold EbmlMemory.finishCopy Ebml.finishCopy
  rw [sub_of_le hle, ok_bind]
  by_cases hdone : memory.copyLen - toCopy = 0
  · rw [if_pos hdone]
    refine ⟨_, _, rfl, ⟨h.buffer, h.inputBuffer, h.header, h.position_le, h.inputPosition_le,
      h.headerPosition_le⟩, ?_⟩
    exact if_pos hdone
  · rw [if_neg hdone]
    refine ⟨_, _, rfl, ⟨h.buffer, h.inputBuffer, h.header, h.position_le, h.inputPosition_le,
      h.headerPosition_le⟩, ?_⟩
    exact if_neg hdone

/-- The bytes at the cursor, of which there are so many. -/
theorem Sized.length_data (h : Sized memory) {n : ℕ} (hlong : cursor + n ≤ memory.inputPosition)
    (consumed : ℕ) (clusters : List ℕ) :
    (((view memory consumed clusters).inputBuffer.drop cursor).take n).length = n := by
  rw [List.length_take, List.length_drop, h.length_input]
  omega

theorem Sized.copyToHeader (h : Sized memory) (hcursor : cursor ≤ memory.inputPosition)
    (consumed : ℕ) (clusters : List ℕ) :
    ∃ turn memory' cursor', EbmlMemory.copyToHeader memory cursor = .ok (turn, memory', cursor') ∧
      Sized memory' ∧ Ebml.copyToHeader (view memory consumed clusters) cursor =
        (turn, view memory' consumed clusters, cursor') := by
  have hcapacity := h.header
  unfold EbmlMemory.copyToHeader Ebml.copyToHeader
  rw [sub_of_le hcursor, ok_bind, h.length_input, h.length_header, view_copyLen]
  dsimp only
  have hlong : cursor + min (memory.inputPosition - cursor) memory.copyLen ≤ memory.inputPosition := by
    omega
  have hle : min (memory.inputPosition - cursor) memory.copyLen ≤ memory.copyLen := min_le_right _ _
  generalize min (memory.inputPosition - cursor) memory.copyLen = toCopy at hlong hle ⊢
  by_cases hlarge : ebmlHeaderMaxSize < memory.headerPosition + toCopy
  · rw [if_pos hlarge, if_pos hlarge]
    exact ⟨_, _, _, rfl, h, rfl⟩
  · have hdata := h.length_data hlong consumed clusters
    rw [if_neg hlarge, if_neg hlarge, h.loadInput hlong consumed clusters, ok_bind]
    generalize ((view memory consumed clusters).inputBuffer.drop cursor).take toCopy = data at hdata ⊢
    subst hdata
    have hfits : memory.headerPosition + data.length ≤ memory.header.length := by omega
    rw [storeRange_of_le hfits, ok_bind]
    have hsized : Sized { memory with
        header := memory.header.take memory.headerPosition ++ data ++
          memory.header.drop (memory.headerPosition + data.length)
        headerPosition := memory.headerPosition + data.length } :=
      ⟨h.buffer, h.inputBuffer, (length_storeRange hfits).trans h.header, h.position_le,
        h.inputPosition_le, by simp only; omega⟩
    obtain ⟨turn, memory', hrun, hsized', hview⟩ :=
      hsized.finishCopy hle .parsingHeader cursor consumed clusters
    refine ⟨turn, memory', _, hrun, hsized', ?_⟩
    rw [← hview]
    simp only [view, take_storeRange hfits]

theorem Sized.clampToBuffer (h : Sized memory) (toCopy : ℕ) :
    EbmlMemory.clampToBuffer memory toCopy = .ok (min toCopy (ebmlSliceSize - memory.position)) := by
  have hposition := h.position_le
  unfold EbmlMemory.clampToBuffer
  split
  · rw [sub_of_le hposition, Nat.min_eq_right (by omega)]
  · rw [Nat.min_eq_left (by omega)]
    rfl

theorem Sized.copyToData (h : Sized memory) (hcursor : cursor ≤ memory.inputPosition)
    (consumed : ℕ) (clusters : List ℕ) :
    ∃ turn memory' cursor', EbmlMemory.copyToData memory cursor = .ok (turn, memory', cursor') ∧
      Sized memory' ∧ Ebml.copyToData (view memory consumed clusters) cursor =
        (turn, view memory' consumed clusters, cursor') := by
  have hcapacity := h.buffer
  have hposition := h.position_le
  have hcopied : toCopy (view memory consumed clusters) cursor =
      min (min (memory.inputPosition - cursor) memory.copyLen) (ebmlSliceSize - memory.position) := by
    rw [toCopy, h.length_input, h.length_buffer, view_copyLen]
  unfold EbmlMemory.copyToData
  rw [Ebml.copyToData_eq, sub_of_le hcursor, ok_bind, h.clampToBuffer, ok_bind, ← hcopied]
  have hlong : cursor + toCopy (view memory consumed clusters) cursor ≤ memory.inputPosition := by omega
  have hle : toCopy (view memory consumed clusters) cursor ≤ memory.copyLen := by omega
  have hroom : memory.position + toCopy (view memory consumed clusters) cursor ≤ ebmlSliceSize := by omega
  have hdata := h.length_data hlong consumed clusters
  rw [h.loadInput hlong consumed clusters, ok_bind]
  clear hcopied
  generalize toCopy (view memory consumed clusters) cursor = toCopy at hlong hle hroom hdata ⊢
  generalize ((view memory consumed clusters).inputBuffer.drop cursor).take toCopy = data at hdata ⊢
  subst hdata
  have hfits : memory.position + data.length ≤ memory.buffer.length := by omega
  rw [storeRange_of_le hfits, ok_bind]
  have hsized : Sized { memory with
      buffer := memory.buffer.take memory.position ++ data ++
        memory.buffer.drop (memory.position + data.length)
      position := memory.position + data.length } :=
    ⟨(length_storeRange hfits).trans h.buffer, h.inputBuffer, h.header, hroom, h.inputPosition_le,
      h.headerPosition_le⟩
  obtain ⟨turn, memory', hrun, hsized', hview⟩ :=
    hsized.finishCopy hle .parsingClusters cursor consumed clusters
  refine ⟨turn, memory', _, hrun, hsized', ?_⟩
  rw [← hview]
  simp only [view, take_storeRange hfits]

/-- A turn has no fault, and does on memory what it does to the bytes that the buffers hold. -/
theorem Sized.turn (h : Sized memory) (hcursor : cursor ≤ memory.inputPosition)
    (consumed : ℕ) (clusters : List ℕ) :
    ∃ turn memory' cursor' clusters', EbmlMemory.turn memory cursor = .ok (turn, memory', cursor') ∧
      Sized memory' ∧ Ebml.turn (view memory consumed clusters) cursor =
        (turn, view memory' consumed clusters', cursor') := by
  have hparse : ∃ turn memory' cursor' clusters',
      (EbmlMemory.parseElement memory cursor >>= fun result ↦ pure (result.1, result.2, cursor)) =
        .ok (turn, memory', cursor') ∧ Sized memory' ∧
      ((Ebml.parseElement (view memory consumed clusters) cursor).1,
        (Ebml.parseElement (view memory consumed clusters) cursor).2, cursor) =
          (turn, view memory' consumed clusters', cursor') := by
    obtain ⟨turn, memory', clusters', hrun, hsized, hview⟩ := h.parseElement hcursor consumed clusters
    rw [hrun, hview]
    exact ⟨turn, memory', cursor, clusters', rfl, hsized, rfl⟩
  have hstate : (view memory consumed clusters).parseState = memory.parseState := rfl
  unfold EbmlMemory.turn Ebml.turn
  rw [hstate]
  cases memory.parseState with
  | parsingHeader => exact hparse
  | parsingClusters => exact hparse
  | startCluster =>
    obtain ⟨turn, memory', hrun, hsized, hview⟩ := h.startCluster cursor consumed clusters
    simp only [hrun, hview]
    exact ⟨turn, memory', cursor, clusters, rfl, hsized, rfl⟩
  | copyingToHeader =>
    obtain ⟨turn, memory', cursor', hrun, hsized, hview⟩ := h.copyToHeader hcursor consumed clusters
    exact ⟨turn, memory', cursor', clusters, hrun, hsized, hview⟩
  | copyingToData =>
    obtain ⟨turn, memory', cursor', hrun, hsized, hview⟩ := h.copyToData hcursor consumed clusters
    exact ⟨turn, memory', cursor', clusters, hrun, hsized, hview⟩

/-! ## Calls on memory -/

theorem Sized.receive (h : Sized memory) (data : Bytes) (consumed : ℕ) (clusters : List ℕ) :
    ∃ machine, EbmlMemory.step ⟨memory, none⟩ (.wrote data) = .ok machine ∧ machine.call = some 0 ∧
      Sized machine.ebml ∧ view machine.ebml consumed clusters = { view memory consumed clusters with
        inputBuffer := (view memory consumed clusters).inputBuffer ++
          data.take (ebmlSliceSize - memory.inputPosition) } := by
  have hposition := h.inputPosition_le
  have hcapacity := h.inputBuffer
  have hfits : memory.inputPosition + (data.take (ebmlSliceSize - memory.inputPosition)).length ≤
      memory.inputBuffer.length := by
    rw [List.length_take]
    omega
  unfold EbmlMemory.step
  simp only [sub_of_le hposition, ok_bind, storeRange_of_le hfits]
  refine ⟨_, rfl, rfl, ⟨h.buffer, (length_storeRange hfits).trans h.inputBuffer, h.header,
    h.position_le, by simp only; omega, h.headerPosition_le⟩, ?_⟩
  simp only [view, take_storeRange hfits]

theorem Sized.shiftInput (h : Sized memory) (hcursor : cursor ≤ memory.inputPosition)
    (consumed : ℕ) (clusters : List ℕ) :
    ∃ memory', EbmlMemory.shiftInput memory cursor = .ok memory' ∧ Sized memory' ∧
      view memory' consumed clusters = { view memory consumed clusters with
        inputBuffer := (view memory consumed clusters).inputBuffer.drop cursor } := by
  have hend := h.end_le
  have hcapacity := h.inputBuffer
  have hlong : cursor + (memory.inputPosition - cursor) ≤ memory.inputPosition := by omega
  have hall : ((view memory consumed clusters).inputBuffer.drop cursor).take
      (memory.inputPosition - cursor) = (view memory consumed clusters).inputBuffer.drop cursor := by
    apply List.take_of_length_le
    rw [List.length_drop, h.length_input]
  have hdata := h.length_data hlong consumed clusters
  unfold EbmlMemory.shiftInput
  rw [sub_of_le hcursor, ok_bind, h.loadInput hlong consumed clusters, ok_bind, hall]
  rw [hall] at hdata
  generalize (view memory consumed clusters).inputBuffer.drop cursor = data at hdata ⊢
  rw [storeRange_zero (by omega), ok_bind]
  refine ⟨_, rfl, ⟨h.buffer, ?_, h.header, h.position_le, ?_, h.headerPosition_le⟩, ?_⟩
  · simp only [List.length_append, List.length_drop]
    omega
  · exact (Nat.sub_le _ _).trans h.inputPosition_le
  · simp only [view, List.take_left' hdata]

/-- What asking for the size of the next chunk changes. -/
theorem ebmlReadSpace_memory (memory : EbmlSt) :
    (EbmlMemory.ebmlReadSpace memory).2 =
      if memory.outputState = .readingClusters ∧ ¬ 0 < memory.clusterStart ∧
        memory.position = ebmlSliceSize then { memory with flushCluster := true } else memory := by
  unfold EbmlMemory.ebmlReadSpace
  cases houtput : memory.outputState with
  | readingHeader => simp
  | readingClusters =>
    simp only [true_and]
    split_ifs <;> first | rfl | simp_all

theorem ebmlReadSpace_bytes (ebml : EbmlState) :
    (Ebml.ebmlReadSpace ebml).2 =
      if ebml.outputState = .readingClusters ∧ ¬ 0 < ebml.clusterStart ∧
        ebml.buffer.length = ebmlSliceSize then { ebml with flushCluster := true } else ebml := by
  unfold Ebml.ebmlReadSpace
  cases houtput : ebml.outputState with
  | readingHeader => simp
  | readingClusters =>
    simp only [true_and]
    split_ifs <;> first | rfl | simp_all

theorem Sized.ebmlReadSpace (h : Sized memory) (consumed : ℕ) (clusters : List ℕ) :
    Sized (EbmlMemory.ebmlReadSpace memory).2 ∧
      view (EbmlMemory.ebmlReadSpace memory).2 consumed clusters =
        (Ebml.ebmlReadSpace (view memory consumed clusters)).2 := by
  rw [ebmlReadSpace_memory, ebmlReadSpace_bytes, h.length_buffer]
  split
  · rename_i hfull
    exact ⟨⟨h.buffer, h.inputBuffer, h.header, h.position_le, h.inputPosition_le, h.headerPosition_le⟩,
      (if_pos hfull).symm⟩
  · rename_i hfull
    exact ⟨h, (if_neg hfull).symm⟩


theorem Sized.ebmlReadHeader (h : Sized memory) (hbounded : Bounded (view memory consumed clusters) cursor)
    (len : ℕ) :
    ∃ data chunkType memory', EbmlMemory.ebmlReadHeader memory len = .ok (data, chunkType, memory') ∧
      data.length ≤ len ∧ Sized memory' ∧ view memory' consumed clusters =
        (Ebml.ebmlReadHeader (view memory consumed clusters) len).2.2 := by
  have hread : memory.headerReadPosition ≤ memory.headerSize := hbounded.headerRead_le
  have hsize : memory.headerSize ≤ memory.header.length := by
    have hle := hbounded.headerSize_le
    rw [h.length_header] at hle
    exact hle.trans (h.headerPosition_le.trans_eq h.header.symm)
  unfold EbmlMemory.ebmlReadHeader Ebml.ebmlReadHeader
  by_cases hready : memory.headerSize ≠ 0
  · have hfits : 0 + min len (memory.headerSize - memory.headerReadPosition) ≤ memory.header.length := by
      omega
    simp only [if_pos hready, sub_of_le hread, ok_bind, loadRange_of_le hfits]
    refine ⟨_, _, _, rfl, (List.length_take_le _ _).trans (min_le_left _ _), ⟨h.buffer, h.inputBuffer,
      h.header, h.position_le, h.inputPosition_le, h.headerPosition_le⟩, ?_⟩
    rw [if_pos (show (view memory consumed clusters).headerSize ≠ 0 from hready)]
    rfl
  · rw [if_neg hready, if_neg (show ¬ (view memory consumed clusters).headerSize ≠ 0 from hready)]
    exact ⟨_, _, _, rfl, Nat.zero_le _, h, rfl⟩

theorem Sized.shiftBuffer (h : Sized memory) {toRead : ℕ} (hle : toRead ≤ memory.position)
    (consumed : ℕ) (clusters : List ℕ) :
    ∃ buffer, EbmlMemory.shiftBuffer memory toRead =
        .ok { memory with buffer := buffer, position := memory.position - toRead } ∧
      buffer.length = ebmlSliceSize ∧ buffer.take (memory.position - toRead) =
        (view memory consumed clusters).buffer.drop toRead := by
  have hcapacity := h.buffer
  have hposition := h.position_le
  have hdata : ((memory.buffer.drop toRead).take (memory.position - toRead)).length =
      memory.position - toRead := by
    rw [List.length_take, List.length_drop]
    omega
  unfold EbmlMemory.shiftBuffer
  rw [sub_of_le hle, ok_bind, loadRange_of_le (by omega), ok_bind, storeRange_zero (by omega)]
  refine ⟨_, rfl, ?_, ?_⟩
  · rw [List.length_append, List.length_drop]
    omega
  · rw [List.take_left' hdata]
    exact List.drop_take.symm

theorem Sized.ebmlReadCluster (h : Sized memory)
    (hbounded : Bounded (view memory consumed clusters) cursor) (len : ℕ) :
    ∃ data chunkType memory', EbmlMemory.ebmlReadCluster memory len = .ok (data, chunkType, memory') ∧
      data.length ≤ len ∧ Sized memory' ∧ view memory' consumed clusters =
        (Ebml.ebmlReadCluster (view memory consumed clusters) len).2.2 := by
  have hstart : memory.clusterStart = -1 ∨
      0 ≤ memory.clusterStart ∧ memory.clusterStart ≤ memory.position := by
    have hplace := hbounded.clusterStart
    rw [h.length_buffer] at hplace
    exact hplace
  have hstart' : (view memory consumed clusters).clusterStart = memory.clusterStart := rfl
  have hcapacity := h.buffer
  have hposition := h.position_le
  unfold EbmlMemory.ebmlReadCluster Ebml.ebmlReadCluster
  simp only [hstart', h.length_buffer]
  have hread : (if 0 < memory.clusterStart then memory.clusterStart.toNat else memory.position) ≤
      memory.position := by
    split
    · omega
    · exact le_rfl
  generalize (if 0 < memory.clusterStart then memory.clusterStart.toNat else memory.position) =
    readSpace at hread ⊢
  have hforgotten : ∃ forgotten : EbmlSt,
      (if memory.clusterStart = 0 then { memory with clusterStart := -1 } else memory) = forgotten ∧
        Sized forgotten ∧ forgotten.position = memory.position ∧
          (if memory.clusterStart = 0 then { view memory consumed clusters with clusterStart := -1 }
            else view memory consumed clusters) = view forgotten consumed clusters := by
    split
    · exact ⟨_, rfl, ⟨h.buffer, h.inputBuffer, h.header, h.position_le, h.inputPosition_le,
        h.headerPosition_le⟩, rfl, rfl⟩
    · exact ⟨_, rfl, h, rfl, rfl⟩
  obtain ⟨forgotten, heq, hsized, hsame, hview⟩ := hforgotten
  rw [heq, hview]
  split
  · exact ⟨_, _, _, rfl, Nat.zero_le _, hsized, rfl⟩
  · have hle : min len readSpace ≤ forgotten.position := by omega
    have hfits : 0 + min len readSpace ≤ forgotten.buffer.length := by
      have := hsized.buffer
      omega
    obtain ⟨buffer, hrun, hlength, htake⟩ := hsized.shiftBuffer hle consumed clusters
    rw [loadRange_of_le hfits, ok_bind, hrun, ok_bind]
    refine ⟨_, _, _, rfl, (List.length_take_le _ _).trans (min_le_left _ _), ⟨hlength, hsized.inputBuffer,
      hsized.header, ?_, hsized.inputPosition_le, hsized.headerPosition_le⟩, ?_⟩
    · exact (Nat.sub_le _ _).trans hsized.position_le
    · simp only [view] at htake ⊢
      rw [htake]
      rfl

theorem Sized.ebmlRead (h : Sized memory) (hbounded : Bounded (view memory consumed clusters) cursor)
    (len : ℕ) :
    ∃ data chunkType memory', EbmlMemory.ebmlRead memory len = .ok (data, chunkType, memory') ∧
      data.length ≤ len ∧ Sized memory' ∧ view memory' consumed clusters =
        (Ebml.ebmlRead (view memory consumed clusters) len).2.2 := by
  have houtput : (view memory consumed clusters).outputState = memory.outputState := rfl
  unfold EbmlMemory.ebmlRead Ebml.ebmlRead
  rw [houtput]
  split
  · exact ⟨_, _, _, rfl, Nat.zero_le _, h, rfl⟩
  · cases memory.outputState with
    | readingHeader => exact h.ebmlReadHeader hbounded len
    | readingClusters => exact h.ebmlReadCluster hbounded len


end Turns

/-! ## Sequences of calls -/

/-- The bounds of the parser, and of the cursor while a call of `ebml_wrote` is going on. -/
structure InBounds (machine : Machine) : Prop where
  inputPosition_le : machine.ebml.inputPosition ≤ ebmlSliceSize
  position_le : machine.ebml.position ≤ ebmlSliceSize
  headerPosition_le : machine.ebml.headerPosition ≤ ebmlHeaderMaxSize
  clusterStart : machine.ebml.clusterStart = -1 ∨
    0 ≤ machine.ebml.clusterStart ∧ machine.ebml.clusterStart ≤ machine.ebml.position
  cursor_le : ∀ cursor, machine.call = some cursor → cursor ≤ machine.ebml.inputPosition

/-- What holds between any two steps. -/
structure Safe (machine : Machine) : Prop where
  sized : Sized machine.ebml
  bounded : ∃ consumed clusters, Bounded (view machine.ebml consumed clusters) (machine.call.getD 0)

/-- The work that is left in a call of `ebml_wrote`. -/
def callWork (machine : Machine) : ℕ :=
  match machine.call with
  | none => 0
  | some cursor => work (view machine.ebml 0 []) cursor + 1

section Calls

variable {machine : Machine}

theorem safe_start : Safe EbmlMemory.start where
  sized := ⟨List.length_replicate, List.length_replicate, List.length_replicate, Nat.zero_le _,
    Nat.zero_le _, Nat.zero_le _⟩
  bounded := ⟨0, [], bounded_create⟩

theorem Safe.inBounds (safe : Safe machine) : InBounds machine := by
  obtain ⟨consumed, clusters, hbounded⟩ := safe.bounded
  have hstart := hbounded.clusterStart
  have hcursor := hbounded.cursor_le
  rw [safe.sized.length_buffer] at hstart
  rw [safe.sized.length_input] at hcursor
  refine ⟨safe.sized.inputPosition_le, safe.sized.position_le, safe.sized.headerPosition_le, hstart, ?_⟩
  intro cursor hcall
  rw [hcall] at hcursor
  exact hcursor

/-- A turn of the loop has no fault, and leaves less work for the call. -/
theorem Safe.turn (safe : Safe machine) :
    ∃ after, EbmlMemory.step machine .turn = .ok after ∧ Safe after ∧
      (machine.call ≠ none → callWork after < callWork machine) := by
  obtain ⟨memory, call⟩ := machine
  cases call with
  | none => exact ⟨_, rfl, safe, fun h ↦ absurd rfl h⟩
  | some cursor =>
    obtain ⟨hsized, consumed, clusters, hbounded⟩ := safe
    simp only [Option.getD_some] at hsized hbounded
    have hcursor := hbounded.cursor_le
    rw [hsized.length_input] at hcursor
    obtain ⟨turn, memory', cursor', clusters', hrun, hsized, hview⟩ :=
      hsized.turn hcursor consumed clusters
    have hturn := hbounded.turn
    rw [hview] at hturn
    unfold EbmlMemory.step
    simp only [hrun, ok_bind]
    cases turn with
    | proceed =>
      exact ⟨_, rfl, ⟨hsized, consumed, clusters', hturn.bounded⟩,
        fun _ ↦ Nat.succ_lt_succ (hturn.work_lt rfl)⟩
    | wait =>
      have hcursor' := hturn.bounded.cursor_le
      simp only [reduceCtorEq, if_false] at hcursor'
      rw [hsized.length_input] at hcursor'
      obtain ⟨shifted, hshift, hsized', hview'⟩ := hsized.shiftInput hcursor' consumed clusters'
      simp only [hshift, ok_bind]
      refine ⟨_, rfl, ⟨hsized', consumed, clusters', ?_⟩, fun _ ↦ Nat.succ_pos _⟩
      rw [hview']
      exact hturn.bounded.shift consumed
    | fail =>
      exact ⟨_, rfl, ⟨hsized, consumed, clusters', hturn.bounded⟩, fun _ ↦ Nat.succ_pos _⟩

theorem Safe.step (safe : Safe machine) (event : EbmlMemory.Event) :
    ∃ after, EbmlMemory.step machine event = .ok after ∧ Safe after := by
  cases event with
  | turn =>
    obtain ⟨after, hrun, hafter, -⟩ := safe.turn
    exact ⟨after, hrun, hafter⟩
  | wrote data =>
    obtain ⟨memory, call⟩ := machine
    cases call with
    | some cursor => exact ⟨_, rfl, safe⟩
    | none =>
      obtain ⟨consumed, clusters, hbounded⟩ := safe.bounded
      obtain ⟨after, hrun, hcall, hsized, hview⟩ := safe.sized.receive data consumed clusters
      refine ⟨after, hrun, hsized, consumed, clusters, ?_⟩
      rw [hcall, hview]
      apply hbounded.receive
      have hposition := safe.sized.inputPosition_le
      rw [safe.sized.length_input, List.length_take]
      simp only at hposition ⊢
      omega
  | readSpace =>
    obtain ⟨memory, call⟩ := machine
    cases call with
    | some cursor => exact ⟨_, rfl, safe⟩
    | none =>
      obtain ⟨consumed, clusters, hbounded⟩ := safe.bounded
      obtain ⟨hsized, hview⟩ := safe.sized.ebmlReadSpace consumed clusters
      refine ⟨_, rfl, hsized, consumed, clusters, ?_⟩
      rw [hview]
      exact hbounded.ebmlReadSpace
  | read len =>
    obtain ⟨memory, call⟩ := machine
    cases call with
    | some cursor => exact ⟨_, rfl, safe⟩
    | none =>
      obtain ⟨consumed, clusters, hbounded⟩ := safe.bounded
      obtain ⟨data, chunkType, memory', hrun, hlength, hsized, hview⟩ :=
        safe.sized.ebmlRead hbounded len
      have hfits : data.length ≤ (List.replicate len (0 : UInt8)).length := by
        rw [List.length_replicate]
        exact hlength
      unfold EbmlMemory.step
      simp only [hrun, ok_bind, storeRange_zero hfits]
      refine ⟨_, rfl, hsized, consumed, clusters, ?_⟩
      rw [hview]
      exact hbounded.ebmlRead len

/-- Enough turns bring a call of `ebml_wrote` to its end. -/
theorem Safe.ends (safe : Safe machine) {n : ℕ} (hwork : callWork machine ≤ n) :
    ∃ ended, (List.replicate n EbmlMemory.Event.turn).foldlM EbmlMemory.step machine = .ok ended ∧
      ended.call = none := by
  induction n generalizing machine with
  | zero =>
    refine ⟨machine, rfl, ?_⟩
    unfold callWork at hwork
    split at hwork
    · assumption
    · omega
  | succ n ih =>
    obtain ⟨after, hrun, hafter, hless⟩ := safe.turn
    rw [List.replicate_succ, List.foldlM_cons, hrun, ok_bind]
    apply ih hafter
    by_cases hcall : machine.call = none
    · have hsame : after = machine := by
        simp only [EbmlMemory.step, hcall] at hrun
        exact (Except.ok.inj hrun).symm
      rw [hsame, callWork, hcall]
      exact Nat.zero_le _
    · have := hless hcall
      omega

end Calls

/-- Whatever bytes are written in whatever portions, and whenever they are read, the parser stays within its
memory, without a fault, and a call of `ebml_wrote` that is going on comes to its end. -/
theorem run_inBounds (events : List EbmlMemory.Event) :
    ∃ machine, events.foldlM EbmlMemory.step EbmlMemory.start = .ok machine ∧ InBounds machine ∧
      ∃ n ended, (List.replicate n EbmlMemory.Event.turn).foldlM EbmlMemory.step machine = .ok ended ∧
        ended.call = none := by
  obtain ⟨machine, hrun, safe⟩ :=
    foldlM_invariant (fun _ event (safe : Safe _) ↦ safe.step event) events safe_start
  obtain ⟨ended, hturns, hcall⟩ := safe.ends le_rfl
  exact ⟨machine, hrun, safe.inBounds, callWork machine, ended, hturns, hcall⟩

end Icecast.Format.EbmlBounds
