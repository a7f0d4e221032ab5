import Mathlib.Data.List.Infix
import Mathlib.Data.Nat.Notation

/-!
# Cutting a stream into frames

A frame is the shortest beginning of a stream that has a given property. It is the same however much
of the stream is known, as long as the frame is: so the frames of a stream and the places where they
begin depend on nothing else.
-/

namespace Icecast.Lib.Framing

variable {α : Type*} (complete : List α → Bool)

/-- The length of the shortest beginning with the property. -/
def frameEnd (text : List α) : Option ℕ :=
  (List.range (text.length + 1)).find? fun length ↦ complete (text.take length)

/-- The place where the frame with this number begins. -/
def boundary (stream : List α) : ℕ → Option ℕ
  | 0 => some 0
  | number + 1 =>
    (boundary stream number).bind fun place ↦
      (frameEnd complete (stream.drop place)).map (place + ·)

/-- The frame with this number. -/
def frame (stream : List α) (number : ℕ) : Option (List α) :=
  (boundary complete stream number).bind fun place ↦
    (frameEnd complete (stream.drop place)).map (stream.drop place).take

variable {complete} {text more stream : List α} {length place number : ℕ}

theorem frameEnd_eq_some_iff :
    frameEnd complete text = some length ↔
      length ≤ text.length ∧ complete (text.take length) = true ∧
        ∀ shorter < length, complete (text.take shorter) = false := by
  simp only [frameEnd, List.find?_range_eq_some, List.mem_range, Nat.lt_succ_iff,
    Bool.not_eq_true']
  constructor
  · rintro ⟨hcomplete, hle, hshorter⟩
    exact ⟨hle, hcomplete, hshorter⟩
  · rintro ⟨hle, hcomplete, hshorter⟩
    exact ⟨hcomplete, hle, hshorter⟩

theorem frameEnd_eq_none_iff :
    frameEnd complete text = none ↔
      ∀ length ≤ text.length, complete (text.take length) = false := by
  simp only [frameEnd, List.find?_range_eq_none, Nat.lt_succ_iff, Bool.not_eq_true']

/-- A frame that is there stays the same when more of the stream is known. -/
theorem frameEnd_append (h : frameEnd complete text = some length) (more : List α) :
    frameEnd complete (text ++ more) = some length := by
  obtain ⟨hle, hcomplete, hshorter⟩ := frameEnd_eq_some_iff.mp h
  refine frameEnd_eq_some_iff.mpr ⟨?_, ?_, fun shorter hlt ↦ ?_⟩
  · rw [List.length_append]
    exact Nat.le_add_right_of_le hle
  · rwa [List.take_append_of_le_length hle]
  · rw [List.take_append_of_le_length (hlt.le.trans hle)]
    exact hshorter shorter hlt

/-- Any beginning with the property is at least as long as the frame. -/
theorem exists_frameEnd_le (hle : length ≤ text.length)
    (hcomplete : complete (text.take length) = true) :
    ∃ first ≤ length, frameEnd complete text = some first := by
  cases hframe : frameEnd complete text with
  | none =>
    rw [frameEnd_eq_none_iff.mp hframe length hle] at hcomplete
    cases hcomplete
  | some first =>
    refine ⟨first, ?_, rfl⟩
    by_contra hlonger
    have hnot := (frameEnd_eq_some_iff.mp hframe).2.2 length (Nat.lt_of_not_le hlonger)
    rw [hnot] at hcomplete
    cases hcomplete

theorem boundary_succ (hplace : boundary complete stream number = some place)
    (hframe : frameEnd complete (stream.drop place) = some length) :
    boundary complete stream (number + 1) = some (place + length) := by
  simp [boundary, hplace, hframe]

theorem frame_eq (hplace : boundary complete stream number = some place)
    (hframe : frameEnd complete (stream.drop place) = some length) :
    frame complete stream number = some ((stream.drop place).take length) := by
  simp [frame, hplace, hframe]

end Icecast.Lib.Framing
