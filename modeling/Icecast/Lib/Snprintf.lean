import Icecast.Lib.MachineInt

/-!
# Formatted output into a buffer

`snprintf` returns the length of the whole text, also when the buffer was too small for it. Code that
fills a buffer piece by piece adds these lengths up; as soon as a piece has been cut off, the place
for the next one is behind the end of the buffer, and the room that is left is a negative number, which
an unsigned type takes for a very large one.

An output records all calls: where each of them writes, the size it is given and its text. Texts are
far shorter than the largest `int`.
-/

namespace Icecast.Lib.Snprintf

open MachineInt

variable {α : Type*}

/-- One call; the text is the whole one. -/
structure Call (α : Type*) where
  offset : ℕ
  size : ℕ
  text : List α
  deriving DecidableEq

/-- The number of bytes that are stored, with the zero byte at the end. -/
def Call.stored (call : Call α) : ℕ :=
  if call.size = 0 then 0 else min call.text.length (call.size - 1) + 1

theorem Call.stored_le (call : Call α) : call.stored ≤ call.size := by
  unfold stored
  split
  · omega
  · omega

/-- The calls so far, and the place behind the texts that they were given. -/
structure Output (α : Type*) where
  calls : List (Call α)
  offset : ℕ
  deriving DecidableEq

namespace Output

def start : Output α := ⟨[], 0⟩

def snprintf (output : Output α) (size : ℕ) (text : List α) : Output α :=
  ⟨output.calls ++ [⟨output.offset, size, text⟩], output.offset + text.length⟩

/-- A piece for which the room is computed from the offset. -/
def append (capacity : ℕ) (output : Output α) (text : List α) : Output α :=
  output.snprintf (usub 64 capacity output.offset) text

/-- Every call is at a place of the buffer, is given the room there, and stays within it. -/
structure Safe (capacity : ℕ) (output : Output α) : Prop where
  calls : ∀ call ∈ output.calls, call.offset ≤ capacity ∧ call.size = capacity - call.offset ∧
    call.offset + call.stored ≤ capacity
  offset : output.offset ≤ capacity

theorem safe_start (capacity : ℕ) : (start : Output α).Safe capacity := by
  exact ⟨by simp [start], Nat.zero_le capacity⟩

theorem safe_append_iff {capacity : ℕ} (hcapacity : capacity < 2 ^ 64) (output : Output α)
    (text : List α) :
    (output.append capacity text).Safe capacity ↔
      output.Safe capacity ∧ output.offset + text.length ≤ capacity := by
  constructor
  · intro hsafe
    have hoffset : output.offset + text.length ≤ capacity := hsafe.offset
    refine ⟨⟨?_, by omega⟩, hoffset⟩
    intro call hcall
    exact hsafe.calls call (List.mem_append_left _ hcall)
  · rintro ⟨hsafe, hoffset⟩
    refine ⟨?_, hoffset⟩
    intro call hcall
    rcases List.mem_append.mp hcall with hold | hnew
    · exact hsafe.calls call hold
    · have hsize : usub 64 capacity output.offset = capacity - output.offset :=
        usub_of_le hsafe.offset hcapacity
      rw [List.mem_singleton.mp hnew]
      have hstored := Call.stored_le ⟨output.offset, usub 64 capacity output.offset, text⟩
      dsimp only at hstored ⊢
      rw [hsize] at hstored ⊢
      have hle := hsafe.offset
      exact ⟨hle, rfl, by omega⟩

/-- All pieces are safe if and only if all of them together fit. -/
theorem safe_foldl_append_iff {capacity : ℕ} (hcapacity : capacity < 2 ^ 64)
    (texts : List (List α)) (output : Output α) :
    (texts.foldl (append capacity) output).Safe capacity ↔
      output.Safe capacity ∧ output.offset + (texts.map List.length).sum ≤ capacity := by
  induction texts generalizing output with
  | nil =>
    constructor
    · intro hsafe
      exact ⟨hsafe, by simpa using hsafe.offset⟩
    · intro hsafe
      exact hsafe.1
  | cons text texts ih =>
    rw [List.foldl_cons, ih, safe_append_iff hcapacity]
    simp only [append, snprintf, List.map_cons, List.sum_cons]
    constructor
    · rintro ⟨⟨hsafe, -⟩, hsum⟩
      exact ⟨hsafe, by omega⟩
    · rintro ⟨hsafe, hsum⟩
      exact ⟨⟨hsafe, by omega⟩, by omega⟩

end Output

/-- An output with an unsigned count of the room that is left. `wrapped` records that the count has
been taken below zero. -/
structure Writer (α : Type*) extends Output α where
  remaining : ℕ
  wrapped : Bool
  deriving DecidableEq

namespace Writer

def start (capacity : ℕ) : Writer α := ⟨.start, capacity, false⟩

def snprintf (width : ℕ) (writer : Writer α) (text : List α) : Writer α where
  toOutput := writer.toOutput.snprintf writer.remaining text
  remaining := usub width writer.remaining text.length
  wrapped := writer.wrapped || writer.remaining < text.length

/-- Every call is at a place of the buffer and stays within it, and the count has not wrapped. -/
structure Good (capacity : ℕ) (writer : Writer α) : Prop where
  calls : ∀ call ∈ writer.calls, call.offset ≤ capacity ∧ call.offset + call.stored ≤ capacity
  offset : writer.offset ≤ capacity
  wrapped : writer.wrapped = false

/-- As long as the count has not wrapped, there is as much room as it says. -/
def Room (capacity : ℕ) (writer : Writer α) : Prop :=
  writer.wrapped = false → writer.offset + writer.remaining ≤ capacity

theorem good_start (capacity : ℕ) : (start capacity : Writer α).Good capacity :=
  ⟨by simp [start, Output.start], Nat.zero_le capacity, rfl⟩

theorem room_start (capacity : ℕ) : (start capacity : Writer α).Room capacity := by
  intro _
  simp [start, Output.start]

section

variable {capacity width : ℕ} {writer : Writer α}

theorem Room.snprintf (hwidth : capacity < 2 ^ width) (hroom : writer.Room capacity)
    (text : List α) : (writer.snprintf width text).Room capacity := by
  intro hwrapped
  simp only [Writer.snprintf, Bool.or_eq_false_iff, decide_eq_false_iff_not, Nat.not_lt]
    at hwrapped
  have hle := hroom hwrapped.1
  have hremaining : usub width writer.remaining text.length = writer.remaining - text.length :=
    usub_of_le hwrapped.2 (by omega)
  simp only [Writer.snprintf, Output.snprintf, hremaining]
  omega

theorem good_snprintf_iff (hroom : writer.Room capacity) (text : List α) :
    (writer.snprintf width text).Good capacity ↔
      writer.Good capacity ∧ text.length ≤ writer.remaining := by
  constructor
  · intro hgood
    have hwrapped := hgood.wrapped
    simp only [Writer.snprintf, Bool.or_eq_false_iff, decide_eq_false_iff_not, Nat.not_lt]
      at hwrapped
    have hle := hroom hwrapped.1
    refine ⟨⟨?_, by omega, hwrapped.1⟩, hwrapped.2⟩
    intro call hcall
    exact hgood.calls call (List.mem_append_left _ hcall)
  · rintro ⟨hgood, hlength⟩
    have hle := hroom hgood.wrapped
    refine ⟨?_, ?_, ?_⟩
    · intro call hcall
      rcases List.mem_append.mp hcall with hold | hnew
      · exact hgood.calls call hold
      · have hstored := Call.stored_le ⟨writer.offset, writer.remaining, text⟩
        rw [List.mem_singleton.mp hnew]
        dsimp only at hstored ⊢
        exact ⟨hgood.offset, by omega⟩
    · have hoffset : (writer.snprintf width text).offset = writer.offset + text.length := rfl
      omega
    · simp [Writer.snprintf, hgood.wrapped, hlength]

/-- The pieces are written well if and only if all of them together fit into the room. -/
theorem good_foldl_iff (hwidth : capacity < 2 ^ width) (texts : List (List α))
    (hroom : writer.Room capacity) :
    (texts.foldl (snprintf width) writer).Good capacity ↔
      writer.Good capacity ∧ (texts.map List.length).sum ≤ writer.remaining := by
  induction texts generalizing writer with
  | nil => simp
  | cons text texts ih =>
    rw [List.foldl_cons, ih (hroom.snprintf hwidth text), good_snprintf_iff hroom, and_assoc]
    simp only [List.map_cons, List.sum_cons]
    refine and_congr_right fun hgood ↦ ?_
    have hle := hroom hgood.wrapped
    constructor
    · rintro ⟨hlength, hsum⟩
      have hremaining : (writer.snprintf width text).remaining =
          writer.remaining - text.length := usub_of_le hlength (by omega)
      omega
    · intro hsum
      have hremaining : (writer.snprintf width text).remaining =
          writer.remaining - text.length := usub_of_le (by omega) (by omega)
      exact ⟨by omega, by omega⟩

/-- The count after pieces that fit. -/
theorem remaining_foldl (texts : List (List α)) (hwidth : writer.remaining < 2 ^ width)
    (hfit : (texts.map List.length).sum ≤ writer.remaining) :
    (texts.foldl (snprintf width) writer).remaining =
      writer.remaining - (texts.map List.length).sum := by
  induction texts generalizing writer with
  | nil => rfl
  | cons text texts ih =>
    simp only [List.map_cons, List.sum_cons] at hfit ⊢
    have hremaining : (writer.snprintf width text).remaining =
        writer.remaining - text.length := usub_of_le (by omega) hwidth
    rw [List.foldl_cons, ih (by omega) (by omega), hremaining]
    omega

theorem wrapped_of_foldl {texts : List (List α)}
    (h : (texts.foldl (snprintf width) writer).wrapped = false) : writer.wrapped = false := by
  induction texts generalizing writer with
  | nil => exact h
  | cons text texts ih =>
    have hwrapped := ih h
    simp only [Writer.snprintf, Bool.or_eq_false_iff] at hwrapped
    exact hwrapped.1

/-- An output goes wrong no earlier than the count wraps around. -/
theorem good_foldl_of_wrapped {texts : List (List α)} (hwidth : capacity < 2 ^ width)
    (hroom : writer.Room capacity) (hgood : writer.Good capacity)
    (h : (texts.foldl (snprintf width) writer).wrapped = false) :
    (texts.foldl (snprintf width) writer).Good capacity := by
  induction texts generalizing writer with
  | nil => exact hgood
  | cons text texts ih =>
    have hwrapped : (writer.snprintf width text).wrapped = false := wrapped_of_foldl h
    simp only [Writer.snprintf, Bool.or_eq_false_iff, decide_eq_false_iff_not, Nat.not_lt]
      at hwrapped
    exact ih (hroom.snprintf hwidth text) ((good_snprintf_iff hroom text).mpr ⟨hgood, hwrapped.2⟩) h

end

end Writer

end Icecast.Lib.Snprintf
