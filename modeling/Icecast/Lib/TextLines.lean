import Mathlib.Data.List.Basic

/-!
# Lines with an end of two characters

A reader takes a text for a sequence of lines if each of them is ended by the two characters, and neither
of these stands anywhere else. The lines it finds are then the only ones.
-/

namespace Icecast.Lib.TextLines

variable {α : Type*} [DecidableEq α] (cr lf : α)

def joinLines (lines : List (List α)) : List α := lines.flatMap (· ++ [cr, lf])

/-- None of the characters of the line end. -/
def Plain (line : List α) : Prop := cr ∉ line ∧ lf ∉ line

instance (line : List α) : Decidable (Plain cr lf line) := inferInstanceAs (Decidable (_ ∧ _))

/-- The lines of a text, when `current` has been read of the first one. -/
def readLinesFrom : List α → List α → Option (List (List α))
  | current, [] => if current = [] then some [] else none
  | _, [_] => none
  | current, item :: next :: rest =>
    if item = cr then
      if next = lf then (readLinesFrom [] rest).map (current :: ·) else none
    else if item = lf then none
    else readLinesFrom (current ++ [item]) (next :: rest)

def readLines (text : List α) : Option (List (List α)) := readLinesFrom cr lf [] text

variable {cr lf} {line text : List α} {lines : List (List α)}

omit [DecidableEq α] in
theorem plain_append_iff (first second : List α) :
    Plain cr lf (first ++ second) ↔ Plain cr lf first ∧ Plain cr lf second := by
  simp only [Plain, List.mem_append, not_or]
  tauto

theorem readLinesFrom_line (hline : Plain cr lf line) (current rest : List α) :
    readLinesFrom cr lf current (line ++ cr :: lf :: rest) =
      (readLinesFrom cr lf [] rest).map ((current ++ line) :: ·) := by
  induction line generalizing current with
  | nil => simp [readLinesFrom]
  | cons item line ih =>
    obtain ⟨hcr, hlf⟩ := hline
    rw [List.mem_cons, not_or] at hcr hlf
    have hstep : readLinesFrom cr lf current (item :: (line ++ cr :: lf :: rest)) =
        readLinesFrom cr lf (current ++ [item]) (line ++ cr :: lf :: rest) := by
      cases line <;> simp [readLinesFrom, Ne.symm hcr.1, Ne.symm hlf.1]
    rw [List.cons_append, hstep, ih ⟨hcr.2, hlf.2⟩, List.append_assoc]
    rfl

theorem readLines_joinLines (hlines : ∀ line ∈ lines, Plain cr lf line) :
    readLines cr lf (joinLines cr lf lines) = some lines := by
  induction lines with
  | nil => rfl
  | cons line lines ih =>
    obtain ⟨hline, hlines⟩ := List.forall_mem_cons.mp hlines
    have hjoin : joinLines cr lf (line :: lines) = line ++ cr :: lf :: joinLines cr lf lines := by
      simp [joinLines]
    rw [readLines] at ih ⊢
    rw [hjoin, readLinesFrom_line hline, ih hlines]
    rfl

theorem joinLines_of_readLinesFrom {current : List α} (hcurrent : Plain cr lf current)
    (hread : readLinesFrom cr lf current text = some lines) :
    current ++ text = joinLines cr lf lines ∧ ∀ line ∈ lines, Plain cr lf line := by
  induction current, text using readLinesFrom.induct cr lf generalizing lines with
  | case1 =>
    cases hread
    exact ⟨rfl, nofun⟩
  | case2 current hne => simp [readLinesFrom, hne] at hread
  | case3 => simp [readLinesFrom] at hread
  | case4 current rest ih =>
    simp only [readLinesFrom, if_true] at hread
    obtain ⟨later, hlater, rfl⟩ := Option.map_eq_some_iff.mp hread
    obtain ⟨hjoin, hplain⟩ := ih ⟨List.not_mem_nil, List.not_mem_nil⟩ hlater
    rw [List.nil_append] at hjoin
    refine ⟨?_, List.forall_mem_cons.mpr ⟨hcurrent, hplain⟩⟩
    rw [hjoin]
    simp [joinLines]
  | case5 current next rest hnext => simp [readLinesFrom, hnext] at hread
  | case6 current next rest hne => simp [readLinesFrom, hne] at hread
  | case7 current item next rest hcr hlf ih =>
    rw [readLinesFrom, if_neg hcr, if_neg hlf] at hread
    have hnext : Plain cr lf (current ++ [item]) := by
      rw [plain_append_iff]
      exact ⟨hcurrent, by simpa [Plain] using ⟨Ne.symm hcr, Ne.symm hlf⟩⟩
    simpa using ih hnext hread

/-- The reader finds lines exactly if the text is put together from them. -/
theorem readLines_eq_some_iff : readLines cr lf text = some lines ↔
    text = joinLines cr lf lines ∧ ∀ line ∈ lines, Plain cr lf line := by
  constructor
  · exact fun hread ↦ joinLines_of_readLinesFrom ⟨List.not_mem_nil, List.not_mem_nil⟩ hread
  · rintro ⟨rfl, hplain⟩
    exact readLines_joinLines hplain

end Icecast.Lib.TextLines
