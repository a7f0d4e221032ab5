import Mathlib.Data.List.Infix

/-!
# Searching in strings

`strstr` finds the first place where a pattern stands in a text, `strchr` and `strrchr` the first and
the last place of a character.
-/

namespace Icecast.Lib.CString

variable {α : Type*} [DecidableEq α]

/-- The offset of the first place where the pattern stands. -/
def strstr (pattern : List α) : List α → Option ℕ
  | [] => if pattern = [] then some 0 else none
  | char :: text =>
    if pattern <+: char :: text then some 0 else (strstr pattern text).map (· + 1)

variable {pattern text : List α} {offset : ℕ}

/-- The pattern stands at the offset that is found. -/
theorem prefix_of_strstr (h : strstr pattern text = some offset) : pattern <+: text.drop offset := by
  induction text generalizing offset with
  | nil =>
    unfold strstr at h
    split at h
    · rename_i hpattern
      rw [hpattern]
      exact List.nil_prefix
    · cases h
  | cons char text ih =>
    unfold strstr at h
    split at h
    · rename_i hprefix
      rw [← Option.some.inj h]
      exact hprefix
    · obtain ⟨found, hfound, rfl⟩ := Option.map_eq_some_iff.mp h
      exact ih hfound

theorem add_length_le_of_strstr (h : strstr pattern text = some offset) (hne : pattern ≠ []) :
    offset + pattern.length ≤ text.length := by
  have hle := (prefix_of_strstr h).length_le
  have hpos := List.length_pos_of_ne_nil hne
  rw [List.length_drop] at hle
  omega

/-- The text up to the end of the place that is found ends with the pattern. -/
theorem suffix_take_of_strstr (h : strstr pattern text = some offset) :
    pattern <:+ text.take (offset + pattern.length) := by
  rw [List.take_add, ← List.prefix_iff_eq_take.mp (prefix_of_strstr h)]
  exact List.suffix_append _ _

/-- No earlier place is passed over. -/
theorem exists_strstr_le {place : ℕ} (h : pattern <+: text.drop place) :
    ∃ found ≤ place, strstr pattern text = some found := by
  induction text generalizing place with
  | nil =>
    rw [List.drop_nil, List.prefix_nil] at h
    exact ⟨0, Nat.zero_le place, by simp [strstr, h]⟩
  | cons char text ih =>
    unfold strstr
    split
    · exact ⟨0, Nat.zero_le place, rfl⟩
    · rename_i hnot
      cases place with
      | zero => exact absurd h hnot
      | succ place =>
        obtain ⟨found, hle, hfound⟩ := ih h
        exact ⟨found + 1, Nat.succ_le_succ hle, by rw [hfound, Option.map_some]⟩

theorem strstr_eq_none_iff : strstr pattern text = none ↔ ¬ pattern <:+: text := by
  constructor
  · rintro hnone ⟨front, back, htext⟩
    have hplace : pattern <+: text.drop front.length := by
      rw [← htext, List.append_assoc, List.drop_left]
      exact List.prefix_append pattern back
    obtain ⟨found, -, hfound⟩ := exists_strstr_le hplace
    rw [hnone] at hfound
    cases hfound
  · intro hnot
    cases hfound : strstr pattern text with
    | none => rfl
    | some offset =>
      have hinfix : pattern <:+: text :=
        (prefix_of_strstr hfound).isInfix.trans (List.drop_suffix offset text).isInfix
      exact absurd hinfix hnot

/-! ## Characters -/

variable {char : α}

/-- The text in front of the first place of a character, and behind it. -/
def strchr (char : α) (text : List α) : Option (List α × List α) :=
  if char ∈ text then
    some (text.takeWhile (· ≠ char), (text.dropWhile (· ≠ char)).drop 1)
  else none

/-- The text in front of the last place of a character, and behind it. -/
def strrchr (char : α) : List α → Option (List α × List α)
  | [] => none
  | first :: text =>
    match strrchr char text with
    | some (front, back) => some (first :: front, back)
    | none => if first = char then some ([], text) else none

theorem strrchr_eq_none_iff : strrchr char text = none ↔ char ∉ text := by
  induction text with
  | nil => simp [strrchr]
  | cons first text ih =>
    rw [List.mem_cons, not_or, ← ih, strrchr]
    cases hrest : strrchr char text with
    | some parts => simp
    | none =>
      by_cases hfirst : first = char
      · simp [hfirst]
      · simp [hfirst, Ne.symm hfirst]

theorem strrchr_append_cons {front back : List α} (hback : char ∉ back) :
    strrchr char (front ++ char :: back) = some (front, back) := by
  induction front with
  | nil =>
    rw [List.nil_append, strrchr, strrchr_eq_none_iff.mpr hback]
    simp
  | cons first front ih => rw [List.cons_append, strrchr, ih]

theorem eq_append_of_strrchr {front back : List α} (h : strrchr char text = some (front, back)) :
    text = front ++ char :: back ∧ char ∉ back := by
  induction text generalizing front with
  | nil => cases h
  | cons first text ih =>
    unfold strrchr at h
    split at h
    · rename_i front' back' hrest
      obtain ⟨rfl, rfl⟩ := Prod.mk.inj (Option.some.inj h)
      obtain ⟨htext, hnot⟩ := ih hrest
      exact ⟨by rw [htext, List.cons_append], hnot⟩
    · rename_i hrest
      split at h
      · rename_i hfirst
        obtain ⟨rfl, rfl⟩ := Prod.mk.inj (Option.some.inj h)
        exact ⟨by rw [hfirst, List.nil_append], strrchr_eq_none_iff.mp hrest⟩
      · cases h

/-! ## The end of a text -/

section Terminated

variable {stop : α}

/-- What is read up to a character goes through a text without it. -/
theorem takeWhile_ne_append (h : stop ∉ text) (rest : List α) :
    (text ++ rest).takeWhile (· ≠ stop) = text ++ rest.takeWhile (· ≠ stop) :=
  List.takeWhile_append_of_pos fun _ hchar ↦ decide_eq_true fun heq ↦ h (heq ▸ hchar)

theorem takeWhile_ne_append_cons (h : stop ∉ text) (rest : List α) :
    (text ++ stop :: rest).takeWhile (· ≠ stop) = text := by
  rw [takeWhile_ne_append h, List.takeWhile_cons_of_neg (by simp), List.append_nil]

/-- A character that stops the reading stands behind the text at the latest. -/
theorem length_takeWhile_ne_le (text rest : List α) :
    ((text ++ stop :: rest).takeWhile (· ≠ stop)).length ≤ text.length := by
  rw [List.takeWhile_append]
  split
  · simp
  · exact (List.takeWhile_prefix _).length_le

end Terminated

end Icecast.Lib.CString
