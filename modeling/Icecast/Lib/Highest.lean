import Mathlib.Order.Lattice
import Mathlib.Order.MinMax
import Mathlib.Data.List.Basic

/-!
# The highest score in a list

The entries of a list are compared by a score. The highest score is the bound of all of them, and the first
entry that has it is the one to choose.
-/

namespace Icecast.Lib.Highest

variable {α β : Type*} [LinearOrder β]

/-- The highest of the scores, or what to begin with. -/
def highest (score : α → β) (start : β) (list : List α) : β :=
  list.foldl (fun best entry ↦ max best (score entry)) start

section Bounds

variable {score : α → β} {start : β}

theorem highest_le_iff {list : List α} {bound : β} :
    highest score start list ≤ bound ↔ start ≤ bound ∧ ∀ entry ∈ list, score entry ≤ bound := by
  unfold highest
  induction list generalizing start with
  | nil => simp
  | cons entry list ih => rw [List.foldl_cons, ih, max_le_iff, List.forall_mem_cons, and_assoc]

theorem highest_bounds (list : List α) : start ≤ highest score start list ∧
    ∀ entry ∈ list, score entry ≤ highest score start list :=
  highest_le_iff.mp le_rfl

theorem le_highest (list : List α) : start ≤ highest score start list := (highest_bounds list).1

theorem score_le_highest {list : List α} {entry : α} (h : entry ∈ list) :
    score entry ≤ highest score start list :=
  (highest_bounds list).2 entry h

/-- The highest score belongs to an entry, unless it is what there was to begin with. -/
theorem exists_eq_highest {list : List α} (h : start < highest score start list) :
    ∃ entry ∈ list, score entry = highest score start list := by
  induction list generalizing start with
  | nil => exact absurd h (lt_irrefl start)
  | cons entry list ih =>
    have hcons : highest score start (entry :: list) = highest score (max start (score entry)) list := rfl
    rw [hcons] at h ⊢
    have hle : max start (score entry) ≤ highest score (max start (score entry)) list := le_highest list
    rcases hle.lt_or_eq with hlt | heq
    · obtain ⟨found, hfound, hscore⟩ := ih hlt
      exact ⟨found, List.mem_cons_of_mem entry hfound, hscore⟩
    · rw [← heq] at h ⊢
      have hlt : start < score entry := (lt_max_iff.mp h).resolve_left (lt_irrefl start)
      exact ⟨entry, List.mem_cons_self, (max_eq_right hlt.le).symm⟩

/-- To go through the same list again changes nothing. -/
theorem highest_again (list : List α) :
    highest score (highest score start list) list = highest score start list := by
  apply le_antisymm
  · rw [highest_le_iff]
    exact ⟨le_rfl, fun entry hentry ↦ score_le_highest hentry⟩
  · exact le_highest list

end Bounds

/-! ## The first entry of the highest score -/

def IsFirstHighest (score : α → β) (list : List α) (entry : α) : Prop :=
  ∃ before after, list = before ++ entry :: after ∧ (∀ other ∈ before, score other < score entry) ∧
    ∀ other ∈ after, score other ≤ score entry

section First

variable {score : α → β} {list : List α} {entry other : α}

theorem isFirstHighest_iff : IsFirstHighest score list entry ↔
    list.find? (fun other ↦ score other = score entry) = some entry ∧
      ∀ other ∈ list, score other ≤ score entry := by
  rw [List.find?_eq_some_iff_append]
  constructor
  · rintro ⟨before, after, rfl, hbefore, hafter⟩
    refine ⟨⟨by simp, before, after, rfl, fun other hother ↦ ?_⟩, ?_⟩
    · simpa using (hbefore other hother).ne
    · intro other hother
      rcases List.mem_append.mp hother with hmem | hmem
      · exact (hbefore other hmem).le
      · rcases List.mem_cons.mp hmem with rfl | hmem
        · exact le_rfl
        · exact hafter other hmem
  · rintro ⟨⟨-, before, after, rfl, hbefore⟩, hbound⟩
    refine ⟨before, after, rfl, fun other hother ↦ ?_, fun other hother ↦ ?_⟩
    · have hne : score other ≠ score entry := by simpa using hbefore other hother
      exact lt_of_le_of_ne (hbound other (List.mem_append_left _ hother)) hne
    · exact hbound other (List.mem_append_right _ (List.mem_cons_of_mem entry hother))

theorem IsFirstHighest.mem (h : IsFirstHighest score list entry) : entry ∈ list := by
  obtain ⟨before, after, rfl, -⟩ := h
  simp

/-- There is at most one. -/
theorem IsFirstHighest.eq (h : IsFirstHighest score list entry)
    (hother : IsFirstHighest score list other) : entry = other := by
  have hscore : score entry = score other :=
    le_antisymm ((isFirstHighest_iff.mp hother).2 entry h.mem) ((isFirstHighest_iff.mp h).2 other hother.mem)
  have hfirst := (isFirstHighest_iff.mp h).1
  rw [hscore, (isFirstHighest_iff.mp hother).1] at hfirst
  exact (Option.some.inj hfirst).symm

/-- What is found for a score that nothing exceeds is the first of the highest. -/
theorem isFirstHighest_of_find? {value : β} (hbound : ∀ other ∈ list, score other ≤ value)
    (h : list.find? (fun other ↦ score other = value) = some entry) :
    score entry = value ∧ IsFirstHighest score list entry := by
  have hscore : score entry = value := by simpa using List.find?_some h
  refine ⟨hscore, isFirstHighest_iff.mpr ?_⟩
  rw [hscore]
  exact ⟨h, hbound⟩

end First

end Icecast.Lib.Highest
