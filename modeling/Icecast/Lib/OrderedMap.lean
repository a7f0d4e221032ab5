import Mathlib.Data.List.Basic
import Mathlib.Order.Lattice

/-!
# Ordered maps

A search tree as seen from outside: its entries in the order of their keys, no key twice. Every
operation keeps the order, and is described by what can be found afterwards.
-/

namespace Icecast.Lib

structure OrderedMap (κ α : Type*) [LinearOrder κ] where
  entries : List (κ × α)
  sorted : entries.Pairwise fun first second ↦ first.1 < second.1

namespace OrderedMap

variable {κ α : Type*} [LinearOrder κ]

def empty : OrderedMap κ α := ⟨[], List.Pairwise.nil⟩

def find? (map : OrderedMap κ α) (key : κ) : Option α :=
  (map.entries.find? (·.1 = key)).map (·.2)

/-- The entry goes before the first one that is not below it, and takes the place of an entry with
the same key. -/
def insertEntry (key : κ) (value : α) : List (κ × α) → List (κ × α)
  | [] => [(key, value)]
  | entry :: entries =>
    if key < entry.1 then (key, value) :: entry :: entries
    else if key = entry.1 then (key, value) :: entries
    else entry :: insertEntry key value entries

theorem mem_insertEntry {key : κ} {value : α} {entry : κ × α} {entries : List (κ × α)}
    (h : entry ∈ insertEntry key value entries) : entry = (key, value) ∨ entry ∈ entries := by
  induction entries with
  | nil => simpa [insertEntry] using h
  | cons other entries ih =>
    unfold insertEntry at h
    split_ifs at h
    · simpa using h
    · rcases List.mem_cons.mp h with rfl | hmem
      · exact Or.inl rfl
      · exact Or.inr (List.mem_cons_of_mem other hmem)
    · rcases List.mem_cons.mp h with rfl | hmem
      · exact Or.inr List.mem_cons_self
      · exact (ih hmem).imp_right (List.mem_cons_of_mem other)

theorem sorted_insertEntry {key : κ} {value : α} {entries : List (κ × α)}
    (h : entries.Pairwise fun first second ↦ first.1 < second.1) :
    (insertEntry key value entries).Pairwise fun first second ↦ first.1 < second.1 := by
  induction entries with
  | nil => exact List.pairwise_singleton _ _
  | cons other entries ih =>
    obtain ⟨hother, hrest⟩ := List.pairwise_cons.mp h
    unfold insertEntry
    split_ifs with hlt heq
    · refine List.pairwise_cons.mpr ⟨?_, h⟩
      intro entry hmem
      rcases List.mem_cons.mp hmem with rfl | hmem
      · exact hlt
      · exact lt_trans hlt (hother entry hmem)
    · exact List.pairwise_cons.mpr ⟨fun entry hmem ↦ heq ▸ hother entry hmem, hrest⟩
    · refine List.pairwise_cons.mpr ⟨?_, ih hrest⟩
      intro entry hmem
      rcases mem_insertEntry hmem with rfl | hmem
      · exact lt_of_le_of_ne (le_of_not_gt hlt) fun hsame ↦ heq hsame.symm
      · exact hother entry hmem

def insert (map : OrderedMap κ α) (key : κ) (value : α) : OrderedMap κ α :=
  ⟨insertEntry key value map.entries, sorted_insertEntry map.sorted⟩

def erase (map : OrderedMap κ α) (key : κ) : OrderedMap κ α :=
  ⟨map.entries.filter (·.1 ≠ key), map.sorted.filter _⟩

/-- The entries whose keys are to be kept. -/
def keep (map : OrderedMap κ α) (p : κ → Bool) : OrderedMap κ α :=
  ⟨map.entries.filter (p ·.1), map.sorted.filter _⟩

def mapValues (map : OrderedMap κ α) (f : α → α) : OrderedMap κ α where
  entries := map.entries.map fun entry ↦ (entry.1, f entry.2)
  sorted := List.pairwise_map.mpr map.sorted

section Find

variable (map : OrderedMap κ α) (key other : κ)

@[simp] theorem find?_empty : (empty : OrderedMap κ α).find? key = none := rfl

variable {map} in
theorem find?_of_entries_nil (h : map.entries = []) : map.find? key = none := by
  rw [find?, h]
  rfl

theorem find?_insert (value : α) :
    (map.insert key value).find? other = if other = key then some value else map.find? other := by
  have hentries (entries : List (κ × α)) :
      ((insertEntry key value entries).find? (·.1 = other)).map (·.2) =
        if other = key then some value else (entries.find? (·.1 = other)).map (·.2) := by
    induction entries with
    | nil =>
      by_cases h : other = key
      · simp [insertEntry, h]
      · simp [insertEntry, h, Ne.symm h]
    | cons entry entries ih =>
      unfold insertEntry
      split_ifs with hlt heq h h
      all_goals grind
  exact hentries map.entries

theorem find?_erase :
    (map.erase key).find? other = if other = key then none else map.find? other := by
  by_cases h : other = key
  · rw [if_pos h, find?, Option.map_eq_none_iff, List.find?_eq_none]
    intro entry hmem
    have hne := (List.mem_filter.mp hmem).2
    simp_all
  · rw [if_neg h, find?, find?, erase, List.find?_filter]
    congr 2
    funext entry
    by_cases hentry : entry.1 = other
    · simp [hentry, h]
    · simp [hentry]

theorem find?_keep (p : κ → Bool) :
    (map.keep p).find? key = if p key then map.find? key else none := by
  rw [find?, find?, keep, List.find?_filter]
  by_cases h : p key
  · rw [if_pos h]
    congr 2
    funext entry
    by_cases hentry : entry.1 = key
    · simp [hentry, h]
    · simp [hentry]
  · rw [if_neg h, Option.map_eq_none_iff, List.find?_eq_none]
    intro entry _
    by_cases hentry : entry.1 = key
    · simp [hentry, h]
    · simp [hentry]

theorem find?_mapValues (f : α → α) : (map.mapValues f).find? key = (map.find? key).map f := by
  rw [find?, mapValues, List.find?_map, Option.map_map, find?, Option.map_map]
  rfl

end Find

theorem find?_of_mem {entries : List (κ × α)} {key : κ} {value : α}
    (hsorted : entries.Pairwise fun first second ↦ first.1 < second.1)
    (hmem : (key, value) ∈ entries) : (entries.find? (·.1 = key)).map (·.2) = some value := by
  induction entries with
  | nil => cases hmem
  | cons entry entries ih =>
    obtain ⟨hentry, hrest⟩ := List.pairwise_cons.mp hsorted
    rcases List.mem_cons.mp hmem with rfl | hmem
    · simp
    · have hne : entry.1 ≠ key := ne_of_lt (hentry _ hmem)
      rw [List.find?_cons_of_neg (by simpa using hne)]
      exact ih hrest hmem

/-- The entries are what can be found. -/
theorem mem_entries_iff {map : OrderedMap κ α} {key : κ} {value : α} :
    (key, value) ∈ map.entries ↔ map.find? key = some value := by
  constructor
  · intro hmem
    exact find?_of_mem map.sorted hmem
  · intro hfound
    obtain ⟨entry, hentry, rfl⟩ := Option.map_eq_some_iff.mp hfound
    have hkey := List.find?_some hentry
    simp only [decide_eq_true_eq] at hkey
    rw [← hkey]
    exact List.mem_of_find?_eq_some hentry

end OrderedMap

end Icecast.Lib
