import Mathlib.Data.List.Chain

/-!
# Lists that overlap

A sequence may be cut into parts such that each part begins with the last item of the one before. Nothing is
lost by that: joined without the repetitions, the parts are the sequence.
-/

namespace Icecast.Lib.Overlap

variable {α : Type*} {parts : List (List α)} {part : List α} {item : α}

/-- The last item of a part is the first one of the next. -/
def Touches (part next : List α) : Prop := ∃ item, part.getLast? = some item ∧ next.head? = some item

def Linked (parts : List (List α)) : Prop := List.IsChain Touches parts

def join : List (List α) → List α
  | [] => []
  | first :: rest => first ++ rest.flatMap List.tail

theorem join_singleton (part : List α) : join [part] = part := List.append_nil part

theorem join_concat (hparts : parts ≠ []) (part : List α) :
    join (parts ++ [part]) = join parts ++ part.tail := by
  cases parts with
  | nil => exact absurd rfl hparts
  | cons first rest =>
    rw [List.cons_append, join, join, List.flatMap_append, List.flatMap_singleton, List.append_assoc]

/-- The last part grows. -/
theorem join_grow (h : parts = [] ∨ part ≠ []) (item : α) :
    join (parts ++ [part ++ [item]]) = join (parts ++ [part]) ++ [item] := by
  by_cases hparts : parts = []
  · rw [hparts, List.nil_append, List.nil_append, join_singleton, join_singleton]
  · have hpart := h.resolve_left hparts
    rw [join_concat hparts, join_concat hparts, List.tail_append_of_ne_nil hpart, List.append_assoc]

/-- A new part begins with what was the last item. -/
theorem join_again (hparts : parts ≠ []) (item : α) : join (parts ++ [[item]]) = join parts := by
  rw [join_concat hparts]
  exact List.append_nil _

theorem linked_singleton (part : List α) : Linked [part] := List.isChain_singleton part

theorem linked_nil : Linked ([] : List (List α)) := List.isChain_nil

theorem Linked.grow (h : Linked (parts ++ [part])) (hpart : parts = [] ∨ part ≠ []) (item : α) :
    Linked (parts ++ [part ++ [item]]) := by
  by_cases hparts : parts = []
  · rw [hparts]
    exact linked_singleton _
  · have hne := hpart.resolve_left hparts
    obtain ⟨hfirst, -, hlast⟩ := List.isChain_append.mp h
    refine List.isChain_append.mpr ⟨hfirst, linked_singleton _, fun last hmem next hnext ↦ ?_⟩
    obtain ⟨found, hfound, hhead⟩ := hlast last hmem part (by simp)
    have hsame : next = part ++ [item] := by simpa [eq_comm] using hnext
    refine ⟨found, hfound, ?_⟩
    rw [hsame, List.head?_append_of_ne_nil _ hne, hhead]

theorem Linked.again (h : Linked (parts ++ [part])) (hlast : part.getLast? = some item) :
    Linked (parts ++ [part] ++ [[item]]) := by
  refine List.isChain_append.mpr ⟨h, linked_singleton _, fun last hmem next hnext ↦ ?_⟩
  have hpart : last = part := by simpa [eq_comm] using hmem
  have hnext' : next = [item] := by simpa [eq_comm] using hnext
  rw [hpart, hnext']
  exact ⟨item, hlast, rfl⟩

end Icecast.Lib.Overlap
