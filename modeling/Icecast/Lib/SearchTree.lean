import Mathlib.Data.Tree.Basic
import Mathlib.Order.Basic
import Mathlib.Order.Lattice

/-!
# Search trees

A binary tree whose items stand in the order of their keys. The search goes down one path; it finds
what a search through all items in their order finds.
-/

namespace Icecast.Lib.SearchTree

variable {κ α : Type*}

/-- The items from left to right. -/
def items : BinaryTree α → List α
  | .nil => []
  | .node item left right => items left ++ item :: items right

variable [LinearOrder κ] (key : α → κ)

def find? (k : κ) : BinaryTree α → Option α
  | .nil => none
  | .node item left right =>
    if k < key item then find? k left
    else if key item < k then find? k right
    else some item

def Ordered (tree : BinaryTree α) : Prop :=
  (items tree).Pairwise fun first second ↦ key first < key second

variable {key}

theorem Ordered.of_node {item : α} {left right : BinaryTree α}
    (h : Ordered key (.node item left right)) :
    Ordered key left ∧ Ordered key right ∧ (∀ other ∈ items left, key other < key item) ∧
      ∀ other ∈ items right, key item < key other := by
  obtain ⟨hleft, hright, hcross⟩ := List.pairwise_append.mp h
  obtain ⟨hitem, htail⟩ := List.pairwise_cons.mp hright
  refine ⟨hleft, htail, ?_, hitem⟩
  intro other hother
  exact hcross other hother item (List.mem_cons_self ..)

theorem find?_eq_none_of_forall_ne {k : κ} {list : List α} (h : ∀ item ∈ list, key item ≠ k) :
    list.find? (fun item ↦ key item = k) = none := by
  rw [List.find?_eq_none]
  intro item hitem hfound
  exact h item hitem (of_decide_eq_true hfound)

/-- The path that is taken misses nothing. -/
theorem find?_eq_find?_items {tree : BinaryTree α} (h : Ordered key tree) (k : κ) :
    find? key k tree = (items tree).find? fun item ↦ key item = k := by
  induction tree with
  | nil => rfl
  | node item left right ihleft ihright =>
    obtain ⟨hleft, hright, hbelow, habove⟩ := h.of_node
    rw [find?, items, List.find?_append]
    rcases lt_trichotomy k (key item) with hlt | heq | hgt
    · have hrest : (item :: items right).find? (fun item ↦ key item = k) = none := by
        apply find?_eq_none_of_forall_ne
        intro other hother
        rcases List.mem_cons.mp hother with rfl | hother
        · exact hlt.ne'
        · exact (hlt.trans (habove other hother)).ne'
      rw [if_pos hlt, ihleft hleft, hrest, Option.or_none]
    · have hfront : (items left).find? (fun item ↦ key item = k) = none := by
        apply find?_eq_none_of_forall_ne
        intro other hother
        exact heq ▸ (hbelow other hother).ne
      rw [if_neg heq.not_lt, if_neg heq.not_gt, hfront, Option.none_or,
        List.find?_cons_of_pos (by simpa using heq.symm)]
    · have hfront : (items left).find? (fun item ↦ key item = k) = none := by
        apply find?_eq_none_of_forall_ne
        intro other hother
        exact ((hbelow other hother).trans hgt).ne
      rw [if_neg hgt.not_gt, if_pos hgt, ihright hright, hfront, Option.none_or,
        List.find?_cons_of_neg (by simpa using hgt.ne)]

/-- Changing items in place leaves their places alone. -/
theorem items_map {β : Type*} (f : α → β) (tree : BinaryTree α) :
    items (tree.map f) = (items tree).map f := by
  induction tree with
  | nil => rfl
  | node item left right ihleft ihright => simp [BinaryTree.map, items, ihleft, ihright]

theorem Ordered.map {tree : BinaryTree α} (h : Ordered key tree) {f : α → α}
    (hkey : ∀ item, key (f item) = key item) : Ordered key (tree.map f) := by
  rw [Ordered, items_map, List.pairwise_map]
  simp only [hkey]
  exact h

/-- The item that a key leads to is the only one with that key. -/
theorem find?_eq_some_iff {tree : BinaryTree α} (h : Ordered key tree) {k : κ} {item : α} :
    find? key k tree = some item ↔ item ∈ items tree ∧ key item = k := by
  rw [find?_eq_find?_items h]
  constructor
  · intro hfound
    exact ⟨List.mem_of_find?_eq_some hfound, by simpa using List.find?_some hfound⟩
  · rintro ⟨hmem, rfl⟩
    obtain ⟨before, after, hsplit⟩ := List.append_of_mem hmem
    rw [Ordered, hsplit, List.pairwise_append] at h
    have hfront : before.find? (fun other ↦ key other = key item) = none := by
      apply find?_eq_none_of_forall_ne
      intro other hother
      exact (h.2.2 other hother item List.mem_cons_self).ne
    rw [hsplit, List.find?_append, hfront, Option.none_or, List.find?_cons_of_pos (by simp)]

theorem find?_map {tree : BinaryTree α} (h : Ordered key tree) {f : α → α}
    (hkey : ∀ item, key (f item) = key item) (k : κ) :
    find? key k (tree.map f) = (find? key k tree).map f := by
  rw [find?_eq_find?_items (h.map hkey), find?_eq_find?_items h, items_map, List.find?_map]
  simp only [Function.comp_def, hkey]

end Icecast.Lib.SearchTree
