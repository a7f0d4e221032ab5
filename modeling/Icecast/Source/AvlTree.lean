import Mathlib.Data.List.Sort

/-!
# Trees of listeners

The listeners of a source are in two AVL trees. Which node is above which other one makes no difference
here, so a tree is the list of its nodes in the order in which they are met.
-/

namespace Icecast.Source.AvlTree

open scoped List

variable {α : Type*} (key : α → ℕ)

/-- `avl_insert` with a function like `_compare_clients`, which compares numbers. A node comes before those
with the same number. -/
def avlInsert (node : α) (tree : List α) : List α :=
  tree.orderedInsert (fun first second ↦ key first ≤ key second) node

theorem avlInsert_perm (node : α) (tree : List α) : avlInsert key node tree ~ node :: tree :=
  List.perm_orderedInsert _ _ _

theorem foldl_avlInsert_perm (nodes tree : List α) :
    nodes.foldl (fun tree node ↦ avlInsert key node tree) tree ~ nodes ++ tree := by
  induction nodes generalizing tree with
  | nil => exact List.Perm.refl _
  | cons node nodes ih =>
    calc nodes.foldl (fun tree node ↦ avlInsert key node tree) (avlInsert key node tree)
        ~ nodes ++ avlInsert key node tree := ih _
      _ ~ nodes ++ node :: tree := (avlInsert_perm key node tree).append_left nodes
      _ ~ node :: nodes ++ tree := List.perm_middle

theorem avlInsert_sorted (node : α) {tree : List α}
    (h : tree.Pairwise fun first second ↦ key first ≤ key second) :
    (avlInsert key node tree).Pairwise fun first second ↦ key first ≤ key second := by
  have htrans : IsTrans α fun first second ↦ key first ≤ key second := ⟨fun _ _ _ ↦ Nat.le_trans⟩
  have htotal : Std.Total fun first second : α ↦ key first ≤ key second :=
    ⟨fun first second ↦ Nat.le_total (key first) (key second)⟩
  exact h.orderedInsert _ _

end Icecast.Source.AvlTree
