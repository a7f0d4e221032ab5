import Mathlib.Data.List.Basic
import Mathlib.Data.List.Nodup

/-!
# Singly linked lists in a heap

`Chain next start nodes` says that following `next` from `start` passes exactly `nodes` and then
ends. A pointer that has such a list at all starts an acyclic one. The remaining lemmas describe
what the usual pointer operations do to the list: changing nodes elsewhere, linking a new node
in or taking one out, dropping the first one, and walking along it.
-/

namespace Icecast.Lib.LinkedList

variable {ι : Type*} {next next' : ι → Option ι}

def Chain (next : ι → Option ι) : Option ι → List ι → Prop
  | start, [] => start = none
  | start, node :: nodes => start = some node ∧ Chain next (next node) nodes

@[simp] theorem chain_nil {start : Option ι} : Chain next start [] ↔ start = none := Iff.rfl

@[simp] theorem chain_cons {start : Option ι} {node : ι} {nodes : List ι} :
    Chain next start (node :: nodes) ↔ start = some node ∧ Chain next (next node) nodes := Iff.rfl

theorem Chain.head?_eq {start : Option ι} {nodes : List ι} (h : Chain next start nodes) :
    nodes.head? = start := by
  cases nodes with
  | nil => exact h.symm
  | cons node nodes => exact h.1.symm

theorem Chain.unique {start : Option ι} {first second : List ι} (h₁ : Chain next start first)
    (h₂ : Chain next start second) : first = second := by
  induction first generalizing start second with
  | nil =>
    cases second with
    | nil => rfl
    | cons node nodes => simp_all
  | cons node nodes ih =>
    cases second with
    | nil => simp_all
    | cons node' nodes' =>
      obtain rfl : node = node' := Option.some.inj (h₁.1.symm.trans h₂.1)
      rw [ih h₁.2 h₂.2]

/-- The list behind a node of the list. -/
theorem Chain.suffix {start : Option ι} {front : List ι} {node : ι} {back : List ι}
    (h : Chain next start (front ++ node :: back)) : Chain next (some node) (node :: back) := by
  induction front generalizing start with
  | nil => exact ⟨rfl, h.2⟩
  | cons _ front ih => exact ih h.2

/-- A list that ends has no cycle: behind a repeated node the rest of the list would be its own
proper part. -/
theorem Chain.nodup {start : Option ι} {nodes : List ι} (h : Chain next start nodes) :
    nodes.Nodup := by
  induction nodes generalizing start with
  | nil => exact List.nodup_nil
  | cons node nodes ih =>
    refine List.nodup_cons.mpr ⟨?_, ih h.2⟩
    intro hmem
    obtain ⟨front, back, rfl⟩ := List.append_of_mem hmem
    have hshort : Chain next (next node) back := (Chain.suffix h.2).2
    have hlen := congrArg List.length (hshort.unique h.2)
    simp only [List.length_append, List.length_cons] at hlen
    omega

theorem Chain.congr {start : Option ι} {nodes : List ι} (h : Chain next start nodes)
    (hsame : ∀ node ∈ nodes, next' node = next node) : Chain next' start nodes := by
  induction nodes generalizing start with
  | nil => exact h
  | cons node nodes ih =>
    refine ⟨h.1, ?_⟩
    rw [hsame node List.mem_cons_self]
    exact ih h.2 fun other hother ↦ hsame other (List.mem_cons_of_mem node hother)

/-- Linking a new node behind the last one. -/
theorem Chain.snoc {start : Option ι} {front : List ι} {last new : ι}
    (h : Chain next start (front ++ [last])) (hlast : next' last = some new)
    (hnew : next' new = none)
    (hsame : ∀ node ∈ front, next' node = next node) :
    Chain next' start (front ++ [last] ++ [new]) := by
  induction front generalizing start with
  | nil => simpa [hlast, hnew] using h.1
  | cons node front ih =>
    refine ⟨h.1, ?_⟩
    rw [hsame node List.mem_cons_self]
    exact ih h.2 fun other hother ↦ hsame other (List.mem_cons_of_mem node hother)

/-- Linking another list behind the last node. -/
theorem Chain.append {start tail : Option ι} {front behind : List ι} {last : ι}
    (h : Chain next start (front ++ [last])) (hlast : next' last = tail) (hbehind : Chain next' tail behind)
    (hsame : ∀ node ∈ front, next' node = next node) :
    Chain next' start (front ++ [last] ++ behind) := by
  induction front generalizing start with
  | nil =>
    refine ⟨h.1, ?_⟩
    rwa [hlast]
  | cons node front ih =>
    refine ⟨h.1, ?_⟩
    rw [hsame node List.mem_cons_self]
    exact ih h.2 fun other hother ↦ hsame other (List.mem_cons_of_mem node hother)

/-- Ending the list at one of its nodes. -/
theorem Chain.cut {start : Option ι} {front back : List ι} {last : ι}
    (h : Chain next start (front ++ last :: back)) (hlast : next' last = none)
    (hsame : ∀ node ∈ front, next' node = next node) : Chain next' start (front ++ [last]) := by
  induction front generalizing start with
  | nil => exact ⟨h.1, hlast⟩
  | cons node front ih =>
    refine ⟨h.1, ?_⟩
    rw [hsame node List.mem_cons_self]
    exact ih h.2 fun other hother ↦ hsame other (List.mem_cons_of_mem node hother)

/-- Linking a new node behind any node of the list. -/
theorem Chain.insert {start : Option ι} {front : List ι} {node new : ι} {back : List ι}
    (h : Chain next start (front ++ node :: back)) (hnode : next' node = some new)
    (hnew : next' new = next node)
    (hsame : ∀ other ∈ front ++ back, next' other = next other) :
    Chain next' start (front ++ node :: new :: back) := by
  induction front generalizing start with
  | nil =>
    refine ⟨h.1, hnode, ?_⟩
    rw [hnew]
    exact h.2.congr hsame
  | cons other front ih =>
    refine ⟨h.1, ?_⟩
    rw [hsame other List.mem_cons_self]
    exact ih h.2 fun behind hbehind ↦ hsame behind (List.mem_cons_of_mem other hbehind)

/-- Linking a new node before the first one. -/
theorem Chain.push {start : Option ι} {nodes : List ι} (h : Chain next start nodes) {new : ι}
    (hnew : next' new = start) (hsame : ∀ node ∈ nodes, next' node = next node) :
    Chain next' (some new) (new :: nodes) := by
  refine ⟨rfl, ?_⟩
  rw [hnew]
  exact h.congr hsame

/-- Taking a node out behind another one. -/
theorem Chain.unlink {start : Option ι} {front : List ι} {last node : ι} {back : List ι}
    (h : Chain next start (front ++ last :: node :: back)) (hlast : next' last = next node)
    (hsame : ∀ other ∈ front ++ back, next' other = next other) :
    Chain next' start (front ++ last :: back) := by
  induction front generalizing start with
  | nil =>
    refine ⟨h.1, ?_⟩
    rw [hlast]
    exact h.2.2.congr hsame
  | cons other front ih =>
    refine ⟨h.1, ?_⟩
    rw [hsame other List.mem_cons_self]
    exact ih h.2 fun behind hbehind ↦ hsame behind (List.mem_cons_of_mem other hbehind)

/-- One step along the list ends at its next node, or behind its end. -/
theorem Chain.next_mem {start : Option ι} {nodes : List ι} (h : Chain next start nodes) {node : ι}
    (hmem : node ∈ nodes) {other : ι} (hnext : next node = some other) : other ∈ nodes := by
  obtain ⟨front, back, rfl⟩ := List.append_of_mem hmem
  have hback : Chain next (next node) back := (Chain.suffix h).2
  rw [hnext] at hback
  cases back with
  | nil => cases hback
  | cons node' back =>
    rw [Option.some.inj hback.1]
    simp

/-! ## Walking with fuel -/

/-- The nodes that are met within a number of steps. -/
def walk (next : ι → Option ι) : ℕ → Option ι → List ι
  | 0, _ => []
  | _ + 1, none => []
  | fuel + 1, some node => node :: walk next fuel (next node)

@[simp] theorem walk_none (fuel : ℕ) : walk next fuel none = [] := by
  cases fuel <;> rfl

theorem Chain.walk_eq {start : Option ι} {nodes : List ι} (h : Chain next start nodes) {fuel : ℕ}
    (hfuel : nodes.length ≤ fuel) : walk next fuel start = nodes := by
  induction nodes generalizing start fuel with
  | nil =>
    rw [chain_nil.mp h]
    exact walk_none fuel
  | cons node nodes ih =>
    obtain ⟨fuel, rfl⟩ : ∃ n, fuel = n + 1 := ⟨fuel - 1, by simp at hfuel; omega⟩
    rw [h.1, walk, ih h.2 (by simpa using hfuel)]

end Icecast.Lib.LinkedList
