import Mathlib.Algebra.BigOperators.Group.Finset.Basic
import Mathlib.Algebra.Order.BigOperators.Group.Finset
import Mathlib.Algebra.Order.Group.Int
import Mathlib.Data.Finset.Card
import Mathlib.Data.Finset.Range
import Mathlib.Logic.Function.Basic

/-!
# Allocated objects

Objects are numbered in the order of their allocation and a number is never given out again, so that
an object that has been freed stays so. The number of live objects is followed through allocation,
update and release.
-/

namespace Icecast.Lib

/-- The objects in use; nothing stands behind the numbers that have not been given out. -/
structure Heap (α : Type*) where
  objects : ℕ → Option α
  next : ℕ
  fresh : ∀ id, next ≤ id → objects id = none

namespace Heap

variable {α : Type*}

def empty : Heap α := ⟨fun _ ↦ none, 0, fun _ _ ↦ rfl⟩

/-- The new object has the number `heap.next`. -/
def alloc (heap : Heap α) (value : α) : Heap α where
  objects := Function.update heap.objects heap.next (some value)
  next := heap.next + 1
  fresh id hid := by
    rw [Function.update_of_ne (Nat.ne_of_gt hid)]
    exact heap.fresh id (Nat.le_of_succ_le hid)

def modify (heap : Heap α) (id : ℕ) (f : α → α) : Heap α where
  objects := Function.update heap.objects id ((heap.objects id).map f)
  next := heap.next
  fresh other hother := by
    by_cases hid : other = id
    · rw [hid, Function.update_self, heap.fresh id (hid ▸ hother), Option.map_none]
    · rw [Function.update_of_ne hid, heap.fresh other hother]

def free (heap : Heap α) (id : ℕ) : Heap α where
  objects := Function.update heap.objects id none
  next := heap.next
  fresh other hother := by
    by_cases hid : other = id
    · rw [hid, Function.update_self]
    · rw [Function.update_of_ne hid, heap.fresh other hother]

/-- The same update of all objects. -/
def map (heap : Heap α) (f : α → α) : Heap α where
  objects id := (heap.objects id).map f
  next := heap.next
  fresh id hid := by rw [heap.fresh id hid, Option.map_none]

section Objects

variable (heap : Heap α) (value : α) (f : α → α) {id other : ℕ}

@[simp] theorem alloc_next : (heap.alloc value).next = heap.next + 1 := rfl

@[simp] theorem modify_next : (heap.modify id f).next = heap.next := rfl

@[simp] theorem free_next : (heap.free id).next = heap.next := rfl

@[simp] theorem objects_alloc_self : (heap.alloc value).objects heap.next = some value :=
  Function.update_self _ _ _

theorem objects_alloc_of_ne (h : other ≠ heap.next) :
    (heap.alloc value).objects other = heap.objects other :=
  Function.update_of_ne h _ _

@[simp] theorem objects_modify_self : (heap.modify id f).objects id = (heap.objects id).map f :=
  Function.update_self _ _ _

theorem objects_modify_of_ne (h : other ≠ id) :
    (heap.modify id f).objects other = heap.objects other :=
  Function.update_of_ne h _ _

@[simp] theorem objects_map : (heap.map f).objects id = (heap.objects id).map f := rfl

@[simp] theorem objects_free_self : (heap.free id).objects id = none :=
  Function.update_self _ _ _

theorem objects_free_of_ne (h : other ≠ id) : (heap.free id).objects other = heap.objects other :=
  Function.update_of_ne h _ _

theorem lt_next_of_objects {heap : Heap α} {value : α} (h : heap.objects id = some value) :
    id < heap.next := by
  by_contra hid
  rw [heap.fresh id (Nat.le_of_not_lt hid)] at h
  exact Option.some_ne_none value h.symm

/-- The number that is given out next is not the number of a live object. -/
theorem ne_next_of_isSome {heap : Heap α} (h : (heap.objects id).isSome) : id ≠ heap.next := by
  obtain ⟨value, hvalue⟩ := Option.isSome_iff_exists.mp h
  exact Nat.ne_of_lt (lt_next_of_objects hvalue)

theorem objects_alloc_of_isSome (h : (heap.objects id).isSome) :
    (heap.alloc value).objects id = heap.objects id :=
  objects_alloc_of_ne heap value (ne_next_of_isSome h)

end Objects

theorem free_modify (heap : Heap α) (id : ℕ) (f : α → α) :
    (heap.modify id f).free id = heap.free id := by
  simp only [free, modify, Function.update_idem]

theorem free_alloc (heap : Heap α) {id : ℕ} (hne : id ≠ heap.next) (value : α) :
    (heap.alloc value).free id = (heap.free id).alloc value := by
  rw [free, alloc, alloc, free]
  simp only [Heap.mk.injEq, and_true]
  exact Function.update_comm (Ne.symm hne) _ _ _

theorem modify_comm (heap : Heap α) {id other : ℕ} (hne : id ≠ other) (f g : α → α) :
    (heap.modify other g).modify id f = (heap.modify id f).modify other g := by
  simp only [modify, Function.update_of_ne hne, Function.update_of_ne (Ne.symm hne)]
  congr 1
  exact Function.update_comm (Ne.symm hne) _ _ _

/-! ## Properties of all objects -/

section ForAll

variable {heap : Heap α} {P : α → Prop} (h : ∀ id value, heap.objects id = some value → P value)
include h

theorem forall_alloc {value : α} (hvalue : P value) {id : ℕ} {found : α}
    (hfound : (heap.alloc value).objects id = some found) : P found := by
  by_cases hid : id = heap.next
  · rw [hid, objects_alloc_self] at hfound
    exact Option.some.inj hfound ▸ hvalue
  · rw [objects_alloc_of_ne heap value hid] at hfound
    exact h id found hfound

theorem forall_modify {f : α → α} {id : ℕ}
    (hf : ∀ value, heap.objects id = some value → P (f value))
    {other : ℕ} {found : α} (hfound : (heap.modify id f).objects other = some found) : P found := by
  by_cases hother : other = id
  · rw [hother, objects_modify_self] at hfound
    obtain ⟨value, hvalue, hsame⟩ := Option.map_eq_some_iff.mp hfound
    exact hsame ▸ hf value hvalue
  · rw [objects_modify_of_ne heap f hother] at hfound
    exact h other found hfound

theorem forall_free {id other : ℕ} {found : α}
    (hfound : (heap.free id).objects other = some found) :
    P found := by
  by_cases hother : other = id
  · rw [hother, objects_free_self] at hfound
    exact absurd hfound (by simp)
  · rw [objects_free_of_ne heap hother] at hfound
    exact h other found hfound

end ForAll

/-! ## Counting -/

/-- The numbers of the objects that have not been freed. -/
def live (heap : Heap α) : Finset ℕ :=
  (Finset.range heap.next).filter fun id ↦ (heap.objects id).isSome

def size (heap : Heap α) : ℕ := heap.live.card

theorem mem_live {heap : Heap α} {id : ℕ} : id ∈ heap.live ↔ (heap.objects id).isSome := by
  simp only [live, Finset.mem_filter, Finset.mem_range, and_iff_right_iff_imp]
  intro h
  obtain ⟨value, hvalue⟩ := Option.isSome_iff_exists.mp h
  exact lt_next_of_objects hvalue

/-- There cannot be more different live objects than numbers that were given out. -/
theorem length_le_next {heap : Heap α} {ids : List ℕ} (hnodup : ids.Nodup)
    (hlive : ∀ id ∈ ids, (heap.objects id).isSome) : ids.length ≤ heap.next := by
  have hsubset : ids.toFinset ⊆ Finset.range heap.next := by
    intro id hid
    obtain ⟨value, hvalue⟩ := Option.isSome_iff_exists.mp (hlive id (List.mem_toFinset.mp hid))
    exact Finset.mem_range.mpr (lt_next_of_objects hvalue)
  calc ids.length = ids.toFinset.card := (List.toFinset_card_of_nodup hnodup).symm
    _ ≤ heap.next := (Finset.card_le_card hsubset).trans_eq (Finset.card_range _)

theorem live_alloc (heap : Heap α) (value : α) :
    (heap.alloc value).live = insert heap.next heap.live := by
  ext id
  rw [Finset.mem_insert, mem_live, mem_live]
  by_cases hid : id = heap.next
  · simp [hid]
  · simp [objects_alloc_of_ne heap value hid, hid]

theorem size_alloc (heap : Heap α) (value : α) : (heap.alloc value).size = heap.size + 1 := by
  have hnot : heap.next ∉ heap.live := by simp [mem_live, heap.fresh heap.next (Nat.le_refl _)]
  calc (heap.alloc value).size = (insert heap.next heap.live).card := by rw [size, live_alloc]
    _ = heap.size + 1 := Finset.card_insert_of_notMem hnot

theorem live_modify (heap : Heap α) (id : ℕ) (f : α → α) : (heap.modify id f).live = heap.live := by
  ext other
  rw [mem_live, mem_live]
  by_cases hother : other = id
  · simp [hother]
  · rw [objects_modify_of_ne heap f hother]

@[simp] theorem size_modify (heap : Heap α) (id : ℕ) (f : α → α) :
    (heap.modify id f).size = heap.size := by
  rw [size, live_modify, size]

theorem live_free (heap : Heap α) (id : ℕ) : (heap.free id).live = heap.live.erase id := by
  ext other
  rw [Finset.mem_erase, mem_live, mem_live]
  by_cases hother : other = id
  · simp [hother]
  · simp [objects_free_of_ne heap hother, hother]

theorem size_free {heap : Heap α} {id : ℕ} {value : α} (h : heap.objects id = some value) :
    (heap.free id).size + 1 = heap.size := by
  have hmem : id ∈ heap.live := by simp [mem_live, h]
  calc (heap.free id).size + 1 = (heap.live.erase id).card + 1 := by rw [size, live_free]
    _ = heap.size := Finset.card_erase_add_one hmem

/-! ## Sums over all objects -/

/-- What the object with a number counts for. -/
def amount (f : α → ℤ) (heap : Heap α) (id : ℕ) : ℤ := (heap.objects id).elim 0 f

def total (f : α → ℤ) (heap : Heap α) : ℤ := ∑ id ∈ Finset.range heap.next, heap.amount f id

theorem amount_of_objects (f : α → ℤ) {heap : Heap α} {id : ℕ} {value : α}
    (h : heap.objects id = some value) : heap.amount f id = f value := by
  rw [amount, h, Option.elim_some]

theorem total_alloc (f : α → ℤ) (heap : Heap α) (value : α) :
    (heap.alloc value).total f = heap.total f + f value := by
  have hold : ∀ id ∈ Finset.range heap.next, (heap.alloc value).amount f id = heap.amount f id := by
    intro id hid
    rw [amount, objects_alloc_of_ne heap value (Nat.ne_of_lt (Finset.mem_range.mp hid)), amount]
  calc (heap.alloc value).total f
      = ∑ id ∈ Finset.range heap.next, (heap.alloc value).amount f id +
          (heap.alloc value).amount f heap.next := Finset.sum_range_succ _ _
    _ = heap.total f + f value := by
        rw [Finset.sum_congr rfl hold, amount_of_objects f (heap.objects_alloc_self value), total]

/-- Two heaps that differ in one object. -/
theorem total_of_differ (f : α → ℤ) {heap heap' : Heap α} {id : ℕ} {value : α}
    (h : heap.objects id = some value) (hnext : heap'.next = heap.next)
    (hother : ∀ other, other ≠ id → heap'.objects other = heap.objects other) :
    heap'.total f = heap.total f - f value + heap'.amount f id := by
  have hid : id ∈ Finset.range heap.next := Finset.mem_range.mpr (lt_next_of_objects h)
  have hrest : ∀ other ∈ (Finset.range heap.next).erase id,
      heap'.amount f other = heap.amount f other := by
    intro other hmem
    rw [amount, hother other (Finset.ne_of_mem_erase hmem), amount]
  have hold : heap.total f =
      f value + ∑ other ∈ (Finset.range heap.next).erase id, heap.amount f other := by
    rw [total, ← Finset.add_sum_erase _ _ hid, amount_of_objects f h]
  calc heap'.total f
      = heap'.amount f id + ∑ other ∈ (Finset.range heap.next).erase id, heap'.amount f other := by
        rw [total, hnext, ← Finset.add_sum_erase _ _ hid]
    _ = heap'.amount f id + ∑ other ∈ (Finset.range heap.next).erase id, heap.amount f other := by
        rw [Finset.sum_congr rfl hrest]
    _ = heap.total f - f value + heap'.amount f id := by omega

theorem total_modify (f : α → ℤ) (heap : Heap α) (g : α → α) {id : ℕ} {value : α}
    (h : heap.objects id = some value) :
    (heap.modify id g).total f = heap.total f - f value + f (g value) := by
  have hnew : (heap.modify id g).objects id = some (g value) := by
    rw [objects_modify_self, h, Option.map_some]
  calc (heap.modify id g).total f = heap.total f - f value + (heap.modify id g).amount f id :=
        total_of_differ f h rfl fun _ hother ↦ objects_modify_of_ne heap g hother
    _ = heap.total f - f value + f (g value) := by rw [amount_of_objects f hnew]

theorem total_free (f : α → ℤ) {heap : Heap α} {id : ℕ} {value : α}
    (h : heap.objects id = some value) :
    (heap.free id).total f = heap.total f - f value := by
  calc (heap.free id).total f = heap.total f - f value + (heap.free id).amount f id :=
        total_of_differ f h rfl fun _ hother ↦ objects_free_of_ne heap hother
    _ = heap.total f - f value := by rw [amount, objects_free_self, Option.elim_none, add_zero]

theorem amount_nonneg {f : α → ℤ} (hf : ∀ value, 0 ≤ f value) (heap : Heap α) (id : ℕ) :
    0 ≤ heap.amount f id := by
  unfold amount
  cases heap.objects id with
  | none => exact le_refl 0
  | some value => exact hf value

theorem part_le_total {f : α → ℤ} (hf : ∀ value, 0 ≤ f value) {heap : Heap α} {id : ℕ} {value : α}
    (h : heap.objects id = some value) : f value ≤ heap.total f := by
  rw [← amount_of_objects f h]
  exact Finset.single_le_sum (fun other _ ↦ amount_nonneg hf heap other)
    (Finset.mem_range.mpr (lt_next_of_objects h))

/-- Two different objects have their parts in the total. -/
theorem parts_le_total {f : α → ℤ} (hf : ∀ value, 0 ≤ f value) {heap : Heap α} {id other : ℕ}
    {value found : α} (h : heap.objects id = some value) (hother : heap.objects other = some found)
    (hne : other ≠ id) : f value + f found ≤ heap.total f := by
  have hrest : (heap.free id).objects other = some found := by
    rw [objects_free_of_ne heap hne, hother]
  have hle := part_le_total hf hrest
  rw [total_free f h] at hle
  omega

theorem total_eq_zero {f : α → ℤ} {heap : Heap α}
    (h : ∀ id value, heap.objects id = some value → f value = 0) : heap.total f = 0 := by
  apply Finset.sum_eq_zero
  intro id _
  unfold amount
  cases hid : heap.objects id with
  | none => rfl
  | some value => exact h id value hid

/-! ## Freed objects -/

/-- The object has been allocated and freed. -/
def Freed (heap : Heap α) (id : ℕ) : Prop := id < heap.next ∧ heap.objects id = none

theorem freed_free {heap : Heap α} {id : ℕ} (h : id < heap.next) : (heap.free id).Freed id :=
  ⟨h, heap.objects_free_self⟩

theorem Freed.alloc {heap : Heap α} {id : ℕ} (h : heap.Freed id) (value : α) :
    (heap.alloc value).Freed id :=
  ⟨Nat.lt_succ_of_lt h.1, by rw [objects_alloc_of_ne heap value (Nat.ne_of_lt h.1), h.2]⟩

theorem Freed.modify {heap : Heap α} {id : ℕ} (h : heap.Freed id) (other : ℕ) (f : α → α) :
    (heap.modify other f).Freed id := by
  refine ⟨h.1, ?_⟩
  by_cases hid : id = other
  · rw [← hid, objects_modify_self, h.2, Option.map_none]
  · rw [objects_modify_of_ne heap f hid, h.2]

theorem Freed.free {heap : Heap α} {id : ℕ} (h : heap.Freed id) (other : ℕ) :
    (heap.free other).Freed id := by
  refine ⟨h.1, ?_⟩
  by_cases hid : id = other
  · rw [hid, objects_free_self]
  · rw [objects_free_of_ne heap hid, h.2]

end Heap

end Icecast.Lib
