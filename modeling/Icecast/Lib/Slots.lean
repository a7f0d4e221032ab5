import Mathlib.Data.List.Nodup

/-!
# Tables of slots

A table is a list of slots, each of them empty or taken by a key. When one slot is written the keys of the
others stay, so that no key is taken twice as long as none is written that another slot has.
-/

namespace Icecast.Lib.Slots

variable {α κ : Type*} (key : α → Option κ)

/-- The keys that are taken, in the order of the slots. -/
def keysOf (slots : List α) : List κ := slots.filterMap key

section Writing

variable {key} {slots front back : List α} {slot other : α} {k : κ}

theorem exists_eq_append_cons {i : ℕ} (h : i < slots.length) :
    ∃ slot front back, slots = front ++ slot :: back ∧ front.length = i := by
  refine ⟨slots[i], slots.take i, slots.drop (i + 1), ?_, List.length_take_of_le (Nat.le_of_lt h)⟩
  rw [List.getElem_cons_drop, List.take_append_drop]

theorem mem_of_eq_append_cons (h : slots = front ++ slot :: back) : slot ∈ slots := by
  rw [h]
  exact List.mem_append_right _ List.mem_cons_self

theorem set_append_cons (front : List α) (slot : α) (back : List α) (new : α) :
    (front ++ slot :: back).set front.length new = front ++ new :: back := by
  rw [List.set_append_right _ _ (Nat.le_refl _), Nat.sub_self, List.set_cons_zero]

theorem getElem?_append_cons (front : List α) (slot : α) (back : List α) :
    (front ++ slot :: back)[front.length]? = some slot := by
  rw [List.getElem?_append_right (Nat.le_refl _), Nat.sub_self, List.getElem?_cons_zero]

theorem mem_append_cons_iff : other ∈ front ++ slot :: back ↔ other = slot ∨ other ∈ front ++ back := by
  rw [List.mem_append, List.mem_cons, or_left_comm, ← List.mem_append]

theorem mem_keysOf : k ∈ keysOf key slots ↔ ∃ slot ∈ slots, key slot = some k := List.mem_filterMap

theorem mem_keysOf_of_mem (hslot : slot ∈ slots) (hkey : key slot = some k) : k ∈ keysOf key slots :=
  mem_keysOf.mpr ⟨slot, hslot, hkey⟩

/-- The keys of the slot that is written, and those of the others. -/
theorem mem_keysOf_append_cons :
    k ∈ keysOf key (front ++ slot :: back) ↔ key slot = some k ∨ k ∈ keysOf key (front ++ back) := by
  rw [mem_keysOf, mem_keysOf]
  constructor
  · rintro ⟨other, hother, hkey⟩
    apply (mem_append_cons_iff.mp hother).imp
    · intro hsame
      rwa [← hsame]
    · intro hmem
      exact ⟨other, hmem, hkey⟩
  · intro h
    rcases h with hkey | ⟨other, hother, hkey⟩
    · exact ⟨slot, mem_append_cons_iff.mpr (.inl rfl), hkey⟩
    · exact ⟨other, mem_append_cons_iff.mpr (.inr hother), hkey⟩

/-- Keys are single if those of the others are, and none of these is written. -/
theorem nodup_keysOf_append_cons : (keysOf key (front ++ slot :: back)).Nodup ↔
    (keysOf key (front ++ back)).Nodup ∧ ∀ k ∈ key slot, k ∉ keysOf key (front ++ back) := by
  rw [keysOf, keysOf, List.filterMap_append, List.filterMap_append]
  cases hkey : key slot with
  | none =>
    rw [List.filterMap_cons_none hkey]
    simp
  | some k =>
    rw [List.filterMap_cons_some hkey, List.nodup_middle, List.nodup_cons, and_comm]
    simp

/-- Where keys are single, a key tells the slot. -/
theorem eq_of_key_eq (hsingle : (keysOf key slots).Nodup) (hslot : slot ∈ slots) (hkey : key slot = some k)
    (hother : other ∈ slots) (hsame : key other = some k) : other = slot := by
  obtain ⟨front, back, rfl⟩ := List.append_of_mem hslot
  apply (mem_append_cons_iff.mp hother).resolve_right
  intro hmem
  exact (nodup_keysOf_append_cons.mp hsingle).2 k hkey (mem_keysOf_of_mem hmem hsame)

end Writing

end Icecast.Lib.Slots
