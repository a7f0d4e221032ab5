import Mathlib.Data.List.Basic

/-!
# Checked accesses to memory

An array is the list of its elements. An access outside of it, or a subtraction that would go below zero,
ends the run with a fault; the fault is given by the caller, so that runs can tell their arrays apart.
-/

namespace Icecast.Lib.Checked

variable {ε : Type*} {α β : Type}

@[simp]
theorem ok_bind (value : α) (next : α → Except ε β) :
    ((Except.ok value : Except ε α) >>= next) = next value := rfl

@[simp]
theorem error_bind (fault : ε) (next : α → Except ε β) :
    ((Except.error fault : Except ε α) >>= next) = .error fault := rfl

/-- A run that does not end with a fault has gone through all of its parts. -/
theorem bind_eq_ok {run : Except ε α} {next : α → Except ε β} {result : β} :
    (run >>= next) = .ok result ↔ ∃ value, run = .ok value ∧ next value = .ok result := by
  cases run with
  | error fault => simp
  | ok value => simp

/-- A loop ends without a fault if and only if each of its turns does, when that does not depend on the
state. -/
theorem foldlM_ok_iff {σ : Type} {f : σ → α → Except ε σ} {P : α → Prop} {list : List α}
    (hturn : ∀ a ∈ list, ∀ state, (∃ result, f state a = .ok result) ↔ P a) (state : σ) :
    (∃ result, list.foldlM f state = .ok result) ↔ ∀ a ∈ list, P a := by
  induction list generalizing state with
  | nil => exact iff_of_true ⟨state, rfl⟩ (by simp)
  | cons a list ih =>
    have hfirst := hturn a List.mem_cons_self state
    rw [List.foldlM_cons, List.forall_mem_cons, ← hfirst]
    cases hrun : f state a with
    | error fault => exact iff_of_false nofun fun hboth ↦ nomatch hboth.1
    | ok after =>
      rw [ok_bind, ih (fun b hb ↦ hturn b (List.mem_cons_of_mem a hb)) after]
      exact (and_iff_right ⟨after, rfl⟩).symm

/-- A loop over the places of a list is one over its elements. -/
theorem foldlM_range {σ : Type} {f : σ → ℕ → Except ε σ} {g : σ → α → Except ε σ} (list : List α)
    (hturn : ∀ i, ∀ a ∈ list[i]?, ∀ state, f state i = g state a) (state : σ) :
    (List.range list.length).foldlM f state = list.foldlM g state := by
  induction list generalizing f state with
  | nil => rfl
  | cons a list ih =>
    rw [List.length_cons, List.range_succ_eq_map, List.foldlM_cons, List.foldlM_cons,
      hturn 0 a rfl state]
    congr 1
    funext after
    rw [List.foldlM_map]
    exact ih (fun i b hb ↦ hturn (i + 1) b hb) after

/-- An invariant that every step keeps without a fault holds behind every run. -/
theorem foldlM_invariant {σ : Type} {f : σ → α → Except ε σ} {Inv : σ → Prop}
    (hstep : ∀ state a, Inv state → ∃ after, f state a = .ok after ∧ Inv after) (list : List α)
    {state : σ} (hinv : Inv state) : ∃ after, list.foldlM f state = .ok after ∧ Inv after := by
  induction list generalizing state with
  | nil => exact ⟨state, rfl, hinv⟩
  | cons a list ih =>
    obtain ⟨next, hrun, hnext⟩ := hstep state a hinv
    rw [List.foldlM_cons, hrun, ok_bind]
    exact ih hnext

section Arrays

variable {fault : ε} {memory : List α} {i n : ℕ} {value : α}

def load (fault : ε) (memory : List α) (i : ℕ) : Except ε α :=
  match memory[i]? with
  | some value => .ok value
  | none => .error fault

def store (fault : ε) (memory : List α) (i : ℕ) (value : α) : Except ε (List α) :=
  if i < memory.length then .ok (memory.set i value) else .error fault

theorem load_of_getElem? (h : memory[i]? = some value) : load fault memory i = .ok value := by
  rw [load, h]

theorem load_of_drop {rest : List α} (h : memory.drop i = value :: rest) :
    load fault memory i = .ok value := by
  apply load_of_getElem?
  rw [← List.head?_drop, h, List.head?_cons]

theorem lt_of_load (h : load fault memory i = .ok value) : i < memory.length := by
  unfold load at h
  split at h
  · rename_i hfound
    exact (List.getElem?_eq_some_iff.mp hfound).1
  · cases h

theorem store_of_lt (hlt : i < memory.length) :
    store fault memory i value = .ok (memory.set i value) := if_pos hlt

theorem length_of_store {after : List α} (h : store fault memory i value = .ok after) :
    after.length = memory.length := by
  unfold store at h
  split at h
  · rw [← Except.ok.inj h, List.length_set]
  · cases h

/-- So many elements from a place on. -/
def loadRange (fault : ε) (memory : List α) (start n : ℕ) : Except ε (List α) :=
  if start + n ≤ memory.length then .ok ((memory.drop start).take n) else .error fault

def storeRange (fault : ε) (memory : List α) (start : ℕ) (data : List α) : Except ε (List α) :=
  if start + data.length ≤ memory.length then
    .ok (memory.take start ++ data ++ memory.drop (start + data.length))
  else .error fault

theorem loadRange_of_le {start : ℕ} (hle : start + n ≤ memory.length) :
    loadRange fault memory start n = .ok ((memory.drop start).take n) := if_pos hle

theorem storeRange_of_le {start : ℕ} {data : List α} (hle : start + data.length ≤ memory.length) :
    storeRange fault memory start data =
      .ok (memory.take start ++ data ++ memory.drop (start + data.length)) := if_pos hle

/-- Moving something to the start of the array. -/
theorem storeRange_zero {data : List α} (hle : data.length ≤ memory.length) :
    storeRange fault memory 0 data = .ok (data ++ memory.drop data.length) := by
  rw [storeRange_of_le (by omega), List.take_zero, List.nil_append, Nat.zero_add]

theorem length_storeRange {start : ℕ} {data : List α} (hle : start + data.length ≤ memory.length) :
    (memory.take start ++ data ++ memory.drop (start + data.length)).length = memory.length := by
  simp only [List.length_append, List.length_take, List.length_drop]
  omega

/-- What is in the array up to the end of what has been stored. -/
theorem take_storeRange {start : ℕ} {data : List α} (hle : start + data.length ≤ memory.length) :
    (memory.take start ++ data ++ memory.drop (start + data.length)).take (start + data.length) =
      memory.take start ++ data := by
  apply List.take_left'
  rw [List.length_append, List.length_take]
  omega

end Arrays

/-- Subtraction of unsigned numbers. -/
def sub (fault : ε) (a b : ℕ) : Except ε ℕ := if b ≤ a then .ok (a - b) else .error fault

theorem sub_of_le {fault : ε} {a b : ℕ} (hle : b ≤ a) : sub fault a b = .ok (a - b) := if_pos hle

end Icecast.Lib.Checked
