import Icecast.Lib.Checked
import Icecast.Lib.Heap
import Icecast.Lib.LinkedList
import Mathlib.Data.List.Count
import Mathlib.Tactic.Ring

/-!
# Lists that are counted and share their ends

A cell has a count of the pointers to it: those that somebody holds, and those of the cells before it. The
one who gives back the last pointer frees the cell and gives back its pointer to the next one. A list may be
appended to another one, and is then the end of every list that had the same last cell.

A cell with the count 0 is being freed, and its pointer to the next cell is no longer its own.
-/

namespace Icecast.Lib.SharedList

open Checked LinkedList

structure Cell (α : Type) where
  refcount : ℤ
  next : Option ℕ
  value : α

/-- An access to a cell that is not there any more, and a recursion that does not end. -/
inductive Fault where
  | freed
  | endless
  deriving DecidableEq

abbrev Memory (α : Type) := Heap (Cell α)

variable {α : Type}

/-! ## Operations -/

def load (memory : Memory α) (id : ℕ) : Except Fault (Cell α) :=
  match memory.objects id with
  | some cell => .ok cell
  | none => .error .freed

def Cell.addref (cell : Cell α) : Cell α := { cell with refcount := cell.refcount + 1 }

def Cell.unref (cell : Cell α) : Cell α := { cell with refcount := cell.refcount - 1 }

def Cell.link (next : Option ℕ) (cell : Cell α) : Cell α := { cell with next := next }

def addref (memory : Memory α) : Option ℕ → Except Fault (Memory α)
  | none => .ok memory
  | some id => do
    let _ ← load memory id
    return memory.modify id Cell.addref

/-- One pointer is given back. The values of the cells that are freed are listed from the first cell on. -/
def release : ℕ → Memory α → Option ℕ → Except Fault (Memory α × List α)
  | _, memory, none => .ok (memory, [])
  | 0, _, some _ => .error .endless
  | fuel + 1, memory, some id => do
    let cell ← load memory id
    let memory := memory.modify id Cell.unref
    if cell.refcount - 1 ≠ 0 then return (memory, [])
    else
      let (memory, values) ← release fuel memory cell.next
      let _ ← load memory id
      return (memory.free id, cell.value :: values)

/-- As many cells as there have been. -/
def releaseAll (memory : Memory α) (start : Option ℕ) : Except Fault (Memory α × List α) :=
  release (memory.next + 1) memory start

/-- From a cell to the last one; the pointer that is held is moved along. -/
def walkToLast : ℕ → Memory α → ℕ → Except Fault (Memory α × ℕ)
  | 0, _, _ => .error .endless
  | fuel + 1, memory, cur => do
    let cell ← load memory cur
    match cell.next with
    | none => return (memory, cur)
    | some next =>
      let memory ← addref memory (some next)
      let (memory, _) ← releaseAll memory (some cur)
      walkToLast fuel memory next

def append (memory : Memory α) (start : ℕ) (tail : Option ℕ) : Except Fault (Memory α) := do
  let memory ← addref memory (some start)
  let (memory, last) ← walkToLast (memory.next + 1) memory start
  let memory ← addref (memory.modify last (Cell.link tail)) tail
  let (memory, _) ← releaseAll memory (some last)
  return memory

/-- A new cell is appended, and its own pointer is given back. -/
def push (memory : Memory α) (start : ℕ) (value : α) : Except Fault (Memory α × List α) := do
  let id := memory.next
  let memory ← append (memory.alloc ⟨1, none, value⟩) start (some id)
  releaseAll memory (some id)

/-! ## Counts -/

def nextOf (memory : Memory α) (id : ℕ) : Option ℕ := (memory.objects id).bind (·.next)

/-- Whether a cell points to another one; the pointer of a cell that is being freed does not count. -/
def pointsTo (target : ℕ) (cell : Cell α) : ℤ :=
  if cell.refcount ≠ 0 ∧ cell.next = some target then 1 else 0

theorem pointsTo_nonneg (target : ℕ) (cell : Cell α) : 0 ≤ pointsTo target cell := by
  unfold pointsTo
  split
  · exact Int.one_nonneg
  · exact le_refl 0

/-- Every pointer is counted, leads to a cell, and the cells behind it come to an end. -/
structure Counted (memory : Memory α) (held : List ℕ) : Prop where
  refcount : ∀ id cell, memory.objects id = some cell →
    cell.refcount = held.count id + memory.total (pointsTo id)
  held : ∀ id ∈ held, (memory.objects id).isSome
  next : ∀ id cell, memory.objects id = some cell → cell.refcount ≠ 0 → ∀ other, cell.next = some other →
    (memory.objects other).isSome
  ends : ∀ id cell, memory.objects id = some cell → cell.refcount ≠ 0 →
    ∃ nodes, Chain (nextOf memory) (some id) nodes

/-- Nothing is being freed. -/
def Settled (memory : Memory α) : Prop := ∀ id cell, memory.objects id = some cell → cell.refcount ≠ 0

/-- The cells that are left are as they were, apart from their counts. -/
def Remains (before after : Memory α) : Prop :=
  ∀ id cell, after.objects id = some cell → ∃ old, before.objects id = some old ∧
    old.next = cell.next ∧ old.value = cell.value

theorem Remains.refl (memory : Memory α) : Remains memory memory :=
  fun _ cell hcell ↦ ⟨cell, hcell, rfl, rfl⟩

theorem Remains.trans {first second third : Memory α} (h : Remains first second)
    (h' : Remains second third) : Remains first third := by
  intro id cell hcell
  obtain ⟨old, hold, hnext, hvalue⟩ := h' id cell hcell
  obtain ⟨older, holder, hnext', hvalue'⟩ := h id old hold
  exact ⟨older, holder, hnext'.trans hnext, hvalue'.trans hvalue⟩

section Counted

variable {memory : Memory α} {held : List ℕ} {id : ℕ} {cell : Cell α}

theorem load_eq (h : memory.objects id = some cell) : load memory id = .ok cell := by
  rw [load, h]

theorem nextOf_eq (h : memory.objects id = some cell) : nextOf memory id = cell.next := by
  rw [nextOf, h, Option.bind_some]

theorem Counted.refcount_nonneg (h : Counted memory held) (hcell : memory.objects id = some cell) :
    0 ≤ cell.refcount := by
  rw [h.refcount id cell hcell]
  have htotal : 0 ≤ memory.total (pointsTo id) :=
    (pointsTo_nonneg id cell).trans (Heap.part_le_total (pointsTo_nonneg id) hcell)
  omega

theorem Counted.exists_cell (h : Counted memory held) (hid : id ∈ held) :
    ∃ cell, memory.objects id = some cell ∧ cell.refcount ≠ 0 := by
  obtain ⟨cell, hcell⟩ := Option.isSome_iff_exists.mp (h.held id hid)
  refine ⟨cell, hcell, ?_⟩
  have hcount := h.refcount id cell hcell
  have hpos := List.count_pos_iff.mpr hid
  have hnonneg : 0 ≤ memory.total (pointsTo id) :=
    (pointsTo_nonneg id cell).trans (Heap.part_le_total (pointsTo_nonneg id) hcell)
  omega

theorem Counted.refcount_ne_of_held (h : Counted memory (id :: held))
    (hcell : memory.objects id = some cell) : cell.refcount ≠ 0 := by
  obtain ⟨found, hfound, hactive⟩ := h.exists_cell List.mem_cons_self
  rwa [Option.some.inj (hcell.symm.trans hfound)]

/-- The next cell is not being freed, either. -/
theorem Counted.refcount_ne_of_next (h : Counted memory held) (hcell : memory.objects id = some cell)
    (hactive : cell.refcount ≠ 0) {other : ℕ} (hnext : cell.next = some other) {found : Cell α}
    (hfound : memory.objects other = some found) : found.refcount ≠ 0 := by
  have hcount := h.refcount other found hfound
  have hpart := Heap.part_le_total (pointsTo_nonneg other) hcell
  rw [pointsTo, if_pos ⟨hactive, hnext⟩] at hpart
  omega

theorem Counted.perm {held' : List ℕ} (h : Counted memory held) (hperm : held.Perm held') :
    Counted memory held' where
  refcount id cell hcell := by
    rw [h.refcount id cell hcell, hperm.count_eq]
  held id hid := h.held id (hperm.mem_iff.mpr hid)
  next := h.next
  ends := h.ends

/-- All cells behind one that is not being freed. -/
theorem Counted.active_of_chain (h : Counted memory held) {nodes : List ℕ} {start : Option ℕ}
    (hchain : Chain (nextOf memory) start nodes)
    (hstart : ∀ id, start = some id → ∃ cell, memory.objects id = some cell ∧ cell.refcount ≠ 0) :
    ∀ node ∈ nodes, ∃ cell, memory.objects node = some cell ∧ cell.refcount ≠ 0 := by
  induction nodes generalizing start with
  | nil => simp
  | cons node nodes ih =>
    obtain ⟨cell, hcell, hactive⟩ := hstart node hchain.1
    refine List.forall_mem_cons.mpr ⟨⟨cell, hcell, hactive⟩, ih hchain.2 ?_⟩
    intro other hother
    rw [nextOf_eq hcell] at hother
    obtain ⟨found, hfound⟩ := Option.isSome_iff_exists.mp (h.next node cell hcell hactive other hother)
    exact ⟨found, hfound, h.refcount_ne_of_next hcell hactive hother hfound⟩

/-- A list has no more cells than there have been. -/
theorem Counted.chain_length (h : Counted memory held) {nodes : List ℕ}
    (hcell : memory.objects id = some cell) (hactive : cell.refcount ≠ 0)
    (hchain : Chain (nextOf memory) (some id) nodes) : nodes.length ≤ memory.next := by
  apply Heap.length_le_next hchain.nodup
  intro node hnode
  obtain ⟨found, hfound, -⟩ := h.active_of_chain hchain
    (fun other hother ↦ ⟨cell, Option.some.inj hother ▸ hcell, hactive⟩) node hnode
  rw [hfound]
  rfl

/-! ## One count -/

theorem nextOf_modify {f : Cell α → Cell α} (hf : ∀ cell, (f cell).next = cell.next) :
    nextOf (memory.modify id f) = nextOf memory := by
  funext other
  unfold nextOf
  by_cases hother : other = id
  · rw [hother, Heap.objects_modify_self]
    cases memory.objects id with
    | none => rfl
    | some cell => exact hf cell
  · rw [Heap.objects_modify_of_ne memory f hother]

/-- A cell after a change of its count only. -/
theorem remains_modify {f : Cell α → Cell α} (hnext : ∀ cell, (f cell).next = cell.next)
    (hvalue : ∀ cell, (f cell).value = cell.value) : Remains memory (memory.modify id f) := by
  intro other cell hcell
  by_cases hother : other = id
  · rw [hother, Heap.objects_modify_self] at hcell
    obtain ⟨old, hold, rfl⟩ := Option.map_eq_some_iff.mp hcell
    exact ⟨old, hother ▸ hold, (hnext old).symm, (hvalue old).symm⟩
  · rw [Heap.objects_modify_of_ne memory f hother] at hcell
    exact ⟨cell, hcell, rfl, rfl⟩

/-- The count of a cell changes with the pointers to it. -/
theorem Counted.modify {held' : List ℕ} (h : Counted memory held) (hcell : memory.objects id = some cell)
    (f : Cell α → Cell α) (hnext : ∀ cell, (f cell).next = cell.next)
    (hactive : (f cell).refcount ≠ 0 → cell.refcount ≠ 0)
    (hlive : ∀ other ∈ held', (memory.objects other).isSome)
    (hcount : ∀ other, (held'.count other : ℤ) + pointsTo other (f cell) =
      held.count other + pointsTo other cell +
        if other = id then (f cell).refcount - cell.refcount else 0) :
    Counted (memory.modify id f) held' := by
  have hself : (memory.modify id f).objects id = some (f cell) := by
    rw [Heap.objects_modify_self, hcell, Option.map_some]
  have hother {other : ℕ} (hne : other ≠ id) : (memory.modify id f).objects other = memory.objects other :=
    Heap.objects_modify_of_ne memory f hne
  have hsome (other : ℕ) (hother : (memory.objects other).isSome) :
      ((memory.modify id f).objects other).isSome := by
    rw [← Heap.mem_live, Heap.live_modify, Heap.mem_live]
    exact hother
  have htotal (other : ℕ) := Heap.total_modify (pointsTo other) memory f hcell
  constructor
  · intro other found hfound
    have hsum := hcount other
    rw [htotal]
    by_cases hne : other = id
    · subst hne
      rw [hself, Option.some.injEq] at hfound
      rw [if_pos rfl, hfound] at hsum
      have hold := h.refcount other cell hcell
      rw [← hfound] at hsum ⊢
      omega
    · rw [hother hne] at hfound
      rw [if_neg hne] at hsum
      have hold := h.refcount other found hfound
      omega
  · exact fun other hmem ↦ hsome other (hlive other hmem)
  · intro other found hfound hne target htarget
    apply hsome
    by_cases heq : other = id
    · rw [heq, hself, Option.some.injEq] at hfound
      subst hfound
      exact h.next id cell hcell (hactive hne) target ((hnext cell).symm.trans htarget)
    · rw [hother heq] at hfound
      exact h.next other found hfound hne target htarget
  · intro other found hfound hne
    rw [nextOf_modify hnext]
    by_cases heq : other = id
    · rw [heq, hself, Option.some.injEq] at hfound
      subst hfound
      rw [heq]
      exact h.ends id cell hcell (hactive hne)
    · rw [hother heq] at hfound
      exact h.ends other found hfound hne

theorem pointsTo_of_active {other : Cell α} (hactive : cell.refcount ≠ 0) (hother : other.refcount ≠ 0)
    (hnext : other.next = cell.next) (target : ℕ) : pointsTo target other = pointsTo target cell := by
  unfold pointsTo
  rw [hnext]
  simp only [hactive, hother, ne_eq, not_false_eq_true, true_and]

theorem count_cons_int (held : List ℕ) (id other : ℕ) :
    ((id :: held).count other : ℤ) = held.count other + if other = id then 1 else 0 := by
  rw [List.count_cons]
  by_cases hother : other = id
  · rw [hother]
    simp
  · rw [if_neg hother, if_neg (by simpa using Ne.symm hother)]
    rfl

/-- Another pointer to a cell. -/
theorem Counted.addref (h : Counted memory held) (hcell : memory.objects id = some cell)
    (hactive : cell.refcount ≠ 0) : Counted (memory.modify id Cell.addref) (id :: held) := by
  have hnonneg := h.refcount_nonneg hcell
  apply h.modify hcell Cell.addref fun _ ↦ rfl
  · exact fun _ ↦ hactive
  · intro other hmem
    rcases List.mem_cons.mp hmem with rfl | hmem
    · rw [hcell]
      rfl
    · exact h.held other hmem
  · intro other
    have hnew : cell.addref.refcount ≠ 0 := by
      rw [Cell.addref]
      dsimp only
      omega
    have hdiff : cell.addref.refcount - cell.refcount = 1 := by
      rw [Cell.addref]
      ring
    rw [pointsTo_of_active hactive hnew rfl, count_cons_int, hdiff]
    ring

/-- A pointer is given back that was not the last one. -/
theorem Counted.unref (h : Counted memory (id :: held)) (hcell : memory.objects id = some cell)
    (hlast : cell.refcount - 1 ≠ 0) : Counted (memory.modify id Cell.unref) held := by
  have hactive := h.refcount_ne_of_held hcell
  apply h.modify hcell Cell.unref fun _ ↦ rfl
  · exact fun _ ↦ hactive
  · exact fun other hmem ↦ h.held other (List.mem_cons_of_mem id hmem)
  · intro other
    have hdiff : cell.unref.refcount - cell.refcount = -1 := by
      rw [Cell.unref]
      ring
    have hnew : cell.unref.refcount ≠ 0 := hlast
    rw [pointsTo_of_active hactive hnew rfl, count_cons_int, hdiff]
    split <;> ring

/-- With the last pointer the pointer to the next cell is to be given back. -/
theorem Counted.unref_last (h : Counted memory (id :: held)) (hcell : memory.objects id = some cell)
    (hlast : cell.refcount - 1 = 0) : Counted (memory.modify id Cell.unref) (cell.next.toList ++ held) := by
  have hactive := h.refcount_ne_of_held hcell
  apply h.modify hcell Cell.unref fun _ ↦ rfl
  · exact fun _ ↦ hactive
  · intro other hmem
    rcases List.mem_append.mp hmem with hmem | hmem
    · exact h.next id cell hcell hactive other (Option.mem_toList.mp hmem)
    · exact h.held other (List.mem_cons_of_mem id hmem)
  · intro other
    have hdiff : cell.unref.refcount - cell.refcount = -1 := by
      rw [Cell.unref]
      ring
    have hnone : pointsTo other cell.unref = 0 := by
      rw [pointsTo, if_neg]
      rintro ⟨hzero, -⟩
      exact hzero hlast
    have hpointer : (cell.next.toList.count other : ℤ) = pointsTo other cell := by
      rw [pointsTo]
      cases hnext : cell.next with
      | none => simp
      | some next =>
        rw [Option.toList_some, ← List.nil_append [next]]
        have hcount := count_cons_int [] next other
        rw [List.nil_append, hcount]
        by_cases hother : other = next
        · simp [hother, hactive]
        · simp [hother, Ne.symm hother]
    rw [List.count_append, Nat.cast_add, hpointer, hnone, count_cons_int, hdiff]
    split <;> ring

/-- The cell that is not counted any more goes. -/
theorem Counted.free (h : Counted memory held) (hcell : memory.objects id = some cell)
    (hzero : cell.refcount = 0) : Counted (memory.free id) held := by
  have hcount := h.refcount id cell hcell
  have htotal (target : ℕ) : (memory.free id).total (pointsTo target) = memory.total (pointsTo target) := by
    have hpoints : pointsTo target cell = 0 := if_neg fun hboth ↦ hboth.1 hzero
    rw [Heap.total_free _ hcell, hpoints]
    omega
  have hnotheld : id ∉ held := by
    intro hmem
    have hpos := List.count_pos_iff.mpr hmem
    have hnonneg : 0 ≤ memory.total (pointsTo id) :=
      (pointsTo_nonneg id cell).trans (Heap.part_le_total (pointsTo_nonneg id) hcell)
    omega
  have hother {other : ℕ} (hne : other ≠ id) : (memory.free id).objects other = memory.objects other :=
    Heap.objects_free_of_ne memory hne
  have hne {other : ℕ} {found : Cell α} (hfound : (memory.free id).objects other = some found) :
      other ≠ id := by
    rintro rfl
    rw [Heap.objects_free_self] at hfound
    cases hfound
  constructor
  · intro other found hfound
    rw [htotal]
    rw [hother (hne hfound)] at hfound
    exact h.refcount other found hfound
  · intro other hmem
    rw [hother (ne_of_mem_of_not_mem hmem hnotheld)]
    exact h.held other hmem
  · intro other found hfound hactive target htarget
    rw [hother (hne hfound)] at hfound
    obtain ⟨next, hnext⟩ := Option.isSome_iff_exists.mp (h.next other found hfound hactive target htarget)
    have htargetne : target ≠ id := by
      rintro rfl
      have hpos := h.refcount_ne_of_next hfound hactive htarget hnext
      rw [hcell, Option.some.injEq] at hnext
      exact hpos (hnext ▸ hzero)
    rw [hother htargetne, hnext]
    rfl
  · intro other found hfound hactive
    rw [hother (hne hfound)] at hfound
    obtain ⟨nodes, hchain⟩ := h.ends other found hfound hactive
    refine ⟨nodes, hchain.congr ?_⟩
    intro node hnode
    obtain ⟨passed, hpassed, hpositive⟩ := h.active_of_chain hchain
      (fun start hstart ↦ ⟨found, Option.some.inj hstart ▸ hfound, hactive⟩) node hnode
    have hnodene : node ≠ id := by
      rintro rfl
      rw [hcell, Option.some.injEq] at hpassed
      exact hpositive (hpassed ▸ hzero)
    rw [nextOf, hother hnodene, nextOf]

end Counted

/-! ## Giving back -/

/-- The cells that are being freed are the same ones. -/
def SameDying (before after : Memory α) : Prop :=
  ∀ id cell, cell.refcount = 0 → (before.objects id = some cell ↔ after.objects id = some cell)

/-- What the call has done: nobody else notices, and the freed values are the ones that are missing. -/
structure Released (before after : Memory α) (held : List ℕ) (values : List α) : Prop where
  counted : Counted after held
  remains : Remains before after
  dying : SameDying before after
  allocated : after.next = before.next
  missing : ∀ weight : α → ℤ, after.total (fun cell ↦ weight cell.value) + (values.map weight).sum =
    before.total fun cell ↦ weight cell.value

section Release

variable {memory : Memory α} {held : List ℕ} {id : ℕ} {cell : Cell α}

theorem total_unref (hcell : memory.objects id = some cell) (weight : α → ℤ) :
    (memory.modify id Cell.unref).total (fun cell ↦ weight cell.value) =
      memory.total fun cell ↦ weight cell.value := by
  rw [Heap.total_modify _ _ _ hcell, Cell.unref]
  ring

theorem released_unref (h : Counted memory (id :: held)) (hcell : memory.objects id = some cell)
    (hlast : cell.refcount - 1 ≠ 0) : Released memory (memory.modify id Cell.unref) held [] where
  counted := h.unref hcell hlast
  remains := remains_modify (fun _ ↦ rfl) fun _ ↦ rfl
  dying := by
    intro other found hzero
    by_cases hother : other = id
    · rw [hother, Heap.objects_modify_self, hcell, Option.map_some, Option.some.injEq, Option.some.injEq]
      constructor
      · intro hsame
        exact absurd (hsame ▸ hzero) (h.refcount_ne_of_held hcell)
      · intro hsame
        have hnew : cell.unref.refcount = 0 := by rw [hsame, hzero]
        exact absurd hnew hlast
    · rw [Heap.objects_modify_of_ne memory _ hother]
  allocated := rfl
  missing weight := by
    rw [total_unref hcell]
    simp

/-- The last pointer to a cell is given back, and then its pointer to the next one. -/
theorem released_last {after : Memory α} {values : List α} (h : Counted memory (id :: held))
    (hcell : memory.objects id = some cell) (hlast : cell.refcount - 1 = 0)
    (hrest : Released (memory.modify id Cell.unref) after held values) :
    after.objects id = some cell.unref ∧ Released memory (after.free id) held (cell.value :: values) := by
  have hself : (memory.modify id Cell.unref).objects id = some cell.unref := by
    rw [Heap.objects_modify_self, hcell, Option.map_some]
  have hkept : after.objects id = some cell.unref := (hrest.dying id cell.unref hlast).mp hself
  have hremains : Remains memory (after.free id) := by
    intro other found hfound
    apply (remains_modify (fun _ ↦ rfl) fun _ ↦ rfl : Remains memory (memory.modify id Cell.unref)).trans
      hrest.remains other found
    by_cases hother : other = id
    · rw [hother, Heap.objects_free_self] at hfound
      cases hfound
    · rwa [Heap.objects_free_of_ne after hother] at hfound
  refine ⟨hkept, hrest.counted.free hkept hlast, hremains, ?_, hrest.allocated, ?_⟩
  · intro other found hzero
    by_cases hother : other = id
    · rw [hother, Heap.objects_free_self, hcell, Option.some.injEq]
      constructor
      · intro hsame
        exact absurd (hsame ▸ hzero) (h.refcount_ne_of_held hcell)
      · intro hnone
        cases hnone
    · rw [Heap.objects_free_of_ne after hother, ← hrest.dying other found hzero,
        Heap.objects_modify_of_ne memory _ hother]
  · intro weight
    have hmissing := hrest.missing weight
    rw [total_unref hcell] at hmissing
    rw [Heap.total_free _ hkept, List.map_cons, List.sum_cons, ← hmissing, Cell.unref]
    ring

theorem release_ok {fuel : ℕ} {nodes : List ℕ} (h : Counted memory (id :: held))
    (hchain : Chain (nextOf memory) (some id) nodes) (hfuel : nodes.length ≤ fuel) :
    ∃ after values, release fuel memory (some id) = .ok (after, values) ∧
      Released memory after held values := by
  induction fuel generalizing memory id nodes with
  | zero =>
    rw [List.length_eq_zero_iff.mp (Nat.le_zero.mp hfuel)] at hchain
    cases hchain
  | succ fuel ih =>
    obtain ⟨cell, hcell⟩ := Option.isSome_iff_exists.mp (h.held id List.mem_cons_self)
    rw [release, load_eq hcell, ok_bind]
    dsimp only
    by_cases hlast : cell.refcount - 1 = 0
    · rw [if_neg (not_not.mpr hlast)]
      have hcounted := h.unref_last hcell hlast
      cases nodes with
      | nil => cases hchain
      | cons node nodes =>
        obtain ⟨hnode, hchain⟩ := hchain
        rw [← Option.some.inj hnode, nextOf_eq hcell] at hchain
        have hrest : ∃ after values, release fuel (memory.modify id Cell.unref) cell.next =
            .ok (after, values) ∧ Released (memory.modify id Cell.unref) after held values := by
          cases hnext : cell.next with
          | none =>
            rw [hnext, Option.toList_none, List.nil_append] at hcounted
            refine ⟨_, [], ?_, hcounted, Remains.refl _, fun _ _ _ ↦ Iff.rfl, rfl, ?_⟩
            · cases fuel <;> rfl
            · simp
          | some next =>
            rw [hnext, Option.toList_some, List.singleton_append] at hcounted
            have hsame : nextOf (memory.modify id Cell.unref) = nextOf memory := nextOf_modify fun _ ↦ rfl
            rw [hnext, ← hsame] at hchain
            exact ih hcounted hchain (Nat.le_of_succ_le_succ hfuel)
        obtain ⟨after, values, hrun, hreleased⟩ := hrest
        obtain ⟨hkept, hall⟩ := released_last h hcell hlast hreleased
        refine ⟨after.free id, cell.value :: values, ?_, hall⟩
        rw [hrun, ok_bind]
        dsimp only
        rw [load_eq hkept, ok_bind]
        rfl
    · rw [if_pos hlast]
      exact ⟨_, [], rfl, released_unref h hcell hlast⟩

theorem releaseAll_ok (h : Counted memory (id :: held)) :
    ∃ after values, releaseAll memory (some id) = .ok (after, values) ∧
      Released memory after held values := by
  obtain ⟨cell, hcell⟩ := Option.isSome_iff_exists.mp (h.held id List.mem_cons_self)
  have hactive := h.refcount_ne_of_held hcell
  obtain ⟨nodes, hchain⟩ := h.ends id cell hcell hactive
  exact release_ok h hchain (Nat.le_succ_of_le (h.chain_length hcell hactive hchain))

end Release

/-! ## Contents -/

def valueOf (memory : Memory α) (id : ℕ) : Option α := (memory.objects id).map (·.value)

/-- The values of a list. -/
def Shows (memory : Memory α) (start : Option ℕ) (values : List α) : Prop :=
  ∃ nodes, Chain (nextOf memory) start nodes ∧ nodes.map (valueOf memory) = values.map some

/-- The last cell of a list. -/
def EndsIn (memory : Memory α) (start : Option ℕ) (last : ℕ) : Prop :=
  ∃ front, Chain (nextOf memory) start (front ++ [last])

section Contents

variable {memory after : Memory α} {held : List ℕ} {id : ℕ} {start : Option ℕ} {values values' : List α}

theorem Shows.unique (h : Shows memory start values) (h' : Shows memory start values') :
    values = values' := by
  obtain ⟨nodes, hchain, hvalues⟩ := h
  obtain ⟨nodes', hchain', hvalues'⟩ := h'
  apply List.map_injective_iff.mpr (Option.some_injective α)
  rw [← hvalues, hchain.unique hchain', hvalues']

theorem Shows.eq_nil (h : Shows memory none values) : values = [] := by
  obtain ⟨nodes, hchain, hvalues⟩ := h
  cases nodes with
  | nil => exact List.map_eq_nil_iff.mp hvalues.symm
  | cons node nodes => cases hchain.1

theorem Shows.cons {cell : Cell α} (h : Shows memory (some id) values)
    (hcell : memory.objects id = some cell) :
    ∃ rest, values = cell.value :: rest ∧ Shows memory cell.next rest := by
  obtain ⟨nodes, hchain, hvalues⟩ := h
  cases nodes with
  | nil => cases hchain
  | cons node nodes =>
    obtain ⟨hnode, hchain⟩ := hchain
    rw [← Option.some.inj hnode, List.map_cons, valueOf, hcell, Option.map_some] at hvalues
    rw [← Option.some.inj hnode, nextOf_eq hcell] at hchain
    cases values with
    | nil => cases hvalues
    | cons value rest =>
      rw [List.map_cons, List.cons.injEq, Option.some.injEq] at hvalues
      exact ⟨rest, by rw [hvalues.1], nodes, hchain, hvalues.2⟩

theorem Counted.exists_shows (h : Counted memory held)
    (hstart : ∀ id, start = some id → ∃ cell, memory.objects id = some cell ∧ cell.refcount ≠ 0) :
    ∃ values, Shows memory start values := by
  obtain ⟨nodes, hchain⟩ : ∃ nodes, Chain (nextOf memory) start nodes := by
    cases start with
    | none => exact ⟨[], rfl⟩
    | some id =>
      obtain ⟨cell, hcell, hactive⟩ := hstart id rfl
      exact h.ends id cell hcell hactive
  refine ⟨nodes.filterMap (valueOf memory), nodes, hchain, ?_⟩
  have hall := h.active_of_chain hchain hstart
  clear hchain
  induction nodes with
  | nil => rfl
  | cons node nodes ih =>
    obtain ⟨⟨cell, hcell, -⟩, hrest⟩ := List.forall_mem_cons.mp hall
    have hvalue : valueOf memory node = some cell.value := by rw [valueOf, hcell, Option.map_some]
    rw [List.filterMap_cons_some hvalue, List.map_cons, List.map_cons, hvalue, ih hrest]

theorem remains_nextOf (hremains : Remains memory after) {cell : Cell α}
    (hcell : after.objects id = some cell) :
    nextOf after id = nextOf memory id ∧ valueOf after id = valueOf memory id := by
  obtain ⟨old, hold, hnext, hvalue⟩ := hremains id cell hcell
  rw [nextOf_eq hcell, nextOf_eq hold, valueOf, valueOf, hcell, hold, Option.map_some, Option.map_some,
    hnext, hvalue]
  exact ⟨rfl, rfl⟩

/-- As long as somebody has a pointer to a list, it does not matter what others give back. -/
theorem Counted.chain_remains (h : Counted after held) (hremains : Remains memory after)
    (hstart : ∀ id, start = some id → ∃ cell, after.objects id = some cell ∧ cell.refcount ≠ 0)
    {nodes : List ℕ} (hchain : Chain (nextOf memory) start nodes) :
    Chain (nextOf after) start nodes ∧ nodes.map (valueOf after) = nodes.map (valueOf memory) := by
  obtain ⟨nodes', hchain'⟩ : ∃ nodes, Chain (nextOf after) start nodes := by
    obtain ⟨-, nodes, hnodes, -⟩ := h.exists_shows hstart
    exact ⟨nodes, hnodes⟩
  have hactive := h.active_of_chain hchain' hstart
  have hsame : ∀ node ∈ nodes', nextOf after node = nextOf memory node ∧
      valueOf after node = valueOf memory node := by
    intro node hnode
    obtain ⟨cell, hcell, -⟩ := hactive node hnode
    exact remains_nextOf hremains hcell
  obtain rfl := hchain.unique (hchain'.congr fun node hnode ↦ (hsame node hnode).1.symm)
  exact ⟨hchain', List.map_congr_left fun node hnode ↦ (hsame node hnode).2⟩

theorem Shows.remains (hshows : Shows memory start values) (h : Counted after held)
    (hremains : Remains memory after)
    (hstart : ∀ id, start = some id → ∃ cell, after.objects id = some cell ∧ cell.refcount ≠ 0) :
    Shows after start values := by
  obtain ⟨nodes, hchain, hvalues⟩ := hshows
  obtain ⟨hchain', hvalues'⟩ := h.chain_remains hremains hstart hchain
  exact ⟨nodes, hchain', hvalues'.trans hvalues⟩

end Contents

/-! ## Appending -/

/-- Only counts are different. -/
structure Alike (before after : Memory α) : Prop where
  next : nextOf after = nextOf before
  value : valueOf after = valueOf before
  allocated : after.next = before.next

theorem Alike.refl (memory : Memory α) : Alike memory memory := ⟨rfl, rfl, rfl⟩

theorem Alike.trans {first second third : Memory α} (h : Alike first second) (h' : Alike second third) :
    Alike first third :=
  ⟨h'.next.trans h.next, h'.value.trans h.value, h'.allocated.trans h.allocated⟩

theorem Alike.shows {before after : Memory α} (h : Alike before after) {start : Option ℕ}
    {values : List α} : Shows after start values ↔ Shows before start values := by
  rw [Shows, Shows, h.next, h.value]

theorem Alike.endsIn {before after : Memory α} (h : Alike before after) {start : Option ℕ} {last : ℕ} :
    EndsIn after start last ↔ EndsIn before start last := by
  rw [EndsIn, EndsIn, h.next]

theorem valueOf_modify {memory : Memory α} {id : ℕ} {f : Cell α → Cell α}
    (hf : ∀ cell, (f cell).value = cell.value) : valueOf (memory.modify id f) = valueOf memory := by
  funext other
  unfold valueOf
  by_cases hother : other = id
  · rw [hother, Heap.objects_modify_self, Option.map_map]
    congr 1
    funext cell
    exact hf cell
  · rw [Heap.objects_modify_of_ne memory f hother]

theorem alike_addref (memory : Memory α) (id : ℕ) : Alike memory (memory.modify id Cell.addref) :=
  ⟨nextOf_modify fun _ ↦ rfl, valueOf_modify fun _ ↦ rfl, rfl⟩

theorem alike_unref (memory : Memory α) (id : ℕ) : Alike memory (memory.modify id Cell.unref) :=
  ⟨nextOf_modify fun _ ↦ rfl, valueOf_modify fun _ ↦ rfl, rfl⟩

theorem Settled.modify {memory : Memory α} {id : ℕ} {f : Cell α → Cell α} (h : Settled memory)
    (hf : ∀ cell, memory.objects id = some cell → (f cell).refcount ≠ 0) :
    Settled (memory.modify id f) := by
  intro other cell hcell
  by_cases hother : other = id
  · rw [hother, Heap.objects_modify_self] at hcell
    obtain ⟨old, hold, rfl⟩ := Option.map_eq_some_iff.mp hcell
    exact hf old hold
  · rw [Heap.objects_modify_of_ne memory f hother] at hcell
    exact h other cell hcell

theorem Counted.settled_addref {memory : Memory α} {held : List ℕ} (h : Counted memory held)
    (hsettled : Settled memory) (id : ℕ) : Settled (memory.modify id Cell.addref) := by
  apply hsettled.modify
  intro cell hcell
  have hnonneg := h.refcount_nonneg hcell
  rw [Cell.addref]
  dsimp only
  omega

section Append

variable {memory : Memory α} {held : List ℕ} {id last : ℕ} {cell : Cell α}

/-- A pointer that is not the only one. -/
structure Spare (memory : Memory α) (held : List ℕ) (id : ℕ) : Prop where
  counted : Counted memory (id :: held)
  others : 0 < held.count id + memory.total (pointsTo id)

theorem Spare.release (h : Spare memory held id) : ∃ cell, memory.objects id = some cell ∧
    cell.refcount - 1 ≠ 0 ∧ releaseAll memory (some id) = .ok (memory.modify id Cell.unref, []) := by
  obtain ⟨cell, hcell⟩ := Option.isSome_iff_exists.mp (h.counted.held id List.mem_cons_self)
  have hcount := h.counted.refcount id cell hcell
  have hothers := h.others
  have hlast : cell.refcount - 1 ≠ 0 := by
    rw [count_cons_int, if_pos rfl] at hcount
    omega
  refine ⟨cell, hcell, hlast, ?_⟩
  rw [releaseAll, SharedList.release, load_eq hcell, ok_bind]
  exact if_pos hlast

theorem Spare.settled (h : Spare memory held id) (hsettled : Settled memory) :
    Counted (memory.modify id Cell.unref) held ∧ Settled (memory.modify id Cell.unref) := by
  obtain ⟨cell, hcell, hlast, -⟩ := h.release
  refine ⟨h.counted.unref hcell hlast, hsettled.modify ?_⟩
  intro found hfound
  rwa [Option.some.inj (hfound.symm.trans hcell)]

/-- The pointer is moved to the next cell. -/
theorem Spare.move (h : Spare memory held id) (hcell : memory.objects id = some cell) {next : ℕ}
    (hnext : cell.next = some next) : ∃ after, addref memory (some next) = .ok after ∧
      releaseAll after (some id) = .ok (after.modify id Cell.unref, []) ∧
      Spare (after.modify id Cell.unref) held next ∧ Alike memory (after.modify id Cell.unref) ∧
      (Settled memory → Settled (after.modify id Cell.unref)) := by
  have hactive := h.counted.refcount_ne_of_held hcell
  obtain ⟨found, hfound⟩ := Option.isSome_iff_exists.mp (h.counted.next id cell hcell hactive next hnext)
  have hpositive := h.counted.refcount_ne_of_next hcell hactive hnext hfound
  have hadded := h.counted.addref hfound hpositive
  have hrun : addref memory (some next) = .ok (memory.modify next Cell.addref) := by
    rw [addref, load_eq hfound, ok_bind]
    rfl
  set after := memory.modify next Cell.addref with hafter
  have hperm : (next :: id :: held).Perm (id :: next :: held) := List.Perm.swap id next held
  have hspare : Spare after (next :: held) id := by
    refine ⟨hadded.perm hperm, ?_⟩
    have hothers := h.others
    obtain ⟨old, hold⟩ := Option.isSome_iff_exists.mp (hadded.held id (by simp))
    have hcount := hadded.refcount id old hold
    have hnonneg : 0 ≤ after.total (pointsTo id) :=
      (pointsTo_nonneg id old).trans (Heap.part_le_total (pointsTo_nonneg id) hold)
    have htotal : after.total (pointsTo id) = memory.total (pointsTo id) := by
      have hnew : found.addref.refcount ≠ 0 := by
        have hfoundpos := h.counted.refcount_nonneg hfound
        rw [Cell.addref]
        dsimp only
        omega
      have hpoints : pointsTo id found.addref = pointsTo id found :=
        pointsTo_of_active hpositive hnew rfl id
      rw [hafter, Heap.total_modify _ _ _ hfound, hpoints]
      omega
    rw [htotal, count_cons_int]
    split <;> omega
  obtain ⟨old, hold, hlast, hrelease⟩ := hspare.release
  have hcounted := hspare.counted.unref hold hlast
  have halike : Alike memory (after.modify id Cell.unref) :=
    (alike_addref memory next).trans (alike_unref after id)
  have hsettled (hall : Settled memory) : Settled (after.modify id Cell.unref) := by
    apply (h.counted.settled_addref hall next).modify
    intro found hfound
    rwa [Option.some.inj (hfound.symm.trans hold)]
  refine ⟨after, hrun, hrelease, ⟨hcounted, ?_⟩, halike, hsettled⟩
  -- The cell behind is still there, and points to the next one.
  have hself : (after.modify id Cell.unref).objects id = some old.unref := by
    rw [Heap.objects_modify_self, hold, Option.map_some]
  have hlink : old.unref.next = some next := by
    rw [← nextOf_eq hself, halike.next, nextOf_eq hcell, hnext]
  have hpart := Heap.part_le_total (pointsTo_nonneg next) hself
  rw [pointsTo, if_pos ⟨hlast, hlink⟩] at hpart
  omega

theorem walkToLast_ok {fuel : ℕ} {front : List ℕ} (h : Spare memory held id)
    (hchain : Chain (nextOf memory) (some id) (front ++ [last])) (hfuel : front.length < fuel) :
    ∃ after, walkToLast fuel memory id = .ok (after, last) ∧ Spare after held last ∧
      Alike memory after ∧ (Settled memory → Settled after) := by
  induction fuel generalizing memory id front with
  | zero => exact absurd hfuel (Nat.not_lt_zero _)
  | succ fuel ih =>
    obtain ⟨cell, hcell⟩ := Option.isSome_iff_exists.mp (h.counted.held id List.mem_cons_self)
    rw [walkToLast, load_eq hcell, ok_bind]
    cases front with
    | nil =>
      obtain ⟨hlast, hnone⟩ := hchain
      obtain rfl := Option.some.inj hlast
      rw [chain_nil, nextOf_eq hcell] at hnone
      rw [hnone]
      exact ⟨memory, rfl, h, Alike.refl memory, fun hsettled ↦ hsettled⟩
    | cons node front =>
      obtain ⟨hnode, hchain⟩ := hchain
      obtain rfl := Option.some.inj hnode
      have hnext : ∃ next, cell.next = some next := by
        rw [← nextOf_eq hcell, ← hchain.head?_eq]
        cases front with
        | nil => exact ⟨last, rfl⟩
        | cons next front => exact ⟨next, rfl⟩
      obtain ⟨next, hnext⟩ := hnext
      obtain ⟨after, hadd, hrelease, hspare, halike, hsettled⟩ := h.move hcell hnext
      rw [hnext]
      dsimp only
      rw [hadd, ok_bind, hrelease, ok_bind]
      rw [nextOf_eq hcell, hnext, ← halike.next] at hchain
      obtain ⟨final, hrun, hfinal, hsame, hkept⟩ := ih hspare hchain (Nat.lt_of_succ_lt_succ hfuel)
      exact ⟨final, hrun, hfinal, halike.trans hsame, fun hall ↦ hkept (hsettled hall)⟩

/-- A list behind a last cell. -/
theorem Counted.link {tail : Option ℕ} (h : Counted memory (tail.toList ++ held))
    (hcell : memory.objects last = some cell) (hactive : cell.refcount ≠ 0) (hnone : cell.next = none)
    {behind : List ℕ} (hchain : Chain (nextOf memory) tail behind) (havoid : last ∉ behind) :
    Counted (memory.modify last (Cell.link tail)) held ∧
      ∀ start nodes, Chain (nextOf memory) start nodes →
        Chain (nextOf (memory.modify last (Cell.link tail))) start
          (if last ∈ nodes then nodes ++ behind else nodes) := by
  have hself : (memory.modify last (Cell.link tail)).objects last = some (cell.link tail) := by
    rw [Heap.objects_modify_self, hcell, Option.map_some]
  have hother {other : ℕ} (hne : other ≠ last) :
      (memory.modify last (Cell.link tail)).objects other = memory.objects other :=
    Heap.objects_modify_of_ne memory _ hne
  have hnext : nextOf (memory.modify last (Cell.link tail)) last = tail := by
    rw [nextOf_eq hself]
    rfl
  have hsame {other : ℕ} (hne : other ≠ last) :
      nextOf (memory.modify last (Cell.link tail)) other = nextOf memory other := by
    rw [nextOf, hother hne, nextOf]
  have hsome {other : ℕ} (hlive : (memory.objects other).isSome) :
      ((memory.modify last (Cell.link tail)).objects other).isSome := by
    rw [← Heap.mem_live, Heap.live_modify, Heap.mem_live]
    exact hlive
  have hbehind : Chain (nextOf (memory.modify last (Cell.link tail))) tail behind :=
    hchain.congr fun node hnode ↦ hsame (ne_of_mem_of_not_mem hnode havoid)
  have hchains (start : Option ℕ) (nodes : List ℕ) (hnodes : Chain (nextOf memory) start nodes) :
      Chain (nextOf (memory.modify last (Cell.link tail))) start
        (if last ∈ nodes then nodes ++ behind else nodes) := by
    by_cases hmem : last ∈ nodes
    · rw [if_pos hmem]
      obtain ⟨front, back, rfl⟩ := List.append_of_mem hmem
      have hback : Chain (nextOf memory) (nextOf memory last) back := hnodes.suffix.2
      rw [nextOf_eq hcell, hnone] at hback
      have hend : back = [] := by
        cases back with
        | nil => rfl
        | cons node back => cases hback.1
      subst hend
      have hnodup := hnodes.nodup
      exact hnodes.append hnext hbehind fun node hnode ↦ hsame (by
        rintro rfl
        exact (List.nodup_append.mp hnodup).2.2 node hnode node List.mem_cons_self rfl)
    · rw [if_neg hmem]
      exact hnodes.congr fun node hnode ↦ hsame (ne_of_mem_of_not_mem hnode hmem)
  refine ⟨⟨?_, ?_, ?_, ?_⟩, hchains⟩
  · intro other found hfound
    have htotal := Heap.total_modify (pointsTo other) memory (Cell.link tail) hcell
    have hold : pointsTo other cell = 0 := by
      rw [pointsTo, hnone]
      simp
    have hnew : pointsTo other (cell.link tail) = (tail.toList.count other : ℤ) := by
      cases tail with
      | none => simp [pointsTo, Cell.link]
      | some next =>
        have hcount := count_cons_int [] next other
        rw [pointsTo, Option.toList_some, hcount, Cell.link]
        by_cases heq : other = next
        · simp [heq, hactive]
        · simp [heq, Ne.symm heq]
    have hrefcount : ∃ old, memory.objects other = some old ∧ old.refcount = found.refcount := by
      by_cases heq : other = last
      · rw [heq, hself, Option.some.injEq] at hfound
        exact ⟨cell, heq ▸ hcell, hfound ▸ rfl⟩
      · exact ⟨found, (hother heq).symm.trans hfound, rfl⟩
    obtain ⟨old, hfound', hsamecount⟩ := hrefcount
    have hcount := h.refcount other old hfound'
    rw [List.count_append, Nat.cast_add] at hcount
    rw [htotal, hold, hnew, ← hsamecount, hcount]
    ring
  · exact fun other hmem ↦ hsome (h.held other (List.mem_append_right _ hmem))
  · intro other found hfound hpositive target htarget
    apply hsome
    by_cases heq : other = last
    · rw [heq, hself, Option.some.injEq] at hfound
      subst hfound
      have hmem : target ∈ tail.toList ++ held :=
        List.mem_append_left _ (Option.mem_toList.mpr htarget)
      exact h.held target hmem
    · rw [hother heq] at hfound
      exact h.next other found hfound hpositive target htarget
  · intro other found hfound hpositive
    have hends : ∃ nodes, Chain (nextOf memory) (some other) nodes := by
      by_cases heq : other = last
      · rw [heq]
        exact h.ends last cell hcell hactive
      · rw [hother heq] at hfound
        exact h.ends other found hfound hpositive
    obtain ⟨nodes, hnodes⟩ := hends
    exact ⟨_, hchains (some other) nodes hnodes⟩

theorem Spare.of_refcount (h : Counted memory (id :: held)) (hcell : memory.objects id = some cell)
    (hspare : 1 < cell.refcount) : Spare memory held id := by
  refine ⟨h, ?_⟩
  have hcount := h.refcount id cell hcell
  rw [count_cons_int, if_pos rfl] at hcount
  omega

theorem Spare.refcount (h : Spare memory held id) (hcell : memory.objects id = some cell) :
    1 < cell.refcount := by
  have hothers := h.others
  have hcount := h.counted.refcount id cell hcell
  rw [count_cons_int, if_pos rfl] at hcount
  omega

theorem EndsIn.nextOf {start : Option ℕ} (h : EndsIn memory start last) : nextOf memory last = none := by
  obtain ⟨front, hchain⟩ := h
  exact hchain.suffix.2

/-- A list with a last cell in it has it as its last one. -/
theorem endsIn_of_mem {start : Option ℕ} {nodes : List ℕ} (hnone : nextOf memory last = none)
    (hchain : Chain (nextOf memory) start nodes) (hmem : last ∈ nodes) : EndsIn memory start last := by
  obtain ⟨front, back, rfl⟩ := List.append_of_mem hmem
  have hback := hchain.suffix.2
  rw [hnone] at hback
  cases back with
  | nil => exact ⟨front, hchain⟩
  | cons node back => cases hback.1

/-- What appending does: the lists that end in a cell go on, and no other list changes. -/
structure Appended (before after : Memory α) (held : List ℕ) (last : ℕ) (tail : Option ℕ) : Prop where
  counted : Counted after held
  settled : Settled before → Settled after
  value : valueOf after = valueOf before
  allocated : after.next = before.next
  chain : ∀ behind, Chain (nextOf before) tail behind → ∀ start nodes,
    Chain (nextOf before) start nodes →
      Chain (nextOf after) start (if last ∈ nodes then nodes ++ behind else nodes)

/-- The tail gets its pointer. -/
theorem Counted.linkTail {tail : Option ℕ} (h : Counted memory held)
    (hcell : memory.objects last = some cell)
    (hactive : cell.refcount ≠ 0) (hnone : cell.next = none) (htail : ∀ id, tail = some id → id ∈ held)
    (havoid : ¬EndsIn memory tail last) :
    ∃ linked, SharedList.addref (memory.modify last (Cell.link tail)) tail = .ok linked ∧
      Appended memory linked held last tail ∧ linked.objects last = some (cell.link tail) := by
  have hnextlast : nextOf memory last = none := by rw [nextOf_eq hcell, hnone]
  -- The pointer to the tail is counted first; the order of the two writes does not matter.
  obtain ⟨counted, hcounted, hsettled, halike, hkept, hrun⟩ : ∃ counted,
      Counted counted (tail.toList ++ held) ∧ (Settled memory → Settled counted) ∧
      Alike memory counted ∧ counted.objects last = some cell ∧
      SharedList.addref (memory.modify last (Cell.link tail)) tail =
        .ok (counted.modify last (Cell.link tail)) := by
    cases htailcase : tail with
    | none => exact ⟨memory, h, fun hsettled ↦ hsettled, Alike.refl memory, hcell, rfl⟩
    | some id =>
      rw [htailcase] at htail havoid
      obtain ⟨found, hfound, hpositive⟩ := h.exists_cell (htail id rfl)
      have hne : id ≠ last := by
        rintro rfl
        exact havoid ⟨[], rfl, hnextlast⟩
      refine ⟨memory.modify id Cell.addref, h.addref hfound hpositive,
        fun hsettled ↦ h.settled_addref hsettled id, alike_addref memory id, ?_, ?_⟩
      · rw [Heap.objects_modify_of_ne memory _ (Ne.symm hne), hcell]
      · have hload : (memory.modify last (Cell.link (some id))).objects id = some found := by
          rw [Heap.objects_modify_of_ne memory _ hne, hfound]
        rw [SharedList.addref, load_eq hload, ok_bind, Heap.modify_comm memory hne]
        rfl
  obtain ⟨behind, hbehind⟩ : ∃ behind, Chain (nextOf counted) tail behind := by
    cases htailcase : tail with
    | none => exact ⟨[], rfl⟩
    | some id =>
      have hmem : id ∈ tail.toList ++ held :=
        List.mem_append_left _ (by rw [htailcase]; exact List.mem_singleton_self id)
      obtain ⟨found, hfound, hpositive⟩ := hcounted.exists_cell hmem
      exact hcounted.ends id found hfound hpositive
  have hnotmem : last ∉ behind := fun hmem ↦
    havoid (halike.endsIn.mp (endsIn_of_mem (by rw [halike.next, hnextlast]) hbehind hmem))
  obtain ⟨hfinal, hchains⟩ := hcounted.link hkept hactive hnone hbehind hnotmem
  refine ⟨_, hrun, ⟨hfinal, ?_, ?_, halike.allocated, ?_⟩, ?_⟩
  · intro hall
    apply (hsettled hall).modify
    intro other hother
    rw [Option.some.inj (hother.symm.trans hkept)]
    exact hactive
  · have hvalue : valueOf (counted.modify last (Cell.link tail)) = valueOf counted :=
      valueOf_modify fun _ ↦ rfl
    rw [hvalue, halike.value]
  · intro other hother start nodes hnodes
    rw [← halike.next] at hother hnodes
    rw [hother.unique hbehind]
    exact hchains start nodes hnodes
  · rw [Heap.objects_modify_self, hkept, Option.map_some]

/-- The end of the call: the tail gets its pointer, and the one to the last cell is given back. -/
theorem Spare.link {tail : Option ℕ} (h : Spare memory held last) (htail : ∀ id, tail = some id → id ∈ held)
    (hnone : nextOf memory last = none) (havoid : ¬EndsIn memory tail last) :
    ∃ linked, addref (memory.modify last (Cell.link tail)) tail = .ok linked ∧
      releaseAll linked (some last) = .ok (linked.modify last Cell.unref, []) ∧
      Appended memory (linked.modify last Cell.unref) held last tail := by
  obtain ⟨cell, hcell⟩ := Option.isSome_iff_exists.mp (h.counted.held last List.mem_cons_self)
  have hspare := h.refcount hcell
  obtain ⟨linked, hrun, happended, hlast⟩ := h.counted.linkTail hcell (by omega)
    (by rw [← nextOf_eq hcell, hnone]) (fun id hid ↦ List.mem_cons_of_mem last (htail id hid)) havoid
  have hspare' : Spare linked held last := Spare.of_refcount happended.counted hlast hspare
  obtain ⟨-, -, -, hrelease⟩ := hspare'.release
  have halike := alike_unref linked last
  refine ⟨linked, hrun, hrelease, ?_, ?_, halike.value.trans happended.value,
    halike.allocated.trans happended.allocated, ?_⟩
  · obtain ⟨found, hfound, hfoundlast, -⟩ := hspare'.release
    exact happended.counted.unref hfound hfoundlast
  · intro hsettled
    exact (hspare'.settled (happended.settled hsettled)).2
  · rw [halike.next]
    exact happended.chain

theorem append_ok {start : ℕ} {tail : Option ℕ} (h : Counted memory held) (hstart : start ∈ held)
    (htail : ∀ id, tail = some id → id ∈ held) (hends : EndsIn memory (some start) last)
    (havoid : ¬EndsIn memory tail last) :
    ∃ after, append memory start tail = .ok after ∧ Appended memory after held last tail := by
  obtain ⟨cell, hcell, hactive⟩ := h.exists_cell hstart
  have hnonneg := h.refcount_nonneg hcell
  have hadd : addref memory (some start) = .ok (memory.modify start Cell.addref) := by
    rw [addref, load_eq hcell, ok_bind]
    rfl
  have hself : (memory.modify start Cell.addref).objects start = some cell.addref := by
    rw [Heap.objects_modify_self, hcell, Option.map_some]
  have hspare : Spare (memory.modify start Cell.addref) held start := by
    refine Spare.of_refcount (h.addref hcell hactive) hself ?_
    rw [Cell.addref]
    dsimp only
    omega
  have halike := alike_addref memory start
  obtain ⟨front, hchain⟩ := halike.endsIn.mpr hends
  have hfuel : front.length < (memory.modify start Cell.addref).next + 1 := by
    have hlength := hspare.counted.chain_length hself (hspare.counted.refcount_ne_of_held hself) hchain
    rw [List.length_append, List.length_singleton] at hlength
    omega
  obtain ⟨walked, hwalk, hwalked, hsame, hwalksettled⟩ := walkToLast_ok hspare hchain hfuel
  have hall := halike.trans hsame
  obtain ⟨linked, hlink, hrelease, happended⟩ :=
    hwalked.link htail (hall.endsIn.mpr hends).nextOf fun hcycle ↦ havoid (hall.endsIn.mp hcycle)
  have hsettled (hmemory : Settled memory) : Settled (linked.modify last Cell.unref) :=
    happended.settled (hwalksettled (h.settled_addref hmemory start))
  refine ⟨linked.modify last Cell.unref, ?_, happended.counted, hsettled,
    happended.value.trans hall.value, happended.allocated.trans hall.allocated, ?_⟩
  · rw [append, hadd, ok_bind, hwalk, ok_bind]
    dsimp only
    rw [hlink, ok_bind, hrelease, ok_bind]
    rfl
  · rw [← hall.next]
    exact happended.chain

/-- The lists before and after the call. -/
theorem Appended.shows {before after : Memory α} {tail start : Option ℕ} {values more : List α}
    (h : Appended before after held last tail) (hnone : nextOf before last = none)
    (hshows : Shows before start values) (hmore : Shows before tail more) :
    (EndsIn before start last → Shows after start (values ++ more)) ∧
      (¬EndsIn before start last → Shows after start values) := by
  obtain ⟨nodes, hchain, hvalues⟩ := hshows
  obtain ⟨behind, hbehind, hmore⟩ := hmore
  have hafter := h.chain behind hbehind start nodes hchain
  constructor
  · rintro ⟨front, hfront⟩
    rw [hchain.unique hfront] at hvalues hafter
    rw [if_pos (by simp)] at hafter
    refine ⟨_, hafter, ?_⟩
    rw [h.value, List.map_append, hvalues, hmore, List.map_append]
  · intro hother
    rw [if_neg fun hmem ↦ hother (endsIn_of_mem hnone hchain hmem)] at hafter
    refine ⟨nodes, hafter, ?_⟩
    rw [h.value, hvalues]

theorem EndsIn.unique {start : Option ℕ} {other : ℕ} (h : EndsIn memory start last)
    (h' : EndsIn memory start other) : last = other := by
  obtain ⟨front, hfront⟩ := h
  obtain ⟨front', hfront'⟩ := h'
  have hsame := congrArg List.getLast? (hfront.unique hfront')
  rw [List.getLast?_concat, List.getLast?_concat] at hsame
  exact Option.some.inj hsame

/-- Every pointer to a cell leads to a last one. -/
theorem Counted.exists_last (h : Counted memory held) {start : ℕ} (hstart : start ∈ held) :
    ∃ last, EndsIn memory (some start) last := by
  obtain ⟨cell, hcell, hactive⟩ := h.exists_cell hstart
  obtain ⟨nodes, hchain⟩ := h.ends start cell hcell hactive
  have hne : nodes ≠ [] := by
    rintro rfl
    cases hchain
  refine ⟨nodes.getLast hne, nodes.dropLast, ?_⟩
  rwa [List.dropLast_append_getLast hne]

end Append

/-! ## Pointers -/

section Pointers

variable {memory after : Memory α} {held : List ℕ} {id : ℕ} {cell : Cell α} {values : List α}

/-- A pointer that is held shows a list. -/
theorem Counted.shows_of_mem (h : Counted memory held) (hid : id ∈ held) :
    ∃ values, Shows memory (some id) values := by
  obtain ⟨cell, hcell, hactive⟩ := h.exists_cell hid
  exact h.exists_shows fun _ hsome ↦ ⟨cell, Option.some.inj hsome ▸ hcell, hactive⟩

theorem addref_ok (h : Counted memory held) (hid : id ∈ held) :
    ∃ after, addref memory (some id) = .ok after ∧ Counted after (id :: held) ∧ Alike memory after := by
  obtain ⟨cell, hcell, hactive⟩ := h.exists_cell hid
  refine ⟨memory.modify id Cell.addref, ?_, h.addref hcell hactive, alike_addref memory id⟩
  rw [addref, load_eq hcell, ok_bind]
  rfl

/-- A pointer to the next cell, while there is one to a cell. -/
theorem addref_next_ok (h : Counted memory held) (hid : id ∈ held) (hcell : memory.objects id = some cell) :
    ∃ after, addref memory cell.next = .ok after ∧ Counted after (cell.next.toList ++ held) ∧
      Alike memory after := by
  obtain ⟨found, hfound, hactive⟩ := h.exists_cell hid
  obtain rfl := Option.some.inj (hcell.symm.trans hfound)
  cases hnext : cell.next with
  | none => exact ⟨memory, rfl, h, Alike.refl memory⟩
  | some next =>
    obtain ⟨behind, hbehind⟩ := Option.isSome_iff_exists.mp (h.next id cell hcell hactive next hnext)
    have hpositive := h.refcount_ne_of_next hcell hactive hnext hbehind
    refine ⟨memory.modify next Cell.addref, ?_, h.addref hbehind hpositive, alike_addref memory next⟩
    rw [addref, load_eq hbehind, ok_bind]
    rfl

theorem Released.shows {values freed : List α} (h : Released memory after held freed) (hid : id ∈ held)
    (hshows : Shows memory (some id) values) : Shows after (some id) values := by
  obtain ⟨cell, hcell, hactive⟩ := h.counted.exists_cell hid
  exact hshows.remains h.counted h.remains fun _ hsome ↦ ⟨cell, Option.some.inj hsome ▸ hcell, hactive⟩

/-- Several pointers are given back, one after the other. -/
theorem releaseList_ok {heads : List ℕ} (h : Counted memory (heads ++ held)) (hsettled : Settled memory) :
    ∃ after, heads.foldlM (fun memory head ↦ (releaseAll memory (some head)).map (·.1)) memory = .ok after ∧
      Counted after held ∧ Settled after ∧ Remains memory after ∧ after.next = memory.next := by
  induction heads generalizing memory with
  | nil => exact ⟨memory, rfl, h, hsettled, Remains.refl memory, rfl⟩
  | cons head heads ih =>
    obtain ⟨next, freed, hrun, hreleased⟩ := releaseAll_ok h
    have hnext : Settled next := by
      intro id cell hcell hzero
      exact hsettled id cell ((hreleased.dying id cell hzero).mpr hcell) hzero
    obtain ⟨after, hrest, hafter, hsettled', hremains, hallocated⟩ := ih hreleased.counted hnext
    refine ⟨after, ?_, hafter, hsettled', hreleased.remains.trans hremains,
      hallocated.trans hreleased.allocated⟩
    rw [List.foldlM_cons, hrun]
    exact hrest

theorem Released.settled {freed : List α} (h : Released memory after held freed)
    (hsettled : Settled memory) : Settled after := by
  intro id cell hcell hzero
  exact hsettled id cell ((h.dying id cell hzero).mpr hcell) hzero

/-- A cell is told by its pointer, its value and its count. -/
theorem Alike.objects (h : Alike memory after) {other : ℕ} {cell : Cell α}
    (hcell : memory.objects other = some cell) :
    ∃ found, after.objects other = some found ∧ found.next = cell.next ∧ found.value = cell.value := by
  have hvalue := congrFun h.value other
  rw [valueOf, valueOf, hcell, Option.map_some] at hvalue
  obtain ⟨found, hfound, hsame⟩ := Option.map_eq_some_iff.mp hvalue
  have hnext := congrFun h.next other
  rw [nextOf_eq hcell, nextOf_eq hfound] at hnext
  exact ⟨found, hfound, hnext, hsame⟩

theorem Alike.symm (h : Alike memory after) : Alike after memory :=
  ⟨h.next.symm, h.value.symm, h.allocated.symm⟩

/-- Memory in which the same pointers are held, and which differs in counts only, does not differ. -/
theorem Alike.objects_eq (h : Alike memory after) (hmemory : Counted memory held)
    (hafter : Counted after held) (hsettled : Settled memory) (hsettled' : Settled after) :
    after.objects = memory.objects := by
  have htotal (target : ℕ) : after.total (pointsTo target) = memory.total (pointsTo target) := by
    rw [Heap.total, Heap.total, h.allocated]
    apply Finset.sum_congr rfl
    intro other _
    rw [Heap.amount, Heap.amount]
    cases hcell : memory.objects other with
    | none =>
      cases hfound : after.objects other with
      | none => rfl
      | some found =>
        obtain ⟨cell, hcell', -⟩ := h.symm.objects hfound
        rw [hcell] at hcell'
        cases hcell'
    | some cell =>
      obtain ⟨found, hfound, hnext, -⟩ := h.objects hcell
      rw [hfound]
      exact pointsTo_of_active (hsettled other cell hcell) (hsettled' other found hfound) hnext target
  funext other
  cases hcell : memory.objects other with
  | none =>
    cases hfound : after.objects other with
    | none => rfl
    | some found =>
      obtain ⟨cell, hcell', -⟩ := h.symm.objects hfound
      rw [hcell] at hcell'
      cases hcell'
  | some cell =>
    obtain ⟨found, hfound, hnext, hvalue⟩ := h.objects hcell
    have hcount : found.refcount = cell.refcount := by
      rw [hafter.refcount other found hfound, hmemory.refcount other cell hcell, htotal]
    rw [hfound]
    cases found
    cases cell
    dsimp only at hnext hvalue hcount
    rw [hnext, hvalue, hcount]

/-- A pointer besides one that somebody else has. -/
theorem Counted.spare (h : Counted memory held) (hid : id ∈ held) : ∃ after,
    SharedList.addref memory (some id) = .ok after ∧ Spare after held id ∧ Alike memory after ∧
      (Settled memory → Settled after) := by
  obtain ⟨cell, hcell, hactive⟩ := h.exists_cell hid
  have hself : (memory.modify id Cell.addref).objects id = some cell.addref := by
    rw [Heap.objects_modify_self, hcell, Option.map_some]
  refine ⟨memory.modify id Cell.addref, ?_, ?_, alike_addref memory id,
    fun hsettled ↦ h.settled_addref hsettled id⟩
  · rw [SharedList.addref, load_eq hcell, ok_bind]
    rfl
  · refine Spare.of_refcount (h.addref hcell hactive) hself ?_
    have hnonneg := h.refcount_nonneg hcell
    rw [Cell.addref]
    dsimp only
    omega

/-! ## New cells -/

theorem total_alloc_pointsTo (memory : Memory α) (value : α) (target : ℕ) :
    (memory.alloc ⟨1, none, value⟩).total (pointsTo target) = memory.total (pointsTo target) := by
  have hnone : pointsTo target (⟨1, none, value⟩ : Cell α) = 0 := by
    rw [pointsTo]
    simp
  rw [Heap.total_alloc, hnone, add_zero]

/-- Nothing points to a cell that has never been there. -/
theorem Counted.total_next (h : Counted memory held) :
    memory.total (pointsTo memory.next) = 0 := by
  apply Heap.total_eq_zero
  intro id cell hcell
  rw [pointsTo]
  apply if_neg
  rintro ⟨hactive, hnext⟩
  have hlive := h.next id cell hcell hactive memory.next hnext
  rw [memory.fresh memory.next le_rfl] at hlive
  cases hlive

theorem Counted.alloc (h : Counted memory held) (hsettled : Settled memory) (value : α) :
    Counted (memory.alloc ⟨1, none, value⟩) (memory.next :: held) ∧
      Settled (memory.alloc ⟨1, none, value⟩) ∧
      ∀ start nodes, (∀ id, start = some id → id ∈ held) → Chain (nextOf memory) start nodes →
        Chain (nextOf (memory.alloc ⟨1, none, value⟩)) start nodes ∧
          nodes.map (valueOf (memory.alloc ⟨1, none, value⟩)) = nodes.map (valueOf memory) := by
  have hfresh : memory.next ∉ held := by
    intro hmem
    have hlive := h.held memory.next hmem
    rw [memory.fresh memory.next le_rfl] at hlive
    cases hlive
  have hself : (memory.alloc ⟨1, none, value⟩).objects memory.next = some ⟨1, none, value⟩ :=
    Heap.objects_alloc_self memory _
  have hother {other : ℕ} (hne : other ≠ memory.next) :
      (memory.alloc ⟨1, none, value⟩).objects other = memory.objects other :=
    Heap.objects_alloc_of_ne memory _ hne
  have hlive {other : ℕ} (hsome : (memory.objects other).isSome) :
      ((memory.alloc ⟨1, none, value⟩).objects other).isSome := by
    rw [Heap.objects_alloc_of_isSome memory _ hsome]
    exact hsome
  have hkept {start : Option ℕ} {nodes : List ℕ} (hchain : Chain (nextOf memory) start nodes)
      (hactive : ∀ node ∈ nodes, ∃ cell, memory.objects node = some cell ∧ cell.refcount ≠ 0) :
      Chain (nextOf (memory.alloc ⟨1, none, value⟩)) start nodes ∧
        nodes.map (valueOf (memory.alloc ⟨1, none, value⟩)) = nodes.map (valueOf memory) := by
    have hsame : ∀ node ∈ nodes,
        (memory.alloc ⟨1, none, value⟩).objects node = memory.objects node := by
      intro node hnode
      obtain ⟨cell, hcell, -⟩ := hactive node hnode
      exact Heap.objects_alloc_of_isSome memory _ (by rw [hcell]; rfl)
    constructor
    · exact hchain.congr fun node hnode ↦ by rw [nextOf, hsame node hnode, nextOf]
    · exact List.map_congr_left fun node hnode ↦ by rw [valueOf, hsame node hnode, valueOf]
  refine ⟨⟨?_, ?_, ?_, ?_⟩, ?_, ?_⟩
  · intro other found hfound
    rw [total_alloc_pointsTo, count_cons_int]
    by_cases hne : other = memory.next
    · subst hne
      rw [hself, Option.some.injEq] at hfound
      rw [← hfound, h.total_next, List.count_eq_zero_of_not_mem hfresh, if_pos rfl]
      rfl
    · rw [hother hne] at hfound
      rw [if_neg hne, h.refcount other found hfound, add_zero]
  · intro other hmem
    rcases List.mem_cons.mp hmem with rfl | hmem
    · rw [hself]
      rfl
    · exact hlive (h.held other hmem)
  · intro other found hfound hactive target htarget
    by_cases hne : other = memory.next
    · rw [hne, hself, Option.some.injEq] at hfound
      subst hfound
      cases htarget
    · rw [hother hne] at hfound
      exact hlive (h.next other found hfound hactive target htarget)
  · intro other found hfound hactive
    by_cases hne : other = memory.next
    · refine ⟨[memory.next], ?_, ?_⟩
      · rw [hne]
      · rw [chain_nil, nextOf_eq hself]
    · rw [hother hne] at hfound
      obtain ⟨nodes, hchain⟩ := h.ends other found hfound hactive
      exact ⟨nodes, (hkept hchain (h.active_of_chain hchain
        fun _ hsome ↦ ⟨found, Option.some.inj hsome ▸ hfound, hactive⟩)).1⟩
  · intro other found hfound
    by_cases hne : other = memory.next
    · rw [hne, hself, Option.some.injEq] at hfound
      rw [← hfound]
      exact one_ne_zero
    · rw [hother hne] at hfound
      exact hsettled other found hfound
  · intro start nodes hstart hchain
    exact hkept hchain (h.active_of_chain hchain fun id hid ↦ h.exists_cell (hstart id hid))

theorem nextOf_alloc (memory : Memory α) (value : α) :
    nextOf (memory.alloc ⟨1, none, value⟩) memory.next = none :=
  nextOf_eq (Heap.objects_alloc_self memory _)

theorem shows_alloc (memory : Memory α) (value : α) :
    Shows (memory.alloc ⟨1, none, value⟩) (some memory.next) [value] := by
  refine ⟨[memory.next], ⟨rfl, nextOf_alloc memory value⟩, ?_⟩
  rw [List.map_singleton, List.map_singleton, valueOf, Heap.objects_alloc_self]
  rfl

/-- What pushing does to the lists that somebody has. -/
structure Pushed (before after : Memory α) (held : List ℕ) (start : ℕ) (value : α) : Prop where
  counted : Counted after held
  settled : Settled after
  allocated : after.next = before.next + 1
  total : ∀ weight : α → ℤ, after.total (fun cell ↦ weight cell.value) =
    before.total (fun cell ↦ weight cell.value) + weight value
  value : valueOf after before.next = some value
  chain : ∀ stack ∈ held, ∀ nodes, Chain (nextOf before) (some stack) nodes → ∀ last,
    EndsIn before (some start) last →
      Chain (nextOf after) (some stack) (if last ∈ nodes then nodes ++ [before.next] else nodes) ∧
        nodes.map (valueOf after) = nodes.map (valueOf before)

theorem total_value_eq {before after : Memory α} (hvalue : valueOf after = valueOf before)
    (hnext : after.next = before.next) (weight : α → ℤ) :
    after.total (fun cell ↦ weight cell.value) = before.total fun cell ↦ weight cell.value := by
  have hamount (memory : Memory α) (other : ℕ) : memory.amount (fun cell ↦ weight cell.value) other =
      (valueOf memory other).elim 0 weight := by
    rw [Heap.amount, valueOf]
    cases memory.objects other <;> rfl
  rw [Heap.total, Heap.total, hnext]
  apply Finset.sum_congr rfl
  intro other _
  rw [hamount, hamount, hvalue]

theorem push_ok {start : ℕ} (h : Counted memory held) (hsettled : Settled memory) (hstart : start ∈ held)
    (value : α) : ∃ after, push memory start value = .ok (after, []) ∧
    Pushed memory after held start value := by
  obtain ⟨hcounted, hsettled', hkept⟩ := h.alloc hsettled value
  set fresh := memory.alloc ⟨1, none, value⟩ with hfresh
  obtain ⟨last, front, hfront⟩ := h.exists_last hstart
  have hends {stack last : ℕ} (hstack : stack ∈ held) :
      EndsIn memory (some stack) last → EndsIn fresh (some stack) last := by
    rintro ⟨front, hfront⟩
    exact ⟨front, (hkept (some stack) _ (fun _ hid ↦ Option.some.inj hid ▸ hstack) hfront).1⟩
  have hne : last ≠ memory.next := by
    obtain ⟨cell, hcell, -⟩ := h.active_of_chain hfront
      (fun _ hid ↦ h.exists_cell (Option.some.inj hid ▸ hstart)) last (by simp)
    exact Nat.ne_of_lt (Heap.lt_next_of_objects hcell)
  have havoid : ¬EndsIn fresh (some memory.next) last := by
    intro hsame
    exact hne (hsame.unique ⟨[], rfl, nextOf_alloc memory value⟩)
  have hlast := hends hstart ⟨front, hfront⟩
  obtain ⟨appended, hrun, happended⟩ := append_ok hcounted (List.mem_cons_of_mem _ hstart)
    (fun _ hid ↦ Option.some.inj hid ▸ List.mem_cons_self) hlast havoid
  -- The last cell points to the new one, so that it stays.
  have hspare : Spare appended held memory.next := by
    obtain ⟨cell, hcell, hactive⟩ := happended.counted.exists_cell List.mem_cons_self
    refine ⟨happended.counted, ?_⟩
    have hchain := happended.chain [memory.next] ⟨rfl, nextOf_alloc memory value⟩ (some start) _
      (hkept (some start) _ (fun _ hid ↦ Option.some.inj hid ▸ hstart) hfront).1
    rw [if_pos (by simp)] at hchain
    have hlink : nextOf appended last = some memory.next := by
      have hsuffix : Chain (nextOf appended) (some start) (front ++ last :: [memory.next]) := by
        rwa [List.append_assoc, List.singleton_append] at hchain
      rw [← hsuffix.suffix.2.head?_eq]
      rfl
    obtain ⟨before, hbefore, hnext⟩ := Option.bind_eq_some_iff.mp hlink
    have hpart := Heap.part_le_total (pointsTo_nonneg memory.next) hbefore
    rw [pointsTo, if_pos ⟨happended.settled hsettled' last before hbefore, hnext⟩] at hpart
    omega
  obtain ⟨cell, hcell, hcelllast, hrelease⟩ := hspare.release
  have halike := alike_unref appended memory.next
  obtain ⟨hfinal, hfinalsettled⟩ := hspare.settled (happended.settled hsettled')
  refine ⟨appended.modify memory.next Cell.unref, ?_, hfinal, hfinalsettled, happended.allocated, ?_, ?_,
    ?_⟩
  · rw [push, hrun, ok_bind, hrelease]
  · intro weight
    rw [total_value_eq (halike.value.trans happended.value) (halike.allocated.trans happended.allocated),
      hfresh, Heap.total_alloc]
  · rw [halike.value, happended.value, hfresh, valueOf, Heap.objects_alloc_self]
    rfl
  · intro stack hstack nodes hnodes last' hlast'
    obtain rfl := (EndsIn.unique ⟨front, hfront⟩ hlast' : last = last')
    obtain ⟨hnodes', hvalues⟩ := hkept (some stack) nodes (fun _ hid ↦ Option.some.inj hid ▸ hstack) hnodes
    rw [halike.next, halike.value, happended.value]
    exact ⟨happended.chain [memory.next] ⟨rfl, nextOf_alloc memory value⟩ (some stack) nodes hnodes',
      hvalues⟩

/-- The lists that somebody has, before and after pushing. -/
theorem Pushed.shows {before after : Memory α} {start : ℕ} {value : α}
    (h : Pushed before after held start value) {stack last : ℕ} (hstack : stack ∈ held)
    (hshows : Shows before (some stack) values) (hlast : EndsIn before (some start) last) :
    (EndsIn before (some stack) last → Shows after (some stack) (values ++ [value])) ∧
      (¬EndsIn before (some stack) last → Shows after (some stack) values) := by
  obtain ⟨nodes, hchain, hvalues⟩ := hshows
  obtain ⟨hafter, hsame⟩ := h.chain stack hstack nodes hchain last hlast
  constructor
  · rintro ⟨front, hfront⟩
    have hmem : last ∈ nodes := by
      rw [hchain.unique hfront]
      simp
    rw [if_pos hmem] at hafter
    refine ⟨_, hafter, ?_⟩
    rw [List.map_append, List.map_append, hsame, hvalues, List.map_singleton, List.map_singleton, h.value]
  · intro hother
    rw [if_neg fun hmem ↦ hother (endsIn_of_mem hlast.nextOf hchain hmem)] at hafter
    exact ⟨nodes, hafter, hsame.trans hvalues⟩

/-! ## Taking the first cell off -/

/-- The pointer of the first cell to the next one goes to its owner. -/
theorem Counted.detach (h : Counted memory (id :: held)) (hcell : memory.objects id = some cell) :
    Counted (memory.modify id (Cell.link none)) (id :: (cell.next.toList ++ held)) ∧
      ∀ start nodes, id ∉ nodes → Chain (nextOf memory) start nodes →
        Chain (nextOf (memory.modify id (Cell.link none))) start nodes := by
  have hactive := h.refcount_ne_of_held hcell
  have hself : (memory.modify id (Cell.link none)).objects id = some (cell.link none) := by
    rw [Heap.objects_modify_self, hcell, Option.map_some]
  have hother {other : ℕ} (hne : other ≠ id) :
      (memory.modify id (Cell.link none)).objects other = memory.objects other :=
    Heap.objects_modify_of_ne memory _ hne
  have hsome {other : ℕ} (hlive : (memory.objects other).isSome) :
      ((memory.modify id (Cell.link none)).objects other).isSome := by
    rw [← Heap.mem_live, Heap.live_modify, Heap.mem_live]
    exact hlive
  have hnextself : nextOf (memory.modify id (Cell.link none)) id = none := nextOf_eq hself
  have hnext {other : ℕ} (hne : other ≠ id) :
      nextOf (memory.modify id (Cell.link none)) other = nextOf memory other := by
    rw [nextOf, hother hne, nextOf]
  have hchain (start : Option ℕ) (nodes : List ℕ) (havoid : id ∉ nodes)
      (hnodes : Chain (nextOf memory) start nodes) :
      Chain (nextOf (memory.modify id (Cell.link none))) start nodes :=
    hnodes.congr fun node hnode ↦ hnext (ne_of_mem_of_not_mem hnode havoid)
  refine ⟨⟨?_, ?_, ?_, ?_⟩, hchain⟩
  · intro other found hfound
    have htotal := Heap.total_modify (pointsTo other) memory (Cell.link none) hcell
    have hnone : pointsTo other (cell.link none) = 0 := by
      rw [pointsTo, Cell.link]
      simp
    have hpointer : (cell.next.toList.count other : ℤ) = pointsTo other cell := by
      rw [pointsTo]
      cases hcellnext : cell.next with
      | none => simp
      | some next =>
        have hcount := count_cons_int [] next other
        rw [Option.toList_some, hcount]
        by_cases heq : other = next
        · simp [heq, hactive]
        · simp [heq, Ne.symm heq]
    obtain ⟨old, hold, hsame⟩ : ∃ old, memory.objects other = some old ∧ old.refcount = found.refcount := by
      by_cases heq : other = id
      · rw [heq, hself, Option.some.injEq] at hfound
        exact ⟨cell, heq ▸ hcell, hfound ▸ rfl⟩
      · exact ⟨found, (hother heq).symm.trans hfound, rfl⟩
    have hcount := h.refcount other old hold
    rw [count_cons_int] at hcount
    rw [htotal, hnone, count_cons_int, List.count_append, Nat.cast_add, hpointer, ← hsame, hcount]
    ring
  · intro other hmem
    apply hsome
    rcases List.mem_cons.mp hmem with rfl | hmem
    · exact h.held other List.mem_cons_self
    · rcases List.mem_append.mp hmem with hmem | hmem
      · exact h.next id cell hcell hactive other (Option.mem_toList.mp hmem)
      · exact h.held other (List.mem_cons_of_mem id hmem)
  · intro other found hfound hpositive target htarget
    apply hsome
    by_cases heq : other = id
    · rw [heq, hself, Option.some.injEq] at hfound
      subst hfound
      cases htarget
    · rw [hother heq] at hfound
      exact h.next other found hfound hpositive target htarget
  · intro other found hfound hpositive
    by_cases heq : other = id
    · refine ⟨[id], ?_, hnextself⟩
      rw [heq]
    · rw [hother heq] at hfound
      obtain ⟨nodes, hnodes⟩ := h.ends other found hfound hpositive
      by_cases hmem : id ∈ nodes
      · -- The list ends in the first cell now.
        obtain ⟨front, back, rfl⟩ := List.append_of_mem hmem
        refine ⟨front ++ [id], ?_⟩
        have hnodup := hnodes.nodup
        have hfront : ∀ node ∈ front, node ≠ id := by
          rintro node hnode rfl
          exact (List.nodup_append.mp hnodup).2.2 node hnode node List.mem_cons_self rfl
        exact hnodes.cut hnextself fun node hnode ↦ hnext (hfront node hnode)
      · exact ⟨nodes, hchain (some other) nodes hmem hnodes⟩

/-! ## The end -/

/-- When no pointer is held, no cell is left: of the cells that are left one would have the longest list,
and nothing would point to it. -/
theorem Counted.eq_none (h : Counted memory []) (hsettled : Settled memory) (id : ℕ) :
    memory.objects id = none := by
  by_contra hlive
  obtain ⟨cell, hcell⟩ := Option.ne_none_iff_exists'.mp hlive
  have hlong (n : ℕ) : ∃ id cell nodes, memory.objects id = some cell ∧
      Chain (nextOf memory) (some id) nodes ∧ n ≤ nodes.length := by
    induction n with
    | zero =>
      obtain ⟨nodes, hchain⟩ := h.ends id cell hcell (hsettled id cell hcell)
      exact ⟨id, cell, nodes, hcell, hchain, Nat.zero_le _⟩
    | succ n ih =>
      obtain ⟨node, found, nodes, hfound, hchain, hlength⟩ := ih
      have hcount := h.refcount node found hfound
      have hactive := hsettled node found hfound
      have htotal : memory.total (pointsTo node) ≠ 0 := by
        rw [List.count_nil] at hcount
        omega
      obtain ⟨pred, before, hbefore, hpoints⟩ : ∃ pred before, memory.objects pred = some before ∧
          pointsTo node before ≠ 0 := by
        by_contra hnone
        apply htotal
        apply Heap.total_eq_zero
        intro pred before hbefore
        by_contra hne
        exact hnone ⟨pred, before, hbefore, hne⟩
      have hlink : before.next = some node := by
        by_contra hne
        exact hpoints (if_neg fun hboth ↦ hne hboth.2)
      refine ⟨pred, before, pred :: nodes, hbefore, ⟨rfl, ?_⟩, Nat.succ_le_succ hlength⟩
      rw [nextOf_eq hbefore, hlink]
      exact hchain
  obtain ⟨longest, found, nodes, hfound, hchain, hlength⟩ := hlong (memory.next + 1)
  have hbound := h.chain_length hfound (hsettled longest found hfound) hchain
  omega

theorem counted_empty : Counted (Heap.empty : Memory α) [] where
  refcount _ _ hcell := by cases hcell
  held _ hmem := by cases hmem
  next _ _ hcell := by cases hcell
  ends _ _ hcell := by cases hcell

theorem settled_empty : Settled (Heap.empty : Memory α) := by
  intro _ _ hcell
  cases hcell

end Pointers

end Icecast.Lib.SharedList
