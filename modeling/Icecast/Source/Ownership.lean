import Icecast.Source.ListenerPass
import Icecast.Source.Moving
import Mathlib.Logic.Relation

/-!
# Who owns the buffer of a listener

Which addresses are shared is not written down anywhere; it is the set of all buffers that were ever
appended to a queue, and everything that a queue leads to is in it. A private buffer is referred to
by one listener. The length of a shared buffer never changes and that of a private one only in a pass
of its owner, so that no other listener finds its `pos` behind the end of its buffer.
-/

namespace Icecast.Source.Delivery

open Lib Lib.Machine
open scoped List

/-! ## All listeners -/

/-- How many listeners of a source refer to a buffer. -/
def holding (addr : ℕ) (source : SourceState) : ℤ := source.trees.countP (·.refbuf = some addr)

/-- How many listeners of any source refer to a buffer. -/
def holders (s : State) (addr : ℕ) : ℤ := s.sources.total (holding addr)

structure Owned (shared : ℕ → Prop) (s : State) : Prop where
  mem : MemOk shared s.mem
  pointers : ∀ id source, s.sources.objects id = some source → PointersOk shared source
  clients : ∀ id source, s.sources.objects id = some source →
    ∀ client ∈ source.trees, ClientOwned shared s.mem client
  holders_le : ∀ addr, ¬shared addr → holders s addr ≤ 1
  calls : ∀ call ∈ s.calls, call.refbuf ≠ none

section Holding

variable {shared : ℕ → Prop} {s : State} {id : ℕ} {source : SourceState}

theorem holding_nonneg (addr : ℕ) (source : SourceState) : 0 ≤ holding addr source :=
  Int.natCast_nonneg _

theorem holding_cons {client : Client} {rest : List Client} (hperm : source.trees ~ client :: rest)
    (addr : ℕ) : holding addr source =
      (rest.countP (·.refbuf = some addr) : ℤ) + if client.refbuf = some addr then 1 else 0 := by
  rw [holding, hperm.countP_eq, List.countP_cons]
  push_cast
  simp

theorem holding_eq_zero {addr : ℕ} (h : ∀ client ∈ source.trees, client.refbuf ≠ some addr) :
    holding addr source = 0 := by
  rw [holding, List.countP_eq_zero.mpr]
  · rfl
  · exact fun client hclient ↦ by simpa using h client hclient

theorem forall_ne_of_holding {addr : ℕ} (h : holding addr source ≤ 0) :
    ∀ client ∈ source.trees, client.refbuf ≠ some addr := by
  have hzero : source.trees.countP (·.refbuf = some addr) = 0 := by
    unfold holding at h
    omega
  intro client hclient
  simpa using List.countP_eq_zero.mp hzero client hclient

/-- Nobody refers to a buffer that has not been allocated. -/
theorem Owned.refbuf_ne_fresh (inv : Owned shared s) (hsource : s.sources.objects id = some source)
    {addr : ℕ} (haddr : s.mem.fresh ≤ addr) {client : Client} (hclient : client ∈ source.trees) :
    client.refbuf ≠ some addr := by
  intro hrefbuf
  have hlt := (inv.clients id source hsource client hclient).lt_fresh addr hrefbuf
  omega

theorem Owned.holders_fresh (inv : Owned shared s) {addr : ℕ} (haddr : s.mem.fresh ≤ addr) :
    holders s addr = 0 := by
  apply Heap.total_eq_zero
  intro id source hsource
  exact holding_eq_zero fun client ↦ inv.refbuf_ne_fresh hsource haddr

/-- A private buffer is referred to by one listener only. -/
theorem Owned.exclusive (inv : Owned shared s) (hsource : s.sources.objects id = some source)
    {client : Client} {rest : List Client} (hperm : source.trees ~ client :: rest) {addr : ℕ}
    (haddr : client.refbuf = some addr) (hprivate : ¬shared addr) :
    (∀ other ∈ rest, other.refbuf ≠ some addr) ∧
      ∀ other found, other ≠ id → s.sources.objects other = some found →
        ∀ client ∈ found.trees, client.refbuf ≠ some addr := by
  have hle : holders s addr ≤ 1 := inv.holders_le addr hprivate
  have hholding := holding_cons hperm addr
  rw [if_pos haddr] at hholding
  constructor
  · have hpart : holding addr source ≤ holders s addr :=
      Heap.part_le_total (holding_nonneg addr) hsource
    have hzero : rest.countP (·.refbuf = some addr) = 0 := by omega
    intro other hother
    simpa using List.countP_eq_zero.mp hzero other hother
  · intro other found hother hfound
    apply forall_ne_of_holding
    have hparts : holding addr source + holding addr found ≤ holders s addr :=
      Heap.parts_le_total (holding_nonneg addr) hsource hfound hother
    omega

/-- One source and the memory change. -/
theorem Owned.modify (inv : Owned shared s) (hsource : s.sources.objects id = some source)
    {mem' : Memory} {source' : SourceState} (hmem : MemOk shared mem')
    (hothers : ∀ other found, other ≠ id → s.sources.objects other = some found →
      ∀ client ∈ found.trees, ClientOwned shared mem' client)
    (hpointers : PointersOk shared source')
    (hclients : ∀ client ∈ source'.trees, ClientOwned shared mem' client)
    (hholders : ∀ addr, ¬shared addr →
      (s.sources.modify id fun _ ↦ source').total (holding addr) ≤ 1) :
    Owned shared { s with mem := mem', sources := s.sources.modify id fun _ ↦ source' } := by
  refine ⟨hmem, fun _ _ ↦ Heap.forall_modify inv.pointers fun _ _ ↦ hpointers, ?_, hholders,
    inv.calls⟩
  intro other found hfound
  by_cases hother : other = id
  · rw [hother, Heap.objects_modify_self, hsource] at hfound
    rw [← Option.some.inj hfound]
    exact hclients
  · rw [Heap.objects_modify_of_ne _ _ hother] at hfound
    exact hothers other found hother hfound

/-- The listeners of the source get no private buffer from elsewhere. -/
theorem Owned.total_le_one (inv : Owned shared s) (hsource : s.sources.objects id = some source)
    {source' : SourceState} {addr : ℕ} (hprivate : ¬shared addr)
    (hholding : holding addr source' ≤ holding addr source ∨
      s.mem.fresh ≤ addr ∧ holding addr source' ≤ 1) :
    (s.sources.modify id fun _ ↦ source').total (holding addr) ≤ 1 := by
  have htotal := Heap.total_modify (holding addr) s.sources (fun _ ↦ source') hsource
  have hle : s.sources.total (holding addr) ≤ 1 := inv.holders_le addr hprivate
  cases hholding with
  | inl hshrinks => omega
  | inr hnew =>
    have hzero : s.sources.total (holding addr) = 0 := inv.holders_fresh hnew.1
    have hnonneg := holding_nonneg addr source
    omega

/-- A listener of the source goes through a pass, and the others stay as they are. -/
theorem Owned.replace (inv : Owned shared s) (hsource : s.sources.objects id = some source)
    {client client' : Client} {rest : List Client} {mem' : Memory} {source' : SourceState}
    (hpass : PassOk shared s.mem client mem' client') (hpointers : PointersOk shared source')
    (hperm : source.trees ~ client :: rest) (hperm' : source'.trees ~ client' :: rest) :
    Owned shared { s with mem := mem', sources := s.sources.modify id fun _ ↦ source' } := by
  have hrest : ∀ other ∈ rest, other ∈ source.trees := fun other hother ↦
    hperm.mem_iff.mpr (List.mem_cons_of_mem client hother)
  apply inv.modify hsource (inv.mem.step hpass.memory) _ hpointers
  · intro other hother
    cases List.mem_cons.mp (hperm'.mem_iff.mp hother) with
    | inl hnew => exact hnew ▸ hpass.owned
    | inr hold =>
      apply (inv.clients id source hsource other (hrest other hold)).step hpass.memory
      exact fun addr haddr hown ↦ (inv.exclusive hsource hperm hown.1 hown.2).1 other hold haddr
  · intro addr hprivate
    apply inv.total_le_one hsource hprivate
    have hholding := holding_cons hperm addr
    have hholding' := holding_cons hperm' addr
    by_cases haddr : client'.refbuf = some addr
    · cases hpass.refbuf addr haddr hprivate with
      | inl hold =>
        rw [if_pos hold] at hholding
        rw [if_pos haddr] at hholding'
        omega
      | inr hnew =>
        have hzero : rest.countP (·.refbuf = some addr) = 0 := by
          apply List.countP_eq_zero.mpr
          intro other hother
          simpa using inv.refbuf_ne_fresh hsource hnew (hrest other hother)
        rw [if_pos haddr, hzero] at hholding'
        exact Or.inr ⟨hnew, hholding'.le⟩
    · rw [if_neg haddr] at hholding'
      have hnonneg : (0 : ℤ) ≤ if client.refbuf = some addr then 1 else 0 := by
        split <;> decide
      omega
  · intro other found hother hfound client₂ hclient₂
    apply (inv.clients other found hfound client₂ hclient₂).step hpass.memory
    exact fun addr haddr hown ↦
      (inv.exclusive hsource hperm hown.1 hown.2).2 other found hother hfound client₂ hclient₂ haddr

end Holding

/-! ## Steps -/

section Steps

variable {shared : ℕ → Prop} {s : State} {id : ℕ} {source : SourceState}

theorem ClientOwned.of_len {mem mem' : Memory} {client : Client} (h : ClientOwned shared mem client)
    (hfresh : mem.fresh ≤ mem'.fresh) (hlen : ∀ addr < mem.fresh, mem'.len addr = mem.len addr) :
    ClientOwned shared mem' client := by
  refine ⟨fun addr haddr ↦ (h.lt_fresh addr haddr).trans_le hfresh, ?_, h.shared_iff, h.unsent⟩
  intro addr haddr
  rw [hlen addr (h.lt_fresh addr haddr)]
  exact h.pos_le addr haddr

/-- All listeners notice nothing of a step that changes no lengths. -/
theorem Owned.kept (inv : Owned shared s) {mem' : Memory}
    (hmem : MemStep (fun _ ↦ False) s.mem mem') {other : ℕ} {found : SourceState}
    (hfound : s.sources.objects other = some found) :
    ∀ client ∈ found.trees, ClientOwned shared mem' client :=
  fun client hclient ↦
    (inv.clients other found hfound client hclient).step hmem fun _ _ ↦ not_false

/-- Listeners leave a source, and no length changes. -/
theorem Owned.shrink (inv : Owned shared s) (hsource : s.sources.objects id = some source)
    {mem' : Memory} {source' : SourceState} (hmem : MemStep (fun _ ↦ False) s.mem mem')
    (hpointers : PointersOk shared source') (htrees : source'.trees <+~ source.trees) :
    Owned shared { s with mem := mem', sources := s.sources.modify id fun _ ↦ source' } := by
  apply inv.modify hsource (inv.mem.step hmem) (fun _ _ _ ↦ inv.kept hmem) hpointers
  · exact fun client hclient ↦ inv.kept hmem hsource client (htrees.subset hclient)
  · intro addr hprivate
    have hle := htrees.countP_le (·.refbuf = some addr)
    exact inv.total_le_one hsource hprivate (Or.inl (Int.ofNat_le.mpr hle))

theorem Owned.onSource (inv : Owned shared s) (id : ℕ) {f : Memory → SourceState → Memory × SourceState}
    (hf : ∀ source, s.sources.objects id = some source →
      Owned shared { s with
        mem := (f s.mem source).1
        sources := s.sources.modify id fun _ ↦ (f s.mem source).2 }) :
    Owned shared (Delivery.onSource id f s) := by
  unfold Delivery.onSource
  split
  · exact inv
  · rename_i source hsource
    exact hf source hsource

/-- Changes of a source that leave its listeners and its queue as they are. -/
theorem Owned.plain (inv : Owned shared s) (id : ℕ) {f : SourceState → SourceState}
    (htrees : ∀ source, (f source).trees = source.trees)
    (hpointers : ∀ source, PointersOk shared source → PointersOk shared (f source)) :
    Owned shared (Delivery.onSource id (Delivery.plain f) s) := by
  apply inv.onSource id
  intro source hsource
  apply inv.shrink hsource (MemStep.refl s.mem) (hpointers source (inv.pointers id source hsource))
  exact (List.Perm.of_eq (htrees source)).subperm

theorem newListener_owned (hmem : MemOk shared s.mem) (client : ℕ) :
    ClientOwned shared (refbufNew s.mem perClientRefbufSize) (newListener client s.mem) := by
  have hfresh : ¬shared s.mem.fresh := fun hshared ↦ lt_irrefl _ (hmem.lt_fresh _ hshared)
  refine ⟨?_, fun _ _ ↦ Nat.zero_le _, ?_, fun _ _ ↦ rfl⟩
  · exact fun addr haddr ↦ Option.some.inj haddr ▸ Nat.lt_succ_self _
  · intro addr haddr
    rw [← Option.some.inj haddr]
    exact iff_of_false hfresh (by simp [newListener])

theorem Owned.addListener (inv : Owned shared s) (id client : ℕ) :
    Owned shared (Delivery.onSource id (Delivery.addListener client) s) := by
  apply inv.onSource id
  intro source hsource
  have hstep : MemStep (fun _ ↦ False) s.mem (refbufNew s.mem perClientRefbufSize) :=
    refbufNew_memStep s.mem (by decide)
  have hperm := addListener_trees client s.mem source
  have hold := inv.pointers id source hsource
  have hpointers : PointersOk shared (Delivery.addListener client s.mem source).2 :=
    ⟨hold.streamData, hold.streamDataTail, hold.burstPoint⟩
  apply inv.modify hsource (inv.mem.step hstep) (fun _ _ _ ↦ inv.kept hstep) hpointers
  · intro other hother
    cases List.mem_cons.mp (hperm.mem_iff.mp hother) with
    | inl hnew => exact hnew ▸ newListener_owned inv.mem client
    | inr hold => exact inv.kept hstep hsource other hold
  · intro addr hprivate
    apply inv.total_le_one hsource hprivate
    have hholding : holding addr (Delivery.addListener client s.mem source).2 =
        holding addr source + if some s.mem.fresh = some addr then 1 else 0 :=
      holding_cons hperm addr
    by_cases haddr : s.mem.fresh = addr
    · have hzero : holding addr source = 0 :=
        holding_eq_zero fun other ↦ inv.refbuf_ne_fresh hsource haddr.le
      rw [haddr, if_pos rfl, hzero] at hholding
      exact Or.inr ⟨haddr.le, hholding.le⟩
    · rw [if_neg fun hsome ↦ haddr (Option.some.inj hsome)] at hholding
      exact Or.inl (by omega)

/-- A change of the queue of a source that adds no buffers. -/
theorem Owned.queueStep (inv : Owned shared s) (hsource : s.sources.objects id = some source)
    {queue : Queue.SourceState} (hstep : QueueStep shared (queueOf s.mem source) queue) :
    Owned shared { s with
      mem := ⟨queue.heap, queue.fresh⟩
      sources := s.sources.modify id fun _ ↦ setQueue queue source } := by
  have hfresh : queue.fresh = s.mem.fresh := hstep.fresh_eq
  have hlen : ∀ addr, (queue.heap addr).len = s.mem.len addr := hstep.len_eq
  have hmem : MemOk shared ⟨queue.heap, queue.fresh⟩ := by
    refine ⟨fun addr haddr ↦ hfresh ▸ inv.mem.lt_fresh addr haddr, hstep.shared.next, ?_⟩
    exact fun addr ↦ (hlen addr).trans_lt (inv.mem.bound addr)
  have hkept : ∀ other found, s.sources.objects other = some found → ∀ client ∈ found.trees,
      ClientOwned shared ⟨queue.heap, queue.fresh⟩ client := fun other found hfound client hclient ↦
    (inv.clients other found hfound client hclient).of_len hfresh.ge fun addr _ ↦ hlen addr
  have hpointers : PointersOk shared (setQueue queue source) :=
    ⟨hstep.shared.streamData, hstep.shared.streamDataTail, hstep.shared.burstPoint⟩
  apply inv.modify hsource hmem (fun other found _ ↦ hkept other found) hpointers
  · exact hkept id source hsource
  · exact fun addr hprivate ↦ inv.total_le_one hsource hprivate (Or.inl le_rfl)

theorem Owned.trim (inv : Owned shared s) (id : ℕ) :
    Owned shared (Delivery.onSource id (onQueue Queue.trim) s) := by
  apply inv.onSource id
  intro source hsource
  have hpointers := inv.pointers id source hsource
  unfold onQueue
  split
  · exact inv.queueStep hsource (trimLoop_step (inv.mem.queueShared hpointers) _)
  · exact inv.shrink hsource (MemStep.refl s.mem) hpointers (List.Subperm.refl _)

/-- A buffer for a queue is allocated. -/
theorem Owned.extend (inv : Owned shared s) {mem' : Memory} {len : ℕ} {syncPoint : Bool}
    (hlen : len < 2 ^ 32) (hfresh : mem'.fresh = s.mem.fresh + 1)
    (hnew : mem'.heap s.mem.fresh = ⟨len, 1, none, syncPoint⟩)
    (hold : ∀ addr, addr ≠ s.mem.fresh → mem'.heap addr = s.mem.heap addr) :
    Owned (fun addr ↦ shared addr ∨ addr = s.mem.fresh) { s with mem := mem' } := by
  have hkept : ∀ addr < s.mem.fresh, mem'.heap addr = s.mem.heap addr :=
    fun addr hlt ↦ hold addr (Nat.ne_of_lt hlt)
  refine ⟨⟨?_, ?_, ?_⟩, ?_, ?_, ?_, inv.calls⟩
  · intro addr haddr
    have hle : addr ≤ s.mem.fresh :=
      haddr.elim (fun hshared ↦ (inv.mem.lt_fresh addr hshared).le) fun hlast ↦ hlast.le
    dsimp only
    omega
  · intro addr next haddr hnext
    dsimp only at hnext
    cases haddr with
    | inl hshared =>
      rw [hkept addr (inv.mem.lt_fresh addr hshared)] at hnext
      exact Or.inl (inv.mem.next addr next hshared hnext)
    | inr hlast =>
      rw [hlast, hnew] at hnext
      exact nomatch hnext
  · intro addr
    unfold Memory.len
    by_cases haddr : addr = s.mem.fresh
    · rw [haddr, hnew]
      exact hlen
    · rw [hold addr haddr]
      exact inv.mem.bound addr
  · intro id source hsource
    have h := inv.pointers id source hsource
    exact ⟨fun addr haddr ↦ Or.inl (h.streamData addr haddr),
      fun addr haddr ↦ Or.inl (h.streamDataTail addr haddr),
      fun addr haddr ↦ Or.inl (h.burstPoint addr haddr)⟩
  · intro id source hsource client hclient
    have h := inv.clients id source hsource client hclient
    refine ⟨?_, ?_, ?_, h.unsent⟩
    · intro addr haddr
      have hlt := h.lt_fresh addr haddr
      dsimp only
      omega
    · intro addr haddr
      unfold Memory.len
      rw [hkept addr (h.lt_fresh addr haddr)]
      exact h.pos_le addr haddr
    · intro addr haddr
      rw [← h.shared_iff addr haddr]
      exact or_iff_left (Nat.ne_of_lt (h.lt_fresh addr haddr))
  · exact fun addr hprivate ↦ inv.holders_le addr fun hshared ↦ hprivate (Or.inl hshared)

theorem Owned.append (inv : Owned shared s) (id len : ℕ) (syncPoint : Bool) :
    ∃ shared', Owned shared' (Delivery.onSource id
      (onQueue fun queue ↦ Queue.append queue (len % 2 ^ 32) syncPoint) s) := by
  unfold Delivery.onSource
  split
  · exact ⟨shared, inv⟩
  · rename_i source hsource
    have hpointers := inv.pointers id source hsource
    unfold onQueue
    split
    · let queue := Queue.refbufNew (queueOf s.mem source) (len % 2 ^ 32) syncPoint
      have hext : Owned (fun addr ↦ shared addr ∨ addr = s.mem.fresh)
          { s with mem := ⟨queue.heap, queue.fresh⟩ } :=
        inv.extend (Nat.mod_lt len (by decide)) rfl (Function.update_self _ _ _)
          fun addr haddr ↦ Function.update_of_ne haddr _ _
      exact ⟨_, hext.queueStep hsource
        (append_step (inv.mem.queueShared hpointers) inv.mem.lt_fresh _ syncPoint)⟩
    · exact ⟨shared, inv.shrink hsource (MemStep.refl s.mem) hpointers (List.Subperm.refl _)⟩

theorem trees_set {i : ℕ} {client : Client} (hclient : source.clientTree[i]? = some client)
    (next : Client) :
    source.trees ~ client :: (source.pendingTree ++ source.clientTree.eraseIdx i) ∧
      source.pendingTree ++ source.clientTree.set i next ~
        next :: (source.pendingTree ++ source.clientTree.eraseIdx i) := by
  obtain ⟨hlt, heq⟩ := List.getElem?_eq_some_iff.mp hclient
  constructor
  · have hperm := (List.getElem_cons_eraseIdx_perm hlt).symm
    rw [heq] at hperm
    exact (hperm.append_left source.pendingTree).trans List.perm_middle
  · exact ((List.set_perm_cons_eraseIdx hlt next).append_left _).trans List.perm_middle

theorem Owned.passClient (inv : Owned shared s) (id i : ℕ) (pass : Pass) :
    Owned shared (Delivery.passClient id i pass s) := by
  unfold Delivery.passClient
  split
  · exact inv
  · rename_i source hsource
    split
    · rename_i type client _ hclient
      split
      · have hold := inv.pointers id source hsource
        have hmem : client ∈ source.trees := List.mem_append_right _ (List.mem_of_getElem? hclient)
        have hsent := sendToListener_ok type pass inv.mem hold
          (inv.clients id source hsource client hmem)
        have hperm := trees_set hclient (sendToListener type source pass s.mem client).2.1
        have hpointers : PointersOk shared
            { source with
              clientTree := source.clientTree.set i
                (sendToListener type source pass s.mem client).2.1 } :=
          ⟨hold.streamData, hold.streamDataTail, hold.burstPoint⟩
        have hreplaced := inv.replace hsource hsent.1 hpointers hperm.1 hperm.2
        refine ⟨hreplaced.mem, hreplaced.pointers, hreplaced.clients, hreplaced.holders_le, ?_⟩
        intro call hcall
        cases List.mem_append.mp hcall with
        | inl hnew => exact hsent.2 call (Option.mem_toList.mp hnew)
        | inr hold => exact inv.calls call hold
      · exact inv
    · exact inv

theorem Owned.markClient (inv : Owned shared s) (id i : ℕ) :
    Owned shared (Delivery.onSource id (Delivery.plain (Delivery.markClient i)) s) := by
  apply inv.onSource id
  intro source hsource
  have hold := inv.pointers id source hsource
  have hpointers : PointersOk shared (Delivery.markClient i source) :=
    ⟨hold.streamData, hold.streamDataTail, hold.burstPoint⟩
  cases hclient : source.clientTree[i]? with
  | none =>
    have hsame : (Delivery.markClient i source).trees = source.trees := by
      unfold Delivery.markClient SourceState.trees
      rw [List.modify_eq_self (List.getElem?_eq_none_iff.mp hclient)]
    exact inv.shrink hsource (MemStep.refl s.mem) hpointers (List.Perm.of_eq hsame).subperm
  | some client =>
    have hmem : client ∈ source.trees := List.mem_append_right _ (List.mem_of_getElem? hclient)
    have h := inv.clients id source hsource client hmem
    have hmarked : ClientOwned shared s.mem { client with error := true } :=
      ⟨h.lt_fresh, h.pos_le, h.shared_iff, h.unsent⟩
    have hperm := trees_set hclient { client with error := true }
    have htrees : (Delivery.markClient i source).trees =
        source.pendingTree ++ source.clientTree.set i { client with error := true } := by
      unfold Delivery.markClient SourceState.trees
      rw [List.modify_eq_set_getElem?, hclient]
      rfl
    exact inv.replace hsource ((PassOk.refl h).change hmarked rfl) hpointers hperm.1
      ((List.Perm.of_eq htrees).trans hperm.2)

theorem bothLoops_memStep {touched : ℕ → Prop} (mem : Memory) (source dest : SourceState) :
    MemStep touched mem (bothLoops mem source dest).mem := by
  have hpending : MemStep touched mem
      (moveLoop source.con source.pendingTree ⟨mem, dest.pendingTree, 0⟩).mem :=
    moveLoop_memStep source.con source.pendingTree ⟨mem, dest.pendingTree, 0⟩
  exact hpending.trans (moveLoop_memStep source.con source.clientTree _) fun _ _ h ↦ h

theorem relocated_owned {mem : Memory} {client : Client} (h : ClientOwned shared mem client)
    (con : Bool) : ClientOwned shared mem (relocated con client) := by
  unfold relocated
  split
  · exact h
  · exact ⟨fun addr haddr ↦ (nomatch haddr), fun addr haddr ↦ (nomatch haddr),
      fun addr haddr ↦ (nomatch haddr), fun hhttp ↦ (nomatch hhttp)⟩

theorem relocated_refbuf {con : Bool} {client : Client} {addr : ℕ}
    (h : (relocated con client).refbuf = some addr) : client.refbuf = some addr := by
  unfold relocated at h
  split at h
  · exact h
  · exact nomatch h

/-- The listeners of both sources, on the destination. -/
theorem moved_trees (mem : Memory) {source dest : SourceState} (hmovable : movable source dest = true) :
    (sourceMoveClients mem source dest).2.2.trees ~
      dest.trees ++ source.trees.map (relocated source.con) := by
  rw [sourceMoveClients_of_movable mem hmovable]
  calc (bothLoops mem source dest).pending ++ dest.clientTree
      ~ dest.pendingTree ++ source.trees.map (relocated source.con) ++ dest.clientTree :=
        (bothLoops_perm mem source dest).append_right _
    _ ~ dest.clientTree ++ (dest.pendingTree ++ source.trees.map (relocated source.con)) :=
        List.perm_append_comm
    _ ~ dest.trees ++ source.trees.map (relocated source.con) := by
        rw [← List.append_assoc]
        exact List.perm_append_comm.append_right _

theorem moved_holding (mem : Memory) {source dest : SourceState} (hmovable : movable source dest = true)
    (addr : ℕ) : holding addr (sourceMoveClients mem source dest).2.2 ≤
      holding addr dest + holding addr source := by
  have hmap : (source.trees.map (relocated source.con)).countP (·.refbuf = some addr) ≤
      source.trees.countP (·.refbuf = some addr) := by
    rw [List.countP_map]
    apply List.countP_mono_left
    intro client _ hrefbuf
    simp only [Function.comp_apply, decide_eq_true_eq] at hrefbuf
    simpa using relocated_refbuf hrefbuf
  unfold holding
  rw [(moved_trees mem hmovable).countP_eq, List.countP_append]
  omega

/-- Both sources of a move. -/
theorem Owned.moved (inv : Owned shared s) {dest : ℕ} {target : SourceState}
    (hsource : s.sources.objects id = some source) (htarget : s.sources.objects dest = some target)
    (hne : dest ≠ id) (hmovable : movable source target = true) :
    Owned shared { s with
      mem := (sourceMoveClients s.mem source target).1
      sources := (s.sources.modify id fun _ ↦ (sourceMoveClients s.mem source target).2.1).modify
        dest fun _ ↦ (sourceMoveClients s.mem source target).2.2 } := by
  have heq := sourceMoveClients_of_movable s.mem hmovable
  have hstep : MemStep (fun _ ↦ False) s.mem (sourceMoveClients s.mem source target).1 := by
    rw [heq]
    exact bothLoops_memStep s.mem source target
  have hempty : (sourceMoveClients s.mem source target).2.1.trees = [] := by
    rw [heq]
    rfl
  have hold := inv.pointers id source hsource
  have hpointers : PointersOk shared (sourceMoveClients s.mem source target).2.1 := by
    rw [heq]
    exact ⟨hold.streamData, hold.streamDataTail, hold.burstPoint⟩
  have hleft := inv.shrink hsource hstep hpointers (hempty ▸ List.nil_subperm)
  have hthere : (s.sources.modify id fun _ ↦ (sourceMoveClients s.mem source target).2.1).objects
      dest = some target := by
    rw [Heap.objects_modify_of_ne _ _ hne, htarget]
  have hdest := inv.pointers dest target htarget
  have hpointers' : PointersOk shared (sourceMoveClients s.mem source target).2.2 := by
    rw [heq]
    exact ⟨hdest.streamData, hdest.streamDataTail, hdest.burstPoint⟩
  apply hleft.modify hthere hleft.mem (fun other found _ ↦ hleft.clients other found) hpointers'
  · intro client hclient
    cases List.mem_append.mp ((moved_trees s.mem hmovable).mem_iff.mp hclient) with
    | inl hthere => exact inv.kept hstep htarget client hthere
    | inr hmoved =>
      obtain ⟨old, hold, heq⟩ := List.mem_map.mp hmoved
      exact heq ▸ relocated_owned (inv.kept hstep hsource old hold) source.con
  · intro addr hprivate
    have hzero : holding addr (sourceMoveClients s.mem source target).2.1 = 0 := by
      apply holding_eq_zero
      rw [hempty]
      exact fun client hclient ↦ (List.not_mem_nil hclient).elim
    have hle : s.sources.total (holding addr) ≤ 1 := inv.holders_le addr hprivate
    have hmoved := moved_holding s.mem hmovable addr
    rw [Heap.total_modify (holding addr) _ _ hthere, Heap.total_modify (holding addr) _ _ hsource]
    omega

theorem Owned.moveClients (inv : Owned shared s) (id dest : ℕ) :
    Owned shared (Delivery.moveClients id dest s) := by
  unfold Delivery.moveClients
  split
  · rename_i source target hsource htarget
    split
    · exact inv
    · rename_i hne
      cases hmovable : movable source target with
      | true => exact inv.moved hsource htarget (Ne.symm hne) hmovable
      | false =>
        rw [sourceMoveClients_of_not_movable s.mem hmovable]
        have hleft := inv.shrink hsource (MemStep.refl s.mem) (inv.pointers id source hsource)
          (List.Subperm.refl _)
        have hthere : (s.sources.modify id fun _ ↦ source).objects dest = some target := by
          rw [Heap.objects_modify_of_ne _ _ (Ne.symm hne), htarget]
        exact hleft.shrink hthere (MemStep.refl s.mem) (inv.pointers dest target htarget)
          (List.Subperm.refl _)
  · exact inv

theorem Owned.step (inv : Owned shared s) (event : Event) :
    ∃ shared', Owned shared' (Delivery.step s event) := by
  cases event with
  | append id len syncPoint => exact inv.append id len syncPoint
  | reserve mount =>
    refine ⟨shared, inv.mem, ?_, ?_, ?_, inv.calls⟩
    · exact fun _ _ ↦ Heap.forall_alloc inv.pointers (PointersOk.empty rfl rfl rfl)
    · exact fun _ _ ↦ Heap.forall_alloc inv.clients fun client hclient ↦
        (List.not_mem_nil hclient).elim
    · intro addr hprivate
      have htotal := Heap.total_alloc (holding addr) s.sources (reserved mount)
      have hempty : holding addr (reserved mount) = 0 := rfl
      have hle : s.sources.total (holding addr) ≤ 1 := inv.holders_le addr hprivate
      unfold holders Delivery.step
      dsimp only
      omega
  | updateSettings id onDemand introFile maxListeners burstSize queueSizeLimit =>
    exact ⟨shared, inv.plain id (fun _ ↦ rfl)
      fun _ h ↦ ⟨h.streamData, h.streamDataTail, h.burstPoint⟩⟩
  | completeSource id type client con =>
    refine ⟨shared, inv.plain id ?_ ?_⟩
    · intro source
      split <;> rfl
    · intro source h
      split
      · exact h
      · exact ⟨h.streamData, h.streamDataTail, h.burstPoint⟩
  | init id =>
    refine ⟨shared, inv.plain id ?_ ?_⟩
    · intro source
      split <;> rfl
    · intro source h
      split
      · exact h
      · exact ⟨h.streamData, h.streamDataTail, h.burstPoint⟩
  | connect id =>
    have hadded := inv.addListener id s.nextId
    exact ⟨shared, hadded.mem, hadded.pointers, hadded.clients, hadded.holders_le, hadded.calls⟩
  | trim id => exact ⟨shared, inv.trim id⟩
  | pass id i pass => exact ⟨shared, inv.passClient id i pass⟩
  | setError id i => exact ⟨shared, inv.markClient id i⟩
  | removeClients id =>
    refine ⟨shared, inv.onSource id fun source hsource ↦ ?_⟩
    have h := inv.pointers id source hsource
    exact inv.shrink hsource (freeClients_memStep _ _)
      ⟨h.streamData, h.streamDataTail, h.burstPoint⟩ (removeClients_trees _ _)
  | addPending id =>
    refine ⟨shared, inv.onSource id fun source hsource ↦ ?_⟩
    have h := inv.pointers id source hsource
    exact inv.shrink hsource (pendingLoop_memStep _ _ _ _ _)
      ⟨h.streamData, h.streamDataTail, h.burstPoint⟩ (addPending_trees _ _)
  | move id dest => exact ⟨shared, inv.moveClients id dest⟩
  | stop id =>
    exact ⟨shared, inv.plain id (fun _ ↦ rfl)
      fun _ h ↦ ⟨h.streamData, h.streamDataTail, h.burstPoint⟩⟩
  | clear id =>
    refine ⟨shared, inv.onSource id fun source hsource ↦ ?_⟩
    exact inv.shrink hsource
      ((freeClients_memStep _ _).trans (clearQueue_memStep _ _ _) fun _ _ h ↦ h)
      (PointersOk.empty rfl rfl rfl) List.nil_subperm

end Steps

theorem owned_start : Owned (fun _ ↦ False) start := by
  refine ⟨⟨fun _ h ↦ h.elim, fun _ _ h ↦ h.elim, fun _ ↦ Nat.two_pow_pos 32⟩, ?_, ?_, ?_, ?_⟩
  · exact fun _ _ hsource ↦ (nomatch hsource)
  · exact fun _ _ hsource ↦ (nomatch hsource)
  · exact fun addr _ ↦ by simp [holders, start, Heap.total, Heap.empty]
  · exact fun _ hcall ↦ (List.not_mem_nil hcall).elim

theorem owned_run (events : List Event) : ∃ shared, Owned shared (run step start events) :=
  run_invariant step (fun s ↦ ∃ shared, Owned shared s)
    (fun _ event ⟨_, inv⟩ ↦ inv.step event) events ⟨_, owned_start⟩

/-- The buffer is linked into the queue of the source. -/
def Linked (mem : Memory) (source : SourceState) (addr : ℕ) : Prop :=
  ∃ first, source.streamData = some first ∧
    Relation.ReflTransGen (fun before behind ↦ (mem.heap before).next = some behind) first addr

theorem shared_of_linked {shared : ℕ → Prop} {mem : Memory} {source : SourceState} {addr : ℕ}
    (hmem : MemOk shared mem) (hpointers : PointersOk shared source)
    (h : Linked mem source addr) : shared addr := by
  obtain ⟨first, hfirst, hpath⟩ := h
  induction hpath with
  | refl => exact hpointers.streamData first hfirst
  | tail _ hlink ih => exact hmem.next _ _ ih hlink

/-- In every run the buffer of a listener that is not on a queue yet is linked into no queue and
referred to by no other listener, `pos` is never behind the end of the buffer, and `write_to_client`
has never been called for a listener without a buffer. -/
theorem listener_buffer_ownership (events : List Event) :
    (∀ id source, (run step start events).sources.objects id = some source →
      ∀ client ∈ source.trees, ∀ addr, client.refbuf = some addr →
        client.pos ≤ (run step start events).mem.len addr ∧
        (client.checkBuffer ≠ .formatAdvanceQueue →
          holders (run step start events) addr = 1 ∧
          ∀ other found, (run step start events).sources.objects other = some found →
            ¬Linked (run step start events).mem found addr)) ∧
      ∀ call ∈ (run step start events).calls, call.refbuf ≠ none := by
  obtain ⟨shared, inv⟩ := owned_run events
  refine ⟨?_, inv.calls⟩
  intro id source hsource client hclient addr haddr
  have howned := inv.clients id source hsource client hclient
  refine ⟨howned.pos_le addr haddr, ?_⟩
  intro hcheck
  have hprivate : ¬shared addr := fun hshared ↦ hcheck ((howned.shared_iff addr haddr).mp hshared)
  constructor
  · apply le_antisymm (inv.holders_le addr hprivate)
    have hpart : holding addr source ≤ holders (run step start events) addr :=
      Heap.part_le_total (holding_nonneg addr) hsource
    have hpos : 0 < source.trees.countP (·.refbuf = some addr) :=
      List.countP_pos_iff.mpr ⟨client, hclient, by simpa using haddr⟩
    unfold holding at hpart
    omega
  · exact fun other found hfound hlinked ↦
      hprivate (shared_of_linked inv.mem (inv.pointers other found hfound) hlinked)

/-- A listener has been sent 30 bytes of its header, which has 50. -/
def exampleHeader : List Event :=
  [.reserve "/live", .completeSource 0 .generic true true, .init 0, .connect 0, .addPending 0,
    .append 0 100 true, .pass 0 0 ⟨some 50, 30, false⟩]

def exampleListener : Client :=
  ⟨0, some 0, 30, 0, 200, .formatCheckHttpBuffer, .formatGenericWriteToClient, some .generic, false⟩

def exampleStream : SourceState :=
  { reserved "/live" with
    client := true
    con := true
    running := true
    active := true
    format := some .generic
    listeners := 1
    clientTree := [exampleListener]
    streamData := some 1
    streamDataTail := some 1
    burstPoint := some 1
    burstOffset := 100
    queueSize := 100 }

theorem listener_buffer_ownership_header :
    (run step start exampleHeader).mem.len 0 = 50 ∧
    exampleListener.pos ≤ (run step start exampleHeader).mem.len 0 ∧
    holders (run step start exampleHeader) 0 = 1 ∧
    ¬Linked (run step start exampleHeader).mem exampleStream 0 := by
  have hsource : (run step start exampleHeader).sources.objects 0 = some exampleStream := by
    decide +kernel
  have h := (listener_buffer_ownership exampleHeader).1 0 exampleStream hsource exampleListener
    (by decide) 0 rfl
  have hprivate := h.2 (by decide)
  exact ⟨by decide +kernel, h.1, hprivate.1, hprivate.2 0 exampleStream hsource⟩

end Icecast.Source.Delivery
