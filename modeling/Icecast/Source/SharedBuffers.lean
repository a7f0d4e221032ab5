import Icecast.Source.Delivery

/-!
# Changes of the memory and of the queues in it

Every operation on listeners adds no links between buffers and changes the length of at most one
buffer. The operations on a queue change no lengths, and lead from buffers of queues to buffers of
queues only: any set of addresses that holds the pointers of a queue and is closed under `next` stays
so, once a buffer that is appended is added to it.
-/

namespace Icecast.Source.Delivery

open Lib Lib.Machine Lib.MachineInt
open Queue (Refbuf)
open scoped List

/-! ## Changes of the memory -/

/-- No links are added, and only the buffers that are touched may get another length. New buffers
are allocated from `fresh` on. -/
structure MemStep (touched : ℕ → Prop) (mem mem' : Memory) : Prop where
  fresh_le : mem.fresh ≤ mem'.fresh
  len_eq : ∀ addr < mem.fresh, ¬touched addr → mem'.len addr = mem.len addr
  next_of : ∀ addr < mem.fresh, ∀ next, (mem'.heap addr).next = some next →
    (mem.heap addr).next = some next
  bound : (∀ addr, mem.len addr < 2 ^ 32) → ∀ addr, mem'.len addr < 2 ^ 32

section MemStep

variable {touched touched' : ℕ → Prop} {mem mem' mem'' : Memory}

theorem MemStep.refl (mem : Memory) : MemStep touched mem mem :=
  ⟨le_refl _, fun _ _ _ ↦ rfl, fun _ _ _ h ↦ h, fun h ↦ h⟩

theorem MemStep.trans (h : MemStep touched mem mem') (h' : MemStep touched' mem' mem'')
    (htouched : ∀ addr < mem.fresh, touched' addr → touched addr) :
    MemStep touched mem mem'' := by
  refine ⟨h.fresh_le.trans h'.fresh_le, ?_, ?_, fun hbound ↦ h'.bound (h.bound hbound)⟩
  · intro addr hlt hnot
    calc mem''.len addr = mem'.len addr :=
          h'.len_eq addr (hlt.trans_le h.fresh_le) fun hold ↦ hnot (htouched addr hlt hold)
      _ = mem.len addr := h.len_eq addr hlt hnot
  · intro addr hlt next hnext
    exact h.next_of addr hlt next (h'.next_of addr (hlt.trans_le h.fresh_le) next hnext)

theorem MemStep.mono (h : MemStep touched mem mem')
    (htouched : ∀ addr < mem.fresh, touched addr → touched' addr) :
    MemStep touched' mem mem' :=
  ⟨h.fresh_le, fun addr hlt hnot ↦ h.len_eq addr hlt fun hold ↦ hnot (htouched addr hlt hold),
    h.next_of, h.bound⟩

/-- An update of the fields of one buffer other than its length. -/
theorem update_memStep (mem : Memory) (addr : ℕ) {f : Refbuf → Refbuf}
    (hlen : ∀ refbuf, (f refbuf).len = refbuf.len)
    (hnext : ∀ refbuf next, (f refbuf).next = some next → refbuf.next = some next) :
    MemStep touched mem (mem.update addr f) := by
  have hsame : ∀ other, (mem.update addr f).len other = mem.len other := by
    intro other
    unfold Memory.len
    by_cases hother : other = addr
    · rw [hother, heap_update_self, hlen]
    · rw [heap_update_of_ne mem f hother]
  refine ⟨le_refl _, fun other _ _ ↦ hsame other, ?_, fun hbound other ↦ hsame other ▸ hbound other⟩
  intro other _ next
  by_cases hother : other = addr
  · rw [hother, heap_update_self]
    exact hnext _ next
  · rw [heap_update_of_ne mem f hother]
    exact id

theorem releaseOption_memStep (mem : Memory) (refbuf : Option ℕ) :
    MemStep touched mem (releaseOption mem refbuf) := by
  cases refbuf with
  | none => exact MemStep.refl mem
  | some addr =>
    unfold releaseOption refbufRelease
    exact update_memStep mem addr (fun _ ↦ rfl) fun _ _ h ↦ h

theorem addrefOption_memStep (mem : Memory) (refbuf : Option ℕ) :
    MemStep touched mem (addrefOption mem refbuf) := by
  cases refbuf with
  | none => exact MemStep.refl mem
  | some addr =>
    unfold addrefOption refbufAddref
    exact update_memStep mem addr (fun _ ↦ rfl) fun _ _ h ↦ h

theorem clientSetQueue_memStep (mem : Memory) (client : Client) (refbuf : Option ℕ) :
    MemStep touched mem (clientSetQueue mem client refbuf).1 :=
  (addrefOption_memStep mem refbuf).trans (releaseOption_memStep _ client.refbuf) fun _ _ h ↦ h

theorem freeClient_memStep (mem : Memory) (client : Client) :
    MemStep touched mem (freeClient mem client) := by
  unfold freeClient
  split
  · exact MemStep.refl mem
  · exact releaseOption_memStep mem client.refbuf

theorem freeClients_memStep (clients : List Client) (mem : Memory) :
    MemStep touched mem (clients.foldl freeClient mem) := by
  induction clients generalizing mem with
  | nil => exact MemStep.refl mem
  | cons client clients ih => exact (freeClient_memStep mem client).trans (ih _) fun _ _ h ↦ h

theorem pendingLoop_memStep (maxListeners : Option ℕ) (pending : List Client) (mem : Memory)
    (tree : List Client) (listeners : ℕ) :
    MemStep touched mem (pendingLoop maxListeners pending mem tree listeners).1 := by
  induction pending generalizing mem tree listeners with
  | nil => exact MemStep.refl mem
  | cons client pending ih =>
    unfold pendingLoop
    split
    · exact (freeClient_memStep mem client).trans (ih _ _ _) fun _ _ h ↦ h
    · exact ih _ _ _

theorem clearQueue_memStep (fuel : ℕ) (first : Option ℕ) (mem : Memory) :
    MemStep touched mem (clearQueue fuel first mem) := by
  induction fuel generalizing first mem with
  | zero => exact MemStep.refl mem
  | succ fuel ih =>
    cases first with
    | none => exact MemStep.refl mem
    | some addr =>
      have hcleared : MemStep touched mem
          (mem.update addr fun refbuf ↦ { refbuf with next := none, count := 0 }) :=
        update_memStep mem addr (fun _ ↦ rfl) fun _ _ h ↦ nomatch h
      exact hcleared.trans (ih _ _) fun _ _ h ↦ h

theorem moveClient_memStep (con : Bool) (moved : Moved) (client : Client) :
    MemStep touched moved.mem (moveClient con moved client).mem := by
  unfold moveClient
  split
  · exact clientSetQueue_memStep moved.mem client none
  · exact MemStep.refl moved.mem

theorem moveLoop_memStep (con : Bool) (tree : List Client) (moved : Moved) :
    MemStep touched moved.mem (moveLoop con tree moved).mem := by
  induction tree generalizing moved with
  | nil => exact MemStep.refl moved.mem
  | cons client tree ih => exact (moveClient_memStep con moved client).trans (ih _) fun _ _ h ↦ h

theorem len_setLen_of_ne (mem : Memory) {addr other : ℕ} (len : ℕ) (h : other ≠ addr) :
    (mem.setLen addr len).len other = mem.len other := by
  rw [Memory.len, Memory.setLen, heap_update_of_ne mem _ h, Memory.len]

@[simp] theorem len_setLen (mem : Memory) (addr len : ℕ) :
    (mem.setLen addr len).len addr = len := by
  rw [Memory.len, Memory.setLen, heap_update_self]

theorem setLen_memStep (mem : Memory) (addr : ℕ) {len : ℕ} (hlen : len < 2 ^ 32) :
    MemStep (· = addr) mem (mem.setLen addr len) := by
  refine ⟨le_refl _, fun other _ hother ↦ len_setLen_of_ne mem len hother, ?_, ?_⟩
  · intro other _ next
    unfold Memory.setLen
    by_cases hother : other = addr
    · rw [hother, heap_update_self]
      exact id
    · rw [heap_update_of_ne mem _ hother]
      exact id
  · intro hbound other
    by_cases hother : other = addr
    · rw [hother, len_setLen]
      exact hlen
    · rw [len_setLen_of_ne mem len hother]
      exact hbound other

theorem refbufNew_memStep (mem : Memory) {len : ℕ} (hlen : len < 2 ^ 32) :
    MemStep touched mem (refbufNew mem len) := by
  refine ⟨Nat.le_succ _, ?_, ?_, ?_⟩
  · intro other hlt _
    unfold Memory.len
    rw [heap_refbufNew_of_ne mem len (Nat.ne_of_lt hlt)]
  · intro other hlt next
    rw [heap_refbufNew_of_ne mem len (Nat.ne_of_lt hlt)]
    exact id
  · intro hbound other
    unfold Memory.len
    by_cases hother : other = mem.fresh
    · rw [hother, heap_refbufNew_self]
      exact hlen
    · rw [heap_refbufNew_of_ne mem len hother]
      exact hbound other

@[simp] theorem len_refbufNew (mem : Memory) (len : ℕ) :
    (refbufNew mem len).len mem.fresh = len := by
  rw [Memory.len, heap_refbufNew_self]

end MemStep

/-! ## Shared buffers -/

section Shared

variable {shared : ℕ → Prop}

def NextShared (shared : ℕ → Prop) (heap : ℕ → Refbuf) : Prop :=
  ∀ addr next, shared addr → (heap addr).next = some next → shared next

/-- The pointers of a queue, and everything they lead to, are shared. -/
structure QueueShared (shared : ℕ → Prop) (queue : Queue.SourceState) : Prop where
  next : NextShared shared queue.heap
  streamData : ∀ addr, queue.streamData = some addr → shared addr
  streamDataTail : ∀ addr, queue.streamDataTail = some addr → shared addr
  burstPoint : ∀ addr, queue.burstPoint = some addr → shared addr

theorem skipBytes_shared {heap : ℕ → Refbuf} (h : NextShared shared heap) (fuel size : ℕ) {addr : ℕ}
    (haddr : shared addr) : shared (Queue.skipBytes heap fuel size addr) := by
  induction fuel generalizing size addr with
  | zero => exact haddr
  | succ fuel ih =>
    unfold Queue.skipBytes
    split
    · split
      · exact haddr
      · rename_i next hnext
        exact ih _ (h addr next haddr hnext)
    · exact haddr

theorem findSyncPoint_shared {heap : ℕ → Refbuf} (h : NextShared shared heap) (fuel : ℕ)
    {addr found : ℕ} (haddr : shared addr) (hfound : Queue.findSyncPoint heap fuel addr = some found) :
    shared found := by
  induction fuel generalizing addr with
  | zero => exact nomatch hfound
  | succ fuel ih =>
    unfold Queue.findSyncPoint at hfound
    split at hfound
    · exact Option.some.inj hfound ▸ haddr
    · split at hfound
      · exact nomatch hfound
      · rename_i next hnext
        exact ih (h addr next haddr hnext) hfound

theorem startOfSearch_shared {queue : Queue.SourceState} (h : QueueShared shared queue) {introOffset : ℤ}
    {addr : ℕ} (haddr : Queue.startOfSearch queue introOffset = some addr) : shared addr := by
  have hburst : ∀ size, queue.burstPoint.map (Queue.skipBytes queue.heap queue.fresh size) =
      some addr → shared addr := by
    intro size hmap
    obtain ⟨first, hfirst, heq⟩ := Option.map_eq_some_iff.mp hmap
    exact heq ▸ skipBytes_shared h.next _ _ (h.burstPoint first hfirst)
  unfold Queue.startOfSearch at haddr
  split at haddr
  · rename_i tail htail
    split at haddr
    · exact h.streamDataTail addr (htail.trans haddr)
    · exact hburst _ haddr
  · exact hburst _ haddr

/-! ### Changes of a queue -/

/-- The lengths of all buffers but a new one, and the queue, after a change of a queue. -/
structure QueueStep (shared : ℕ → Prop) (queue queue' : Queue.SourceState) : Prop where
  shared : QueueShared shared queue'
  fresh_eq : queue'.fresh = queue.fresh
  len_eq : ∀ addr, (queue'.heap addr).len = (queue.heap addr).len

theorem modifyHeap_len (queue : Queue.SourceState) (addr : ℕ) {f : Refbuf → Refbuf}
    (hlen : ∀ refbuf, (f refbuf).len = refbuf.len) (other : ℕ) :
    ((Queue.modifyHeap queue addr f).heap other).len = (queue.heap other).len := by
  unfold Queue.modifyHeap
  by_cases hother : other = addr
  · simp only [hother, Function.update_self, hlen]
  · simp only [Function.update_of_ne hother]

/-- A change of one buffer that adds no link but to shared ones. -/
theorem modifyHeap_step {queue : Queue.SourceState} (h : QueueShared shared queue) (addr : ℕ)
    {f : Refbuf → Refbuf} (hlen : ∀ refbuf, (f refbuf).len = refbuf.len)
    (hnext : ∀ refbuf next, (f refbuf).next = some next → refbuf.next = some next ∨ shared next) :
    QueueStep shared queue (Queue.modifyHeap queue addr f) := by
  refine ⟨⟨?_, h.streamData, h.streamDataTail, h.burstPoint⟩, rfl, modifyHeap_len queue addr hlen⟩
  intro other next hother
  unfold Queue.modifyHeap
  by_cases heq : other = addr
  · simp only [heq, Function.update_self]
    intro hlink
    exact (hnext _ next hlink).elim (fun hold ↦ h.next addr next (heq ▸ hother) hold) id
  · simp only [Function.update_of_ne heq]
    exact h.next other next hother

theorem QueueStep.trans {queue queue' queue'' : Queue.SourceState} (h : QueueStep shared queue queue')
    (h' : QueueStep shared queue' queue'') : QueueStep shared queue queue'' :=
  ⟨h'.shared, h'.fresh_eq.trans h.fresh_eq, fun addr ↦ (h'.len_eq addr).trans (h.len_eq addr)⟩

/-- A change of the pointers and counters of a queue. -/
theorem QueueShared.step {queue queue' : Queue.SourceState} (h : QueueShared shared queue)
    (hheap : queue'.heap = queue.heap) (hfresh : queue'.fresh = queue.fresh)
    (hfirst : ∀ addr, queue'.streamData = some addr → shared addr)
    (htail : ∀ addr, queue'.streamDataTail = some addr → shared addr)
    (hburst : ∀ addr, queue'.burstPoint = some addr → shared addr) :
    QueueStep shared queue queue' :=
  ⟨⟨hheap ▸ h.next, hfirst, htail, hburst⟩, hfresh, fun _ ↦ by rw [hheap]⟩

theorem releaseBuffer_step {queue : Queue.SourceState} (h : QueueShared shared queue) (addr : ℕ) :
    QueueStep shared queue (Queue.refbufRelease queue addr) :=
  modifyHeap_step h addr (fun _ ↦ rfl) fun _ _ hlink ↦ Or.inl hlink

theorem cutBuffer_step {queue : Queue.SourceState} (h : QueueShared shared queue) (addr : ℕ) :
    QueueStep shared queue
      (Queue.modifyHeap queue addr fun refbuf ↦ { refbuf with next := none }) :=
  modifyHeap_step h addr (fun _ ↦ rfl) fun _ _ hlink ↦ nomatch hlink

theorem advanceBurst_step {queue : Queue.SourceState} (h : QueueShared shared queue) (fuel : ℕ) :
    QueueStep shared queue (Queue.advanceBurst fuel queue) := by
  induction fuel generalizing queue with
  | zero => exact ⟨h, rfl, fun _ ↦ rfl⟩
  | succ fuel ih =>
    unfold Queue.advanceBurst
    split
    · split
      · exact ⟨h, rfl, fun _ ↦ rfl⟩
      · rename_i toRelease hburst
        split
        · exact ⟨h, rfl, fun _ ↦ rfl⟩
        · rename_i next hnext
          have hmoved : QueueStep shared queue { queue with
              burstPoint := some next
              burstOffset := usub 32 queue.burstOffset (queue.heap toRelease).len } := by
            refine h.step rfl rfl h.streamData h.streamDataTail ?_
            intro addr haddr
            exact Option.some.inj haddr ▸
              h.next toRelease next (h.burstPoint toRelease hburst) hnext
          have hreleased := hmoved.trans (releaseBuffer_step hmoved.shared toRelease)
          exact hreleased.trans (ih hreleased.shared)
    · exact ⟨h, rfl, fun _ ↦ rfl⟩

theorem trimLoop_step {queue : Queue.SourceState} (h : QueueShared shared queue) (fuel : ℕ) :
    QueueStep shared queue (Queue.trimLoop fuel queue) := by
  induction fuel generalizing queue with
  | zero => exact ⟨h, rfl, fun _ ↦ rfl⟩
  | succ fuel ih =>
    unfold Queue.trimLoop
    split
    · exact ⟨h, rfl, fun _ ↦ rfl⟩
    · rename_i toGo hfirst
      split
      · split
        · exact h.step rfl rfl h.streamData h.streamDataTail h.burstPoint
        · have hmoved : QueueStep shared queue { queue with
              streamData := (queue.heap toGo).next
              queueSize := usub 32 queue.queueSize (queue.heap toGo).len } := by
            refine h.step rfl rfl ?_ h.streamDataTail h.burstPoint
            intro addr haddr
            exact h.next toGo addr (h.streamData toGo hfirst) haddr
          have hcut := hmoved.trans (cutBuffer_step hmoved.shared toGo)
          have hreleased := hcut.trans (releaseBuffer_step hcut.shared toGo)
          exact hreleased.trans (ih hreleased.shared)
      · exact ⟨h, rfl, fun _ ↦ rfl⟩

theorem linkBuffer_step {queue : Queue.SourceState} (h : QueueShared shared queue) {addr : ℕ}
    (haddr : shared addr) : QueueStep shared queue (Queue.linkBuffer queue addr) := by
  have hnew : ∀ other, some addr = some other → shared other :=
    fun other hother ↦ Option.some.inj hother ▸ haddr
  unfold Queue.linkBuffer
  extract_lets first linked len placed counted
  have hfirst : QueueStep shared queue first := by
    unfold first
    split
    · exact h.step rfl rfl hnew h.streamDataTail hnew
    · exact ⟨h, rfl, fun _ ↦ rfl⟩
  have hlinked : QueueStep shared queue linked := by
    unfold linked
    split
    · exact hfirst
    · exact hfirst.trans (modifyHeap_step hfirst.shared _ (fun _ ↦ rfl)
        fun _ next hlink ↦ Or.inr (hnew next hlink))
  have hplaced : QueueStep shared queue placed :=
    hlinked.trans (hlinked.shared.step rfl rfl hlinked.shared.streamData hnew
      hlinked.shared.burstPoint)
  have hcounted : QueueStep shared queue counted :=
    hplaced.trans (modifyHeap_step hplaced.shared addr (fun _ ↦ rfl) fun _ _ hlink ↦ Or.inl hlink)
  exact hcounted.trans (hcounted.shared.step rfl rfl hcounted.shared.streamData
    hcounted.shared.streamDataTail hcounted.shared.burstPoint)

theorem refbufNew_shared {queue : Queue.SourceState} (h : QueueShared shared queue)
    (hlt : ∀ addr, shared addr → addr < queue.fresh) (len : ℕ) (syncPoint : Bool) :
    QueueShared (fun addr ↦ shared addr ∨ addr = queue.fresh)
      (Queue.refbufNew queue len syncPoint) := by
  refine ⟨?_, fun addr haddr ↦ Or.inl (h.streamData addr haddr),
    fun addr haddr ↦ Or.inl (h.streamDataTail addr haddr),
    fun addr haddr ↦ Or.inl (h.burstPoint addr haddr)⟩
  intro addr next haddr hnext
  simp only [Queue.refbufNew] at hnext
  cases haddr with
  | inl hold =>
    rw [Function.update_of_ne (Nat.ne_of_lt (hlt addr hold))] at hnext
    exact Or.inl (h.next addr next hold hnext)
  | inr hnew =>
    rw [hnew, Function.update_self] at hnext
    exact nomatch hnext

/-- The buffer that is appended becomes shared. -/
theorem append_step {queue : Queue.SourceState} (h : QueueShared shared queue)
    (hlt : ∀ addr, shared addr → addr < queue.fresh) (len : ℕ) (syncPoint : Bool) :
    QueueStep (fun addr ↦ shared addr ∨ addr = queue.fresh)
      (Queue.refbufNew queue len syncPoint) (Queue.append queue len syncPoint) := by
  have hlinked := linkBuffer_step (refbufNew_shared h hlt len syncPoint) (Or.inr rfl)
  exact hlinked.trans (advanceBurst_step hlinked.shared _)

end Shared

end Icecast.Source.Delivery
