import Icecast.Source.Queue

/-!
# The queue invariant

The queue is a list `front ++ back` whose second part begins at the burst point. Both running sums
and all reference counts are determined by these two lists and by the listeners, and every event
keeps it that way. It follows that the buffer at the front can have a count of one only if it lies
before the burst point and no listener refers to it.
-/

namespace Icecast.Source.Queue

open Lib.LinkedList Lib.Machine Lib.MachineInt

/-- The number of listeners that refer to a buffer. -/
def refs (s : SourceState) (addr : ℕ) : ℕ := s.clients.countP (·.refbuf = some addr)

def nextOf (s : SourceState) (addr : ℕ) : Option ℕ := (s.heap addr).next

def sumOfLens (s : SourceState) (nodes : List ℕ) : ℕ := (nodes.map fun addr ↦ (s.heap addr).len).sum

structure QueueInv (s : SourceState) (front back : List ℕ) : Prop where
  chain : Chain (nextOf s) s.streamData (front ++ back)
  tail_eq : s.streamDataTail = (front ++ back).getLast?
  burst_eq : s.burstPoint = back.head?
  burst_mem : back = [] → front = []
  queueSize_eq : s.queueSize = sumOfLens s (front ++ back) % 2 ^ 32
  burstOffset_eq : s.burstOffset = sumOfLens s back % 2 ^ 32
  count_front : ∀ addr ∈ front, (s.heap addr).count = 1 + refs s addr
  count_back : ∀ addr ∈ back, (s.heap addr).count = 2 + refs s addr
  allocated : ∀ addr ∈ front ++ back, addr < s.fresh
  client_allocated : ∀ client ∈ s.clients, ∀ addr, client.refbuf = some addr → addr < s.fresh
  client_linked : ∀ client ∈ s.clients, client.onQueue = true →
    ∃ addr ∈ front ++ back, client.refbuf = some addr
  client_private : ∀ client ∈ s.clients, client.onQueue = false →
    ∀ addr ∈ front ++ back, client.refbuf ≠ some addr
  expected : s.unexpected = false

variable {s : SourceState} {front back : List ℕ}

theorem QueueInv.nodup (inv : QueueInv s front back) : (front ++ back).Nodup := inv.chain.nodup

theorem QueueInv.length_le (inv : QueueInv s front back) : (front ++ back).length ≤ s.fresh := by
  have hsub : front ++ back ⊆ List.range s.fresh := fun addr hmem ↦
    List.mem_range.mpr (inv.allocated addr hmem)
  simpa using (List.subperm_of_subset inv.nodup hsub).length_le

theorem QueueInv.refs_eq_zero (inv : QueueInv s front back) {addr : ℕ} (h : s.fresh ≤ addr) :
    refs s addr = 0 := by
  rw [refs, List.countP_eq_zero]
  intro client hmem
  simp only [decide_eq_true_eq]
  intro hrefbuf
  exact absurd (inv.client_allocated client hmem addr hrefbuf) (by omega)

/-- The invariant reads the heap only at the queued buffers. -/
theorem QueueInv.congr (inv : QueueInv s front back) {s' : SourceState}
    (hheap : ∀ addr ∈ front ++ back, s'.heap addr = s.heap addr) (hfresh : s.fresh ≤ s'.fresh)
    (hstart : s'.streamData = s.streamData) (htail : s'.streamDataTail = s.streamDataTail)
    (hburst : s'.burstPoint = s.burstPoint) (hqueue : s'.queueSize = s.queueSize)
    (hoffset : s'.burstOffset = s.burstOffset) (hexpected : s'.unexpected = s.unexpected)
    (hrefs : ∀ addr ∈ front ++ back, refs s' addr = refs s addr)
    (hallocated : ∀ client ∈ s'.clients, ∀ addr, client.refbuf = some addr → addr < s'.fresh)
    (hlinked : ∀ client ∈ s'.clients, client.onQueue = true →
      ∃ addr ∈ front ++ back, client.refbuf = some addr)
    (hprivate : ∀ client ∈ s'.clients, client.onQueue = false →
      ∀ addr ∈ front ++ back, client.refbuf ≠ some addr) : QueueInv s' front back := by
  have hsum (nodes : List ℕ) (hsub : nodes ⊆ front ++ back) :
      sumOfLens s' nodes = sumOfLens s nodes := by
    unfold sumOfLens
    congr 1
    apply List.map_congr_left
    intro addr hmem
    rw [hheap addr (hsub hmem)]
  refine ⟨?_, htail.trans inv.tail_eq, hburst.trans inv.burst_eq, inv.burst_mem, ?_, ?_, ?_, ?_, ?_,
    hallocated, hlinked, hprivate, hexpected.trans inv.expected⟩
  · rw [hstart]
    exact inv.chain.congr fun addr hmem ↦ by rw [nextOf, hheap addr hmem, nextOf]
  · rw [hqueue, hsum _ (List.Subset.refl _)]
    exact inv.queueSize_eq
  · rw [hoffset, hsum _ (List.subset_append_right _ _)]
    exact inv.burstOffset_eq
  · intro addr hmem
    have hmem' := List.mem_append_left back hmem
    rw [hheap addr hmem', hrefs addr hmem']
    exact inv.count_front addr hmem
  · intro addr hmem
    have hmem' := List.mem_append_right front hmem
    rw [hheap addr hmem', hrefs addr hmem']
    exact inv.count_back addr hmem
  · intro addr hmem
    exact (inv.allocated addr hmem).trans_le hfresh

theorem QueueInv.congr_clients (inv : QueueInv s front back) {clients : List Client}
    (hrefs : ∀ addr ∈ front ++ back, refs { s with clients := clients } addr = refs s addr)
    (hallocated : ∀ client ∈ clients, ∀ addr, client.refbuf = some addr → addr < s.fresh)
    (hlinked : ∀ client ∈ clients, client.onQueue = true →
      ∃ addr ∈ front ++ back, client.refbuf = some addr)
    (hprivate : ∀ client ∈ clients, client.onQueue = false →
      ∀ addr ∈ front ++ back, client.refbuf ≠ some addr) :
    QueueInv { s with clients := clients } front back :=
  inv.congr (fun _ _ ↦ rfl) le_rfl rfl rfl rfl rfl rfl rfl hrefs hallocated hlinked hprivate

/-! ## Listeners -/

/-- What `client_set_queue` does to the heap and to the listeners. -/
theorem clientSetQueue_eq {i : ℕ} {old : Client} (hold : s.clients[i]? = some old)
    (client : Client) :
    ∃ heap, clientSetQueue s i client = { s with heap := heap, clients := s.clients.set i client } ∧
      ∀ addr, heap addr = { s.heap addr with
        count := (s.heap addr).count + (if client.refbuf = some addr then 1 else 0) -
          (if old.refbuf = some addr then 1 else 0) } := by
  unfold clientSetQueue
  simp only [hold]
  cases hnew : client.refbuf with
  | none =>
    cases hprev : old.refbuf with
    | none => exact ⟨s.heap, rfl, fun addr ↦ by simp⟩
    | some prev =>
      refine ⟨_, rfl, fun addr ↦ ?_⟩
      by_cases hp : addr = prev
      · simp [hp]
      · simp [hp, Ne.symm hp]
  | some new =>
    cases hprev : old.refbuf with
    | none =>
      refine ⟨_, rfl, fun addr ↦ ?_⟩
      by_cases hn : addr = new
      · simp [hn]
      · simp [hn, Ne.symm hn]
    | some prev =>
      refine ⟨_, rfl, fun addr ↦ ?_⟩
      by_cases hp : addr = prev <;> by_cases hn : addr = new
      all_goals simp_all [refbufAddref, modifyHeap, Function.update_apply, eq_comm]

theorem refs_set {i : ℕ} {old : Client} (hold : s.clients[i]? = some old) (client : Client)
    (heap : ℕ → Refbuf) (addr : ℕ) :
    refs { s with heap := heap, clients := s.clients.set i client } addr =
      refs s addr - (if old.refbuf = some addr then 1 else 0) +
        (if client.refbuf = some addr then 1 else 0) := by
  obtain ⟨hlt, hget⟩ := List.getElem?_eq_some_iff.mp hold
  simp only [refs, List.countP_set hlt, hget, decide_eq_true_eq]

theorem refs_pos {i : ℕ} {old : Client} (hold : s.clients[i]? = some old) {addr : ℕ}
    (h : old.refbuf = some addr) : 0 < refs s addr := by
  rw [refs, List.countP_pos_iff]
  exact ⟨old, List.mem_of_getElem? hold, by simpa using h⟩

/-- A listener may be made to refer to any queued buffer, or to none. -/
theorem QueueInv.clientSetQueue (inv : QueueInv s front back) (i : ℕ) {client : Client}
    (hmem : ∀ addr, client.refbuf = some addr → addr ∈ front ++ back)
    (honQueue : client.onQueue = true ↔ client.refbuf ≠ none) :
    QueueInv (Queue.clientSetQueue s i client) front back := by
  cases hold : s.clients[i]? with
  | none => simpa [Queue.clientSetQueue, hold] using inv
  | some old =>
    obtain ⟨heap, hstate, hheap⟩ := clientSetQueue_eq hold client
    rw [hstate]
    have hclient : ∀ other ∈ s.clients.set i client, other ∈ s.clients ∨ other = client :=
      fun other h ↦ List.mem_or_eq_of_mem_set h
    have hcount (k addr : ℕ) (h : (s.heap addr).count = k + refs s addr) :
        (heap addr).count =
          k + refs { s with heap := heap, clients := s.clients.set i client } addr := by
      rw [refs_set hold, hheap]
      by_cases hprev : old.refbuf = some addr
      · have hpos := refs_pos hold hprev
        simp only [hprev, if_true]
        omega
      · simp only [hprev, if_false]
        omega
    have hsum (nodes : List ℕ) :
      sumOfLens { s with heap := heap, clients := s.clients.set i client } nodes =
        sumOfLens s nodes := by
      simp only [sumOfLens, hheap]
    refine ⟨?_, inv.tail_eq, inv.burst_eq, inv.burst_mem, ?_, ?_, ?_, ?_, inv.allocated, ?_, ?_, ?_,
      inv.expected⟩
    · exact inv.chain.congr fun addr _ ↦ by simp only [nextOf, hheap]
    · rw [hsum]
      exact inv.queueSize_eq
    · rw [hsum]
      exact inv.burstOffset_eq
    · exact fun addr h ↦ hcount 1 addr (inv.count_front addr h)
    · exact fun addr h ↦ hcount 2 addr (inv.count_back addr h)
    · intro other hother addr hrefbuf
      rcases hclient other hother with hother | rfl
      · exact inv.client_allocated other hother addr hrefbuf
      · exact inv.allocated addr (hmem addr hrefbuf)
    · intro other hother hqueued
      rcases hclient other hother with hother | rfl
      · exact inv.client_linked other hother hqueued
      · obtain ⟨addr, haddr⟩ := Option.ne_none_iff_exists'.mp (honQueue.mp hqueued)
        exact ⟨addr, hmem addr haddr, haddr⟩
    · intro other hother hfile addr haddr
      rcases hclient other hother with hother | rfl
      · exact inv.client_private other hother hfile addr haddr
      · intro hrefbuf
        have hqueued := honQueue.mpr (by simp [hrefbuf])
        simp [hfile] at hqueued

/-! ## Buffers whose count alone changes -/

@[simp] theorem nextOf_refbufRelease (addr : ℕ) : nextOf (refbufRelease s addr) = nextOf s := by
  funext other
  by_cases h : other = addr
  · simp [nextOf, refbufRelease, modifyHeap, h]
  · simp [nextOf, refbufRelease, modifyHeap, h]

@[simp] theorem sumOfLens_refbufRelease (addr : ℕ) (nodes : List ℕ) :
    sumOfLens (refbufRelease s addr) nodes = sumOfLens s nodes := by
  have hlen : ∀ other, ((refbufRelease s addr).heap other).len = (s.heap other).len := by
    intro other
    by_cases h : other = addr
    · simp [refbufRelease, modifyHeap, h]
    · simp [refbufRelease, modifyHeap, h]
  simp only [sumOfLens, hlen]

theorem count_refbufRelease_self (addr : ℕ) :
    ((refbufRelease s addr).heap addr).count = (s.heap addr).count - 1 := by
  simp [refbufRelease, modifyHeap]

theorem heap_refbufRelease_of_ne {addr other : ℕ} (h : other ≠ addr) :
    (refbufRelease s addr).heap other = s.heap other := by
  simp [refbufRelease, modifyHeap, h]

/-! ## The burst loop -/

theorem sumOfLens_cons (addr : ℕ) (nodes : List ℕ) :
    sumOfLens s (addr :: nodes) = (s.heap addr).len + sumOfLens s nodes := by
  simp [sumOfLens]

/-- The burst point moves by one buffer, which gives up the reference held for the burst. -/
theorem QueueInv.advanceBurst_turn {addr next : ℕ} (inv : QueueInv s front (addr :: next :: back)) :
    QueueInv (refbufRelease { s with
      burstPoint := some next
      burstOffset := usub 32 s.burstOffset (s.heap addr).len } addr) (front ++ [addr])
        (next :: back) := by
  have hnodes : front ++ [addr] ++ next :: back = front ++ addr :: next :: back := by simp
  have hnodup := inv.nodup
  have hfront : ∀ other ∈ front, other ≠ addr := by
    rintro other hmem rfl
    exact (List.nodup_append.mp hnodup).2.2 other hmem other List.mem_cons_self rfl
  have hback : ∀ other ∈ next :: back, other ≠ addr := by
    rintro other hmem rfl
    exact (List.nodup_cons.mp (List.nodup_append.mp hnodup).2.1).1 hmem
  refine ⟨?_, ?_, rfl, by simp, ?_, ?_, ?_, ?_, ?_, inv.client_allocated, ?_, ?_, inv.expected⟩
  · rw [hnodes, nextOf_refbufRelease]
    exact inv.chain
  · rw [hnodes]
    exact inv.tail_eq
  · rw [hnodes, sumOfLens_refbufRelease]
    exact inv.queueSize_eq
  · rw [sumOfLens_refbufRelease]
    change usub 32 s.burstOffset (s.heap addr).len = _
    rw [inv.burstOffset_eq, sumOfLens_cons, usub_uadd_mod]
    rfl
  · intro other hmem
    rcases List.mem_append.mp hmem with hother | hother
    · rw [heap_refbufRelease_of_ne (hfront other hother)]
      exact inv.count_front other hother
    · rw [List.mem_singleton.mp hother, count_refbufRelease_self]
      have hcount := inv.count_back addr List.mem_cons_self
      change (s.heap addr).count - 1 = 1 + refs s addr
      omega
  · intro other hother
    rw [heap_refbufRelease_of_ne (hback other hother)]
    exact inv.count_back other (List.mem_cons_of_mem addr hother)
  · rw [hnodes]
    exact inv.allocated
  · rw [hnodes]
    exact inv.client_linked
  · rw [hnodes]
    exact inv.client_private

theorem QueueInv.next_of_back {addr : ℕ} (inv : QueueInv s front (addr :: back)) :
    (s.heap addr).next = back.head? := ((Chain.suffix inv.chain).2.head?_eq).symm

/-- The loop moves the burst point along the queue, and no further than it has to. -/
theorem QueueInv.advanceBurst (inv : QueueInv s front back) (fuel : ℕ) :
    ∃ front' back', QueueInv (Queue.advanceBurst fuel s) front' back' ∧
      front' ++ back' = front ++ back ∧
      (back.length ≤ fuel → (Queue.advanceBurst fuel s).burstOffset ≤ s.burstSize ∨
        back'.length ≤ 1) := by
  induction fuel generalizing s front back with
  | zero =>
    refine ⟨front, back, inv, rfl, fun h ↦ Or.inr ?_⟩
    omega
  | succ fuel ih =>
    unfold Queue.advanceBurst
    split
    · cases back with
      | nil =>
        simp only [inv.burst_eq, List.head?_nil]
        exact ⟨front, [], inv, rfl, fun _ ↦ Or.inr (by simp)⟩
      | cons addr rest =>
        simp only [inv.burst_eq, List.head?_cons, inv.next_of_back]
        cases rest with
        | nil => exact ⟨front, [addr], inv, rfl, fun _ ↦ Or.inr (by simp)⟩
        | cons next rest =>
          obtain ⟨front', back', inv', hnodes, hsettled⟩ := ih inv.advanceBurst_turn
          refine ⟨front', back', inv', by simpa using hnodes, fun hfuel ↦ hsettled ?_⟩
          simp only [List.length_cons] at hfuel ⊢
          omega
    · rename_i hsmall
      exact ⟨front, back, inv, rfl, fun _ ↦ Or.inl (not_lt.mp hsmall)⟩

/-! ## Trimming -/

/-- A buffer only the queue refers to is in front of the burst point. -/
theorem QueueInv.front_of_count_eq_one {toGo : ℕ} (inv : QueueInv s front back)
    (hstart : s.streamData = some toGo) (hcount : (s.heap toGo).count = 1) :
    ∃ rest next, front = toGo :: rest ∧ (rest ++ back).head? = some next ∧ refs s toGo = 0 := by
  have hhead := inv.chain.head?_eq.trans hstart
  cases front with
  | nil =>
    have hback := inv.count_back toGo (List.mem_of_mem_head? hhead)
    omega
  | cons addr rest =>
    obtain rfl : addr = toGo := by simpa using hhead
    have hfront := inv.count_front addr List.mem_cons_self
    have hback : back ≠ [] := fun h ↦ by simpa using inv.burst_mem h
    have hrest : rest ++ back ≠ [] := by simp [hback]
    exact ⟨rest, _, rfl, List.head?_eq_some_head hrest, by omega⟩

/-- The first buffer of a queue, once nothing else refers to it, is taken off. -/
theorem QueueInv.trim_turn {toGo : ℕ} (inv : QueueInv s (toGo :: front) back) (hback : back ≠ [])
    (hrefs : refs s toGo = 0) :
    QueueInv (refbufRelease (modifyHeap { s with
      streamData := (s.heap toGo).next
      queueSize := usub 32 s.queueSize (s.heap toGo).len } toGo
        fun refbuf ↦ { refbuf with next := none }) toGo) front back := by
  have hne : ∀ addr ∈ front ++ back, addr ≠ toGo := by
    rintro addr hmem rfl
    exact (List.nodup_cons.mp inv.nodup).1 hmem
  have hfrom : ∀ addr ∈ front ++ back, addr ∈ toGo :: front ++ back :=
    fun addr hmem ↦ List.mem_cons_of_mem toGo hmem
  have hsame (s' : SourceState) (hs : s'.heap = s.heap) {addr : ℕ} (h : addr ≠ toGo) :
      (refbufRelease
        (modifyHeap s' toGo fun refbuf ↦ { refbuf with next := none }) toGo).heap addr =
        s.heap addr := by
    rw [heap_refbufRelease_of_ne h]
    simp [modifyHeap, hs, h]
  set s' := refbufRelease (modifyHeap { s with
      streamData := (s.heap toGo).next
      queueSize := usub 32 s.queueSize (s.heap toGo).len } toGo
        fun refbuf ↦ { refbuf with next := none }) toGo with hs'
  have hheap : ∀ addr ∈ front ++ back, s'.heap addr = s.heap addr :=
    fun addr hmem ↦ hsame _ rfl (hne addr hmem)
  have hsum (nodes : List ℕ) (hsub : nodes ⊆ front ++ back) :
      sumOfLens s' nodes = sumOfLens s nodes :=
    congrArg List.sum (List.map_congr_left fun addr hmem ↦ by rw [hheap addr (hsub hmem)])
  have hunreferenced : ∀ client ∈ s.clients, client.refbuf ≠ some toGo := by
    rw [refs, List.countP_eq_zero] at hrefs
    simpa using hrefs
  refine ⟨?_, ?_, inv.burst_eq, fun h ↦ absurd h hback, ?_, ?_, ?_, ?_, ?_,
    inv.client_allocated, ?_, ?_, inv.expected⟩
  · exact inv.chain.2.congr fun addr hmem ↦ by rw [nextOf, hheap addr hmem, nextOf]
  · refine inv.tail_eq.trans ?_
    rw [List.cons_append, List.getLast?_cons_of_ne_nil (by simp [hback])]
  · rw [hsum _ (List.Subset.refl _)]
    change usub 32 s.queueSize (s.heap toGo).len = _
    rw [inv.queueSize_eq, List.cons_append, sumOfLens_cons, usub_uadd_mod]
  · rw [hsum _ (List.subset_append_right _ _)]
    exact inv.burstOffset_eq
  · intro addr hmem
    rw [hheap addr (List.mem_append_left back hmem)]
    exact inv.count_front addr (List.mem_cons_of_mem toGo hmem)
  · intro addr hmem
    rw [hheap addr (List.mem_append_right front hmem)]
    exact inv.count_back addr hmem
  · exact fun addr hmem ↦ inv.allocated addr (hfrom addr hmem)
  · intro client hmem hqueued
    obtain ⟨addr, haddr, hrefbuf⟩ := inv.client_linked client hmem hqueued
    rcases List.mem_cons.mp haddr with rfl | haddr
    · exact absurd hrefbuf (hunreferenced client hmem)
    · exact ⟨addr, haddr, hrefbuf⟩
  · exact fun client hmem hfile addr haddr ↦
      inv.client_private client hmem hfile addr (hfrom addr haddr)

/-- Trimming takes buffers off the front that nobody but the queue refers to, until the first one
is referred to by somebody else. -/
theorem QueueInv.trimLoop (inv : QueueInv s front back) (fuel : ℕ) :
    ∃ removed front', front = removed ++ front' ∧ QueueInv (Queue.trimLoop fuel s) front' back ∧
      (∀ addr ∈ removed, refs s addr = 0) ∧
      (front.length < fuel → ∀ addr, (Queue.trimLoop fuel s).streamData = some addr →
        ((Queue.trimLoop fuel s).heap addr).count ≠ 1) := by
  induction fuel generalizing s front with
  | zero => exact ⟨[], front, rfl, inv, by simp, by simp⟩
  | succ fuel ih =>
    unfold Queue.trimLoop
    cases hstart : s.streamData with
    | none => exact ⟨[], front, rfl, inv, by simp, by simp [hstart]⟩
    | some toGo =>
      simp only
      split
      · rename_i hcount
        obtain ⟨rest, next, rfl, hnext, hrefs⟩ := inv.front_of_count_eq_one hstart hcount
        have hback : back ≠ [] := fun h ↦ by simpa using inv.burst_mem h
        have hnextOf : (s.heap toGo).next = some next := (inv.chain.2.head?_eq).symm.trans hnext
        have hburst : s.burstPoint ≠ some toGo := by
          intro h
          have hmem : toGo ∈ back := List.mem_of_mem_head? (inv.burst_eq.symm.trans h)
          exact (List.nodup_cons.mp inv.nodup).1 (List.mem_append_right rest hmem)
        rw [if_neg (by simp [hnextOf, hburst])]
        obtain ⟨removed, front', rfl, inv', hremoved, hsettled⟩ := ih (inv.trim_turn hback hrefs)
        refine ⟨toGo :: removed, front', rfl, inv', ?_, fun hfuel ↦ hsettled ?_⟩
        · exact List.forall_mem_cons.mpr ⟨hrefs, hremoved⟩
        · rw [List.length_cons] at hfuel
          omega
      · rename_i hcount
        refine ⟨[], front, rfl, inv, by simp, fun _ addr haddr ↦ ?_⟩
        obtain rfl : toGo = addr := by simpa [hstart] using haddr
        exact hcount

/-! ## Appending -/

/-- A new buffer is not linked yet, and no listener refers to it. -/
theorem QueueInv.refbufNew (inv : QueueInv s front back) (len : ℕ) (syncPoint : Bool) :
    QueueInv (Queue.refbufNew s len syncPoint) front back := by
  refine inv.congr ?_ (Nat.le_succ _) rfl rfl rfl rfl rfl rfl (fun _ _ ↦ rfl) ?_ inv.client_linked
    inv.client_private
  · intro addr hmem
    have hne : addr ≠ s.fresh := (inv.allocated addr hmem).ne
    simp [Queue.refbufNew, hne]
  · exact fun client hmem addr hrefbuf ↦ (inv.client_allocated client hmem addr hrefbuf).trans
      (Nat.lt_succ_self _)

/-- What linking a buffer does to the queue and to the heap. -/
theorem linkBuffer_eq (s : SourceState) {addr : ℕ} (hne : s.streamDataTail ≠ some addr) :
    ∃ heap, linkBuffer s addr = { s with
        heap := heap
        streamData := s.streamData.or (some addr)
        burstPoint := if s.streamData = none then some addr else s.burstPoint
        streamDataTail := some addr
        queueSize := uadd 32 s.queueSize (s.heap addr).len
        burstOffset := uadd 32 s.burstOffset (s.heap addr).len } ∧
      ∀ other, heap other = { s.heap other with
        next := if s.streamDataTail = some other then some addr else (s.heap other).next
        count := (s.heap other).count + (if other = addr then 1 else 0) } := by
  refine ⟨(linkBuffer s addr).heap, ?_, fun other ↦ ?_⟩
  · cases hstart : s.streamData <;> cases htail : s.streamDataTail with
    | none => simp [linkBuffer, refbufAddref, modifyHeap, hstart, htail]
    | some tail =>
      have haddr : addr ≠ tail := fun h ↦ hne (htail.trans (congrArg some h.symm))
      simp [linkBuffer, refbufAddref, modifyHeap, hstart, htail, haddr]
  · cases hstart : s.streamData <;> cases htail : s.streamDataTail with
    | none =>
      by_cases hother : other = addr
      · simp [linkBuffer, refbufAddref, modifyHeap, hstart, htail, hother]
      · simp [linkBuffer, refbufAddref, modifyHeap, hstart, htail, hother]
    | some tail =>
      have haddr : tail ≠ addr := fun h ↦ hne (htail.trans (congrArg some h))
      by_cases hother : other = addr
      · simp [linkBuffer, refbufAddref, modifyHeap, hstart, htail, hother, haddr, haddr.symm]
      · by_cases hlast : other = tail
        · simp [linkBuffer, refbufAddref, modifyHeap, hstart, htail, hlast, haddr]
        · simp [linkBuffer, refbufAddref, modifyHeap, hstart, htail, hother, hlast, Ne.symm hlast]

/-- The list with the new buffer behind its last one. -/
theorem QueueInv.chain_link (inv : QueueInv s front back) {addr : ℕ} (hnew : addr ∉ front ++ back)
    (hnext : (s.heap addr).next = none) {heap : ℕ → Refbuf}
    (hheap : ∀ other, heap other = { s.heap other with
      next := if s.streamDataTail = some other then some addr else (s.heap other).next
      count := (s.heap other).count + (if other = addr then 1 else 0) }) :
    Chain (fun other ↦ (heap other).next) (s.streamData.or (some addr))
      (front ++ back ++ [addr]) := by
  have hchain := inv.chain
  have htail := inv.tail_eq
  have haddr : s.streamDataTail ≠ some addr := fun h ↦ hnew (List.mem_of_getLast? (htail ▸ h))
  rcases List.eq_nil_or_concat (front ++ back) with hempty | ⟨init, last, hlast⟩
  · rw [hempty] at hchain ⊢
    simp [chain_nil.mp hchain, hheap, hnext, haddr]
  · have hnodup := inv.nodup
    rw [hlast, List.concat_eq_append] at hchain htail hnodup ⊢
    rw [List.getLast?_concat] at htail
    have hstart : s.streamData.or (some addr) = s.streamData := by
      rw [← hchain.head?_eq]
      cases init <;> simp
    rw [hstart]
    apply hchain.snoc
    · simp [hheap, htail]
    · simp [hheap, haddr, hnext]
    · intro other hmem
      have hne : last ≠ other := by
        rintro rfl
        simpa using (List.nodup_append.mp hnodup).2.2 last hmem
      simp [hheap, htail, hne, nextOf]

theorem QueueInv.linkBuffer (inv : QueueInv s front back) {addr : ℕ} (hnew : addr ∉ front ++ back)
    (hlt : addr < s.fresh) (hcount : (s.heap addr).count = 1) (hnext : (s.heap addr).next = none)
    (hrefs : refs s addr = 0) : QueueInv (Queue.linkBuffer s addr) front (back ++ [addr]) := by
  have hne : s.streamDataTail ≠ some addr := by
    rw [inv.tail_eq]
    exact fun h ↦ hnew (List.mem_of_getLast? h)
  obtain ⟨heap, hstate, hheap⟩ := linkBuffer_eq s hne
  rw [hstate]
  have hother : ∀ other ∈ front ++ back, (heap other).count = (s.heap other).count := by
    intro other hmem
    have h : other ≠ addr := fun h ↦ hnew (h ▸ hmem)
    simp [hheap, h]
  have hlens (nodes : List ℕ) :
      (nodes.map fun other ↦ (heap other).len).sum = sumOfLens s nodes := by
    simp only [hheap, sumOfLens]
  have hsnoc (nodes : List ℕ) :
      sumOfLens s (nodes ++ [addr]) = sumOfLens s nodes + (s.heap addr).len := by
    simp [sumOfLens]
  refine ⟨?_, ?_, ?_, by simp, ?_, ?_, ?_, ?_, ?_, inv.client_allocated, ?_, ?_, inv.expected⟩
  · rw [← List.append_assoc]
    exact inv.chain_link hnew hnext hheap
  · simp
  · cases back with
    | nil =>
      have hempty : s.streamData = none := by simpa [inv.burst_mem rfl] using inv.chain
      simp [hempty]
    | cons first rest =>
      have hstart : s.streamData ≠ none := by
        rw [← inv.chain.head?_eq]
        simp
      simp [hstart, inv.burst_eq]
  · change uadd 32 s.queueSize (s.heap addr).len = (List.map _ _).sum % 2 ^ 32
    rw [hlens, ← List.append_assoc, hsnoc, inv.queueSize_eq, uadd, Nat.mod_add_mod]
  · change uadd 32 s.burstOffset (s.heap addr).len = (List.map _ _).sum % 2 ^ 32
    rw [hlens, hsnoc, inv.burstOffset_eq, uadd, Nat.mod_add_mod]
  · intro other hmem
    change (heap other).count = 1 + refs s other
    rw [hother other (List.mem_append_left back hmem)]
    exact inv.count_front other hmem
  · intro other hmem
    change (heap other).count = 2 + refs s other
    rcases List.mem_append.mp hmem with hmem | hmem
    · rw [hother other (List.mem_append_right front hmem)]
      exact inv.count_back other hmem
    · rw [List.mem_singleton.mp hmem, hheap, hrefs, hcount]
      simp
  · intro other hmem
    rw [← List.append_assoc] at hmem
    rcases List.mem_append.mp hmem with hmem | hmem
    · exact inv.allocated other hmem
    · rw [List.mem_singleton.mp hmem]
      exact hlt
  · intro client hmem hqueued
    obtain ⟨other, hother, hrefbuf⟩ := inv.client_linked client hmem hqueued
    refine ⟨other, ?_, hrefbuf⟩
    rw [← List.append_assoc]
    exact List.mem_append_left _ hother
  · intro client hmem hfile other hother hrefbuf
    rw [← List.append_assoc] at hother
    rcases List.mem_append.mp hother with hother | hother
    · exact inv.client_private client hmem hfile other hother hrefbuf
    · rw [refs, List.countP_eq_zero] at hrefs
      rw [List.mem_singleton.mp hother] at hrefbuf
      exact hrefs client hmem (by simpa using hrefbuf)

theorem linkBuffer_burstSize (s : SourceState) (addr : ℕ) :
    (linkBuffer s addr).burstSize = s.burstSize := by
  cases hstart : s.streamData <;> cases htail : s.streamDataTail <;>
    simp [linkBuffer, refbufAddref, modifyHeap, hstart, htail]

/-- A fresh buffer comes to the end of the queue, and the burst point moves along. -/
theorem QueueInv.append (inv : QueueInv s front back) (len : ℕ) (syncPoint : Bool) :
    ∃ front' back', QueueInv (Queue.append s len syncPoint) front' back' ∧
      front' ++ back' = front ++ back ++ [s.fresh] ∧
      ((Queue.append s len syncPoint).burstOffset ≤ s.burstSize ∨ back'.length ≤ 1) := by
  have hnew : s.fresh ∉ front ++ back := fun hmem ↦ (inv.allocated _ hmem).ne rfl
  have hlinked : QueueInv (Queue.linkBuffer (Queue.refbufNew s len syncPoint) s.fresh) front
      (back ++ [s.fresh]) := by
    apply (inv.refbufNew len syncPoint).linkBuffer hnew (Nat.lt_succ_self _)
    · simp [Queue.refbufNew]
    · simp [Queue.refbufNew]
    · exact inv.refs_eq_zero le_rfl
  obtain ⟨front', back', inv', hnodes, hsettled⟩ :=
    hlinked.advanceBurst (Queue.linkBuffer (Queue.refbufNew s len syncPoint) s.fresh).fresh
  refine ⟨front', back', inv', hnodes.trans (List.append_assoc _ _ _).symm, ?_⟩
  rw [show s.burstSize = _ from
    (linkBuffer_burstSize (Queue.refbufNew s len syncPoint) s.fresh).symm]
  apply hsettled
  have hlength := hlinked.length_le
  rw [List.length_append] at hlength
  omega

theorem QueueInv.trim (inv : QueueInv s front back) :
    ∃ removed front', front = removed ++ front' ∧ QueueInv (Queue.trim s) front' back ∧
      (∀ addr ∈ removed, refs s addr = 0) ∧
      ∀ addr, (Queue.trim s).streamData = some addr → ((Queue.trim s).heap addr).count ≠ 1 := by
  obtain ⟨removed, front', hfront, inv', hremoved, hsettled⟩ := inv.trimLoop s.fresh
  refine ⟨removed, front', hfront, inv', hremoved, ?_⟩
  by_cases hback : back = []
  · intro addr haddr
    have hempty : front' ++ back = [] := by
      have hfront' := inv.burst_mem hback
      rw [hfront] at hfront'
      simp [hback, (List.append_eq_nil_iff.mp hfront').2]
    have hstart := inv'.chain.head?_eq
    rw [hempty] at hstart
    exact absurd (hstart.trans haddr) (by simp)
  · apply hsettled
    have hlength := inv.length_le
    have hpos := List.length_pos_iff.mpr hback
    rw [List.length_append] at hlength
    omega

/-! ## Turns of the listeners -/

theorem QueueInv.skipBytes_mem (inv : QueueInv s front back) (fuel size : ℕ) {addr : ℕ}
    (hmem : addr ∈ front ++ back) : skipBytes s.heap fuel size addr ∈ front ++ back := by
  induction fuel generalizing size addr with
  | zero => exact hmem
  | succ fuel ih =>
    unfold skipBytes
    split
    · split
      · exact hmem
      · rename_i next hnext
        exact ih _ (inv.chain.next_mem hmem hnext)
    · exact hmem

theorem QueueInv.findSyncPoint_mem (inv : QueueInv s front back) (fuel : ℕ) {addr found : ℕ}
    (hmem : addr ∈ front ++ back) (hfound : findSyncPoint s.heap fuel addr = some found) :
    found ∈ front ++ back := by
  induction fuel generalizing addr with
  | zero => simp [findSyncPoint] at hfound
  | succ fuel ih =>
    unfold findSyncPoint at hfound
    split at hfound
    · rwa [← Option.some.inj hfound]
    · split at hfound
      · cases hfound
      · rename_i next hnext
        exact ih (inv.chain.next_mem hmem hnext) hfound

theorem QueueInv.startOfSearch_mem (inv : QueueInv s front back) {introOffset : ℤ} {addr : ℕ}
    (h : startOfSearch s introOffset = some addr) : addr ∈ front ++ back := by
  have hburst : ∀ addr, s.burstPoint.map
      (skipBytes s.heap s.fresh (introOffset % 2 ^ 64).toNat) = some addr →
        addr ∈ front ++ back := by
    intro addr h
    obtain ⟨first, hfirst, rfl⟩ := Option.map_eq_some_iff.mp h
    rw [inv.burst_eq] at hfirst
    exact inv.skipBytes_mem _ _ (List.mem_append_right front (List.mem_of_mem_head? hfirst))
  unfold startOfSearch at h
  split at h
  · rename_i tail htail
    split at h
    · rw [inv.tail_eq] at htail
      rw [← Option.some.inj h]
      exact List.mem_of_getLast? htail
    · exact hburst addr h
  · exact hburst addr h

theorem QueueInv.findClientStart (inv : QueueInv s front back) (i : ℕ) :
    QueueInv (Queue.findClientStart s i) front back := by
  unfold Queue.findClientStart
  split
  · exact inv
  · split
    · exact inv
    · rename_i addr hfound
      obtain ⟨first, hfirst, hsync⟩ := Option.bind_eq_some_iff.mp hfound
      apply inv.clientSetQueue
      · intro other hother
        rw [← Option.some.inj hother]
        exact inv.findSyncPoint_mem _ (inv.startOfSearch_mem hfirst) hsync
      · simp

theorem QueueInv.leaveFile (inv : QueueInv s front back) (i : ℕ) :
    QueueInv (Queue.leaveFile s i) front back := by
  unfold Queue.leaveFile
  split
  · exact inv
  · split
    · exact inv
    · rename_i client _ hfile
      apply QueueInv.findClientStart
      exact inv.clientSetQueue i (by simp) (by simp [hfile])

theorem QueueInv.formatAdvanceQueue (inv : QueueInv s front back) (i : ℕ) :
    QueueInv (Queue.formatAdvanceQueue s i) front back := by
  unfold Queue.formatAdvanceQueue
  split
  · exact inv
  · rename_i client hclient
    split
    · exact inv
    · rename_i addr hrefbuf
      split
      · rename_i hqueued
        split
        · exact inv
        · rename_i next hnext
          obtain ⟨linked, hmem, hlinked⟩ :=
            inv.client_linked client (List.mem_of_getElem? hclient) hqueued
          obtain rfl : addr = linked := Option.some.inj (hrefbuf.symm.trans hlinked)
          apply inv.clientSetQueue
          · intro other hother
            rw [← Option.some.inj hother]
            exact inv.chain.next_mem hmem hnext
          · simp [hqueued]
      · exact inv

theorem QueueInv.detach (inv : QueueInv s front back) (i : ℕ) (introOffset : ℤ) :
    QueueInv (Queue.detach s i introOffset) front back :=
  inv.clientSetQueue i (by simp) (by simp)

theorem refs_eraseIdx {i : ℕ} {client : Client} (hclient : s.clients[i]? = some client)
    (hrefbuf : client.refbuf = none) (addr : ℕ) :
    refs { s with clients := s.clients.eraseIdx i } addr = refs s addr := by
  obtain ⟨hlt, hget⟩ := List.getElem?_eq_some_iff.mp hclient
  have hperm := (List.getElem_cons_eraseIdx_perm hlt).countP_eq (·.refbuf = some addr)
  rw [hget, List.countP_cons_of_neg (by simp [hrefbuf])] at hperm
  exact hperm

theorem QueueInv.leave (inv : QueueInv s front back) (i : ℕ) :
    QueueInv (Queue.leave s i) front back := by
  have inv' := inv.detach i 0
  have hsub : ∀ client ∈ (Queue.detach s i 0).clients.eraseIdx i,
      client ∈ (Queue.detach s i 0).clients := fun client hmem ↦ List.mem_of_mem_eraseIdx hmem
  apply inv'.congr_clients
  · intro addr _
    cases hclient : s.clients[i]? with
    | none =>
      have hlen : s.clients.length ≤ i := List.getElem?_eq_none_iff.mp hclient
      simp [Queue.detach, Queue.clientSetQueue, hclient, List.eraseIdx_of_length_le hlen]
    | some old =>
      obtain ⟨heap, hstate, -⟩ := clientSetQueue_eq hclient ⟨none, 0, false⟩
      have hlt := (List.getElem?_eq_some_iff.mp hclient).1
      have hleft : (Queue.detach s i 0).clients[i]? = some ⟨none, 0, false⟩ := by
        simp [Queue.detach, hstate, hlt]
      exact refs_eraseIdx hleft rfl addr
  · exact fun client hmem ↦ inv'.client_allocated client (hsub client hmem)
  · exact fun client hmem ↦ inv'.client_linked client (hsub client hmem)
  · exact fun client hmem ↦ inv'.client_private client (hsub client hmem)

theorem QueueInv.dropLagging (inv : QueueInv s front back) (i : ℕ) :
    QueueInv (Queue.dropLagging s i) front back := by
  unfold Queue.dropLagging
  split
  · exact inv
  · split
    · exact inv.leave i
    · exact inv

/-- A listener that is not on the queue may change its private buffer, or get one. -/
theorem QueueInv.setPrivate (inv : QueueInv s front back) {i : ℕ} {old client : Client}
    (hold : s.clients[i]? = some old) (hfile : old.onQueue = false)
    (hqueued : client.onQueue = false)
    (hrefbuf : ∀ addr, client.refbuf = some addr → addr < s.fresh ∧ addr ∉ front ++ back) :
    QueueInv { s with clients := s.clients.set i client } front back := by
  have hmem : ∀ other ∈ s.clients.set i client, other ∈ s.clients ∨ other = client :=
    fun other h ↦ List.mem_or_eq_of_mem_set h
  apply inv.congr_clients
  · intro addr haddr
    have hprev : old.refbuf ≠ some addr :=
      inv.client_private old (List.mem_of_getElem? hold) hfile addr haddr
    have hnew : client.refbuf ≠ some addr := fun h ↦ (hrefbuf addr h).2 haddr
    simpa [hprev, hnew] using refs_set hold client s.heap addr
  · intro other hother addr haddr
    rcases hmem other hother with hother | rfl
    · exact inv.client_allocated other hother addr haddr
    · exact (hrefbuf addr haddr).1
  · intro other hother hother'
    rcases hmem other hother with hother | rfl
    · exact inv.client_linked other hother hother'
    · rw [hqueued] at hother'
      cases hother'
  · intro other hother hother' addr haddr
    rcases hmem other hother with hother | rfl
    · exact inv.client_private other hother hother' addr haddr
    · exact fun h ↦ (hrefbuf addr h).2 haddr

theorem QueueInv.setLen (inv : QueueInv s front back) {addr : ℕ} (haddr : addr ∉ front ++ back)
    (len : ℕ) :
    QueueInv (modifyHeap s addr fun refbuf ↦ { refbuf with len := len }) front back := by
  refine inv.congr ?_ le_rfl rfl rfl rfl rfl rfl rfl (fun _ _ ↦ rfl) inv.client_allocated
    inv.client_linked inv.client_private
  intro other hmem
  have hne : other ≠ addr := fun h ↦ haddr (h ▸ hmem)
  simp [modifyHeap, hne]

theorem QueueInv.readIntro (inv : QueueInv s front back) (i len : ℕ) (introOffset : ℤ) :
    QueueInv (Queue.readIntro s i len introOffset) front back := by
  unfold Queue.readIntro
  split
  · exact inv
  · rename_i client hclient
    split
    · exact inv
    · rename_i hfile
      rw [Bool.not_eq_true] at hfile
      split
      · apply (inv.refbufNew len false).setPrivate hclient hfile rfl
        intro addr haddr
        rw [← Option.some.inj haddr]
        exact ⟨Nat.lt_succ_self _, fun hmem ↦ (inv.allocated _ hmem).ne rfl⟩
      · rename_i addr hrefbuf
        have hmem := List.mem_of_getElem? hclient
        have hprivate : addr ∉ front ++ back :=
          fun h ↦ inv.client_private client hmem hfile addr h hrefbuf
        have hqueued : { client with introOffset := introOffset }.onQueue = false := hfile
        apply (inv.setLen hprivate len).setPrivate hclient hfile hqueued
        intro other hother
        obtain rfl : addr = other := Option.some.inj (hrefbuf.symm.trans hother)
        exact ⟨inv.client_allocated client hmem addr hrefbuf, hprivate⟩

/-- A listener that is not on the queue does not disturb it. -/
theorem QueueInv.addClient (inv : QueueInv s front back) {client : Client}
    (hqueued : client.onQueue = false)
    (hrefbuf : ∀ addr, client.refbuf = some addr → addr < s.fresh ∧ addr ∉ front ++ back) :
    QueueInv { s with clients := s.clients ++ [client] } front back := by
  apply inv.congr_clients
  · intro addr hmem
    have hne : client.refbuf ≠ some addr := fun h ↦ (hrefbuf addr h).2 hmem
    simp [refs, List.countP_append, hne]
  · intro other hother addr haddr
    rcases List.mem_append.mp hother with hother | hother
    · exact inv.client_allocated other hother addr haddr
    · rw [List.mem_singleton.mp hother] at haddr
      exact (hrefbuf addr haddr).1
  · intro other hother hother'
    rcases List.mem_append.mp hother with hother | hother
    · exact inv.client_linked other hother hother'
    · rw [List.mem_singleton.mp hother, hqueued] at hother'
      cases hother'
  · intro other hother hother' addr haddr
    rcases List.mem_append.mp hother with hother | hother
    · exact inv.client_private other hother hother' addr haddr
    · rw [List.mem_singleton.mp hother]
      exact fun h ↦ (hrefbuf addr h).2 haddr

theorem QueueInv.join (inv : QueueInv s front back) (len : ℕ) :
    QueueInv (Queue.join s len) front back := by
  apply (inv.refbufNew len false).addClient rfl
  intro addr haddr
  rw [← Option.some.inj haddr]
  exact ⟨Nat.lt_succ_self _, fun hmem ↦ (inv.allocated _ hmem).ne rfl⟩

theorem QueueInv.arrive (inv : QueueInv s front back) (introOffset : ℤ) :
    QueueInv (Queue.arrive s introOffset) front back := inv.addClient rfl (by simp)

/-! ## Runs -/

def Queued (s : SourceState) : Prop := ∃ front back, QueueInv s front back

/-- Every event keeps the invariant, and every queued buffer that a listener refers to on the queue. -/
theorem QueueInv.step (inv : QueueInv s front back) (event : Event) :
    ∃ front' back', QueueInv (Queue.step s event) front' back' ∧
      ∀ addr ∈ front ++ back, 0 < refs s addr → addr ∈ front' ++ back' := by
  have hsame {s' : SourceState} (inv' : QueueInv s' front back) :
      ∃ front' back', QueueInv s' front' back' ∧
      ∀ addr ∈ front ++ back, 0 < refs s addr → addr ∈ front' ++ back' :=
    ⟨front, back, inv', fun _ hmem _ ↦ hmem⟩
  cases event with
  | append len syncPoint =>
    obtain ⟨front', back', inv', hnodes, -⟩ := inv.append len syncPoint
    refine ⟨front', back', inv', fun addr hmem _ ↦ ?_⟩
    rw [hnodes]
    exact List.mem_append_left _ hmem
  | trim =>
    obtain ⟨removed, front', rfl, inv', hremoved, -⟩ := inv.trim
    refine ⟨front', back, inv', fun addr hmem hpos ↦ ?_⟩
    rw [List.append_assoc] at hmem
    rcases List.mem_append.mp hmem with hmem | hmem
    · exact absurd (hremoved addr hmem) hpos.ne'
    · exact hmem
  | setBurstSize size =>
    exact hsame (inv.congr (fun _ _ ↦ rfl) le_rfl rfl rfl rfl rfl rfl rfl (fun _ _ ↦ rfl)
      inv.client_allocated inv.client_linked inv.client_private)
  | setQueueSizeLimit size =>
    exact hsame (inv.congr (fun _ _ ↦ rfl) le_rfl rfl rfl rfl rfl rfl rfl (fun _ _ ↦ rfl)
      inv.client_allocated inv.client_linked inv.client_private)
  | join len => exact hsame (inv.join len)
  | arrive introOffset => exact hsame (inv.arrive introOffset)
  | readIntro i len introOffset => exact hsame (inv.readIntro i len introOffset)
  | leaveFile i => exact hsame (inv.leaveFile i)
  | advance i => exact hsame (inv.formatAdvanceQueue i)
  | detach i introOffset => exact hsame (inv.detach i introOffset)
  | leave i => exact hsame (inv.leave i)
  | dropLagging i => exact hsame (inv.dropLagging i)

theorem startSource_queued : Queued startSource :=
  ⟨[], [], rfl, rfl, rfl, fun _ ↦ rfl, rfl, rfl, by simp, by simp, by simp, by simp [startSource],
    by simp [startSource], by simp [startSource], rfl⟩

theorem run_queued (events : List Event) : Queued (run step startSource events) := by
  apply run_invariant step Queued
  · rintro s event ⟨front, back, inv⟩
    obtain ⟨front', back', inv', -⟩ := inv.step event
    exact ⟨front', back', inv'⟩
  · exact startSource_queued

/-- The queue is an acyclic list with the burst point in it, both sums and all counts are right, and
the branch for an unexpected queue state has never been taken; and no event takes a buffer off the
list that a listener refers to. -/
def StreamQueueOk (s : SourceState) : Prop :=
  s.unexpected = false ∧
  ∃ front back : List ℕ,
    Chain (nextOf s) s.streamData (front ++ back) ∧ (front ++ back).Nodup ∧
    s.streamDataTail = (front ++ back).getLast? ∧
    s.burstPoint = back.head? ∧ (front ++ back ≠ [] → back ≠ []) ∧
    s.queueSize = sumOfLens s (front ++ back) % 2 ^ 32 ∧
    s.burstOffset = sumOfLens s back % 2 ^ 32 ∧
    (∀ addr ∈ front ++ back,
      (s.heap addr).count = 1 + (if addr ∈ back then 1 else 0) + refs s addr) ∧
    (∀ client ∈ s.clients, client.onQueue = true →
      ∃ addr ∈ front ++ back, client.refbuf = some addr) ∧
    ∀ event, ∃ nodes, Chain (nextOf (step s event)) (step s event).streamData nodes ∧
      ∀ addr ∈ front ++ back, (∃ client ∈ s.clients, client.refbuf = some addr) → addr ∈ nodes

theorem stream_queue_invariant (events : List Event) :
    StreamQueueOk (run step startSource events) := by
  obtain ⟨front, back, inv⟩ := run_queued events
  refine ⟨inv.expected, front, back, inv.chain, inv.nodup, inv.tail_eq, inv.burst_eq, ?_,
    inv.queueSize_eq, inv.burstOffset_eq, ?_, inv.client_linked, ?_⟩
  · intro hne hback
    exact hne (by simp [hback, inv.burst_mem hback])
  · intro addr hmem
    rcases List.mem_append.mp hmem with hfront | hback
    · have hnot : addr ∉ back := fun hback ↦
        (List.nodup_append.mp inv.nodup).2.2 addr hfront addr hback rfl
      simp [hnot, inv.count_front addr hfront]
    · simp [hback, inv.count_back addr hback]
  · intro event
    obtain ⟨front', back', inv', hkept⟩ := inv.step event
    refine ⟨front' ++ back', inv'.chain, fun addr hmem hclient ↦ hkept addr hmem ?_⟩
    rw [refs, List.countP_pos_iff]
    simpa using hclient

example : (run step startSource [.setBurstSize 10, .append 8 true, .join 3, .leaveFile 0,
    .append 7 true, .trim, .advance 0, .trim]).queueSize = 7 := by decide +kernel

end Icecast.Source.Queue
