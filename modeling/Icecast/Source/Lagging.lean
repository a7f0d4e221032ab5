import Icecast.Source.QueueInvariant

/-!
# Listeners that fall behind

One iteration of the loop in `source_main`: a buffer is appended, the size of the queue is compared
with its limit, every listener is served once, pending listeners are admitted, and the queue is
trimmed. A listener that still refers to the first buffer after it has been served is removed when
the comparison said so. In such an iteration nothing but the burst can keep the first buffer, so a
queue over its limit never gets longer.
-/

namespace Icecast.Source.Queue

open Lib.LinkedList Lib.Machine Lib.MachineInt

/-! ## One iteration -/

/-- What a turn of the loop in `send_to_listener` does to the references of the listener. -/
inductive Turn where
  | readIntro (len : ℕ) (introOffset : ℤ)
  | leaveFile
  | advance
  deriving DecidableEq

def clientTurn (i : ℕ) (s : SourceState) : Turn → SourceState
  | .readIntro len introOffset => readIntro s i len introOffset
  | .leaveFile => leaveFile s i
  | .advance => formatAdvanceQueue s i

/-- The turns of one listener, and whether its connection has died by then. -/
structure Visit where
  turns : List Turn
  error : Bool
  deriving DecidableEq

/-- The end of `send_to_listener`: the listener is dropped for an error of its connection or, when
the deletion of the first buffer is expected, for referring to that buffer. -/
def dropped (s : SourceState) (i : ℕ) (visit : Visit) (deletionExpected : Bool) : Bool :=
  match s.clients[i]? with
  | none => false
  | some client =>
    visit.error || (deletionExpected && client.refbuf.isSome && client.refbuf == s.streamData)

/-- The loop over the client tree, with `left` listeners to go from position `i` on. -/
def clientLoop (removeFromQ : Bool) (visits : ℕ → Visit) : ℕ → ℕ → SourceState → SourceState
  | 0, _, s => s
  | left + 1, i, s =>
    let s := (visits left).turns.foldl (clientTurn i) s
    if dropped s i (visits left) removeFromQ then clientLoop removeFromQ visits left i (leave s i)
    else clientLoop removeFromQ visits left (i + 1) s

/-- A pending listener that is admitted: a new one with the private buffer its HTTP header is in, or
one that comes from another source. -/
inductive Pending where
  | new (len : ℕ)
  | moved (introOffset : ℤ)
  deriving DecidableEq

def admitPending (s : SourceState) : Pending → SourceState
  | .new len => join s len
  | .moved introOffset => arrive s introOffset

/-- What other threads can do to the source while the client tree is not locked. -/
inductive Other where
  | setBurstSize (size : ℕ)
  | setQueueSizeLimit (size : ℕ)
  | moveAway (i : ℕ)
  deriving DecidableEq

def otherStep (s : SourceState) : Other → SourceState
  | .setBurstSize size => { s with burstSize := size }
  | .setQueueSizeLimit size => { s with queueSizeLimit := size }
  | .moveAway i => leave s i

/-- What happens in an iteration: the buffer that has been read, if any, what other threads do
before the tree is locked, the visits to the listeners and the listeners admitted. -/
structure Iteration where
  refbuf : Option (ℕ × Bool)
  others : List Other
  visits : ℕ → Visit
  admitted : List Pending

/-- The source at the comparison of `queue_size` with its limit. -/
def lagCheck (s : SourceState) (it : Iteration) : SourceState :=
  match it.refbuf with
  | none => s
  | some (len, syncPoint) => append s len syncPoint

def overLimit (s : SourceState) : Bool := s.queueSizeLimit < s.queueSize

def iterate (s : SourceState) (it : Iteration) : SourceState :=
  let s := lagCheck s it
  let removeFromQ := overLimit s
  let s := it.others.foldl otherStep s
  let s := clientLoop removeFromQ it.visits s.clients.length 0 s
  let s := it.admitted.foldl admitPending s
  trim s

inductive MainEvent where
  | iterate (it : Iteration)
  | other (event : Other)

def mainStep (s : SourceState) : MainEvent → SourceState
  | .iterate it => iterate s it
  | .other event => otherStep s event

/-- The buffers of the queue, in their order. -/
def queueNodes (s : SourceState) : List ℕ := walk (nextOf s) s.fresh s.streamData

variable {s s' s'' : SourceState} {front back : List ℕ} {i : ℕ}

theorem QueueInv.queueNodes_eq (inv : QueueInv s front back) : queueNodes s = front ++ back :=
  inv.chain.walk_eq inv.length_le

theorem QueueInv.streamData_eq (inv : QueueInv s front back) :
    s.streamData = (front ++ back).head? := inv.chain.head?_eq.symm

/-! ## Serving one listener -/

/-- Only the listener at position `i` changes, and no queued buffer changes its length. -/
structure Served (nodes : List ℕ) (i : ℕ) (s s' : SourceState) : Prop where
  length_eq : s'.clients.length = s.clients.length
  other_eq : ∀ j, j ≠ i → s'.clients[j]? = s.clients[j]?
  len_eq : ∀ addr ∈ nodes, (s'.heap addr).len = (s.heap addr).len

theorem Served.refl (nodes : List ℕ) (i : ℕ) (s : SourceState) : Served nodes i s s :=
  ⟨rfl, fun _ _ ↦ rfl, fun _ _ ↦ rfl⟩

theorem Served.trans {nodes : List ℕ} (h : Served nodes i s s') (h' : Served nodes i s' s'') :
    Served nodes i s s'' where
  length_eq := h'.length_eq.trans h.length_eq
  other_eq j hj := (h'.other_eq j hj).trans (h.other_eq j hj)
  len_eq addr hmem := (h'.len_eq addr hmem).trans (h.len_eq addr hmem)

theorem served_clientSetQueue (nodes : List ℕ) (s : SourceState) (i : ℕ) (client : Client) :
    Served nodes i s (clientSetQueue s i client) := by
  cases hold : s.clients[i]? with
  | none =>
    rw [show clientSetQueue s i client = s by simp [clientSetQueue, hold]]
    exact Served.refl nodes i s
  | some old =>
    obtain ⟨heap, hstate, hheap⟩ := clientSetQueue_eq hold client
    rw [hstate]
    refine ⟨by simp, ?_, ?_⟩
    · intro j hj
      exact List.getElem?_set_ne (Ne.symm hj)
    · intro addr _
      simp only [hheap]

theorem served_findClientStart (nodes : List ℕ) (s : SourceState) (i : ℕ) :
    Served nodes i s (findClientStart s i) := by
  unfold findClientStart
  split
  · exact Served.refl nodes i s
  · split
    · exact Served.refl nodes i s
    · exact served_clientSetQueue nodes s i _

theorem served_leaveFile (nodes : List ℕ) (s : SourceState) (i : ℕ) :
    Served nodes i s (leaveFile s i) := by
  unfold leaveFile
  split
  · exact Served.refl nodes i s
  · split
    · exact Served.refl nodes i s
    · exact (served_clientSetQueue nodes s i _).trans (served_findClientStart nodes _ i)

theorem served_formatAdvanceQueue (nodes : List ℕ) (s : SourceState) (i : ℕ) :
    Served nodes i s (formatAdvanceQueue s i) := by
  unfold formatAdvanceQueue
  split
  · exact Served.refl nodes i s
  · split
    · exact Served.refl nodes i s
    · split
      · split
        · exact Served.refl nodes i s
        · exact served_clientSetQueue nodes s i _
      · exact Served.refl nodes i s

theorem QueueInv.served_readIntro (inv : QueueInv s front back) (i len : ℕ) (introOffset : ℤ) :
    Served (front ++ back) i s (Queue.readIntro s i len introOffset) := by
  unfold Queue.readIntro
  split
  · exact Served.refl _ i s
  · rename_i client hclient
    split
    · exact Served.refl _ i s
    · rename_i hfile
      rw [Bool.not_eq_true] at hfile
      split
      · refine ⟨by simp [Queue.refbufNew], fun j hj ↦ List.getElem?_set_ne (Ne.symm hj), ?_⟩
        intro addr hmem
        have hne : addr ≠ s.fresh := (inv.allocated addr hmem).ne
        simp [Queue.refbufNew, hne]
      · rename_i own hrefbuf
        refine ⟨by simp [modifyHeap], fun j hj ↦ List.getElem?_set_ne (Ne.symm hj), ?_⟩
        intro addr hmem
        -- the buffer that is filled is the listener's own
        have hne : addr ≠ own := by
          rintro rfl
          exact inv.client_private client (List.mem_of_getElem? hclient) hfile addr hmem hrefbuf
        simp [modifyHeap, hne]

theorem QueueInv.clientTurn (inv : QueueInv s front back) (i : ℕ) (turn : Turn) :
    QueueInv (Queue.clientTurn i s turn) front back ∧
      Served (front ++ back) i s (Queue.clientTurn i s turn) := by
  cases turn with
  | readIntro len introOffset =>
    exact ⟨inv.readIntro i len introOffset, inv.served_readIntro i len introOffset⟩
  | leaveFile => exact ⟨inv.leaveFile i, served_leaveFile _ s i⟩
  | advance => exact ⟨inv.formatAdvanceQueue i, served_formatAdvanceQueue _ s i⟩

theorem QueueInv.clientTurns (inv : QueueInv s front back) (i : ℕ) (turns : List Turn) :
    QueueInv (turns.foldl (Queue.clientTurn i) s) front back ∧
      Served (front ++ back) i s (turns.foldl (Queue.clientTurn i) s) := by
  induction turns generalizing s with
  | nil => exact ⟨inv, Served.refl _ i s⟩
  | cons turn turns ih =>
    obtain ⟨inv', hserved⟩ := inv.clientTurn i turn
    obtain ⟨inv'', hserved'⟩ := ih inv'
    exact ⟨inv'', hserved.trans hserved'⟩

theorem leave_clients (s : SourceState) (i : ℕ) : (leave s i).clients = s.clients.eraseIdx i := by
  cases hold : s.clients[i]? with
  | none => simp [leave, detach, clientSetQueue, hold]
  | some old =>
    obtain ⟨heap, hstate, -⟩ := clientSetQueue_eq hold ⟨none, 0, false⟩
    simp [leave, detach, hstate, List.eraseIdx_set_eq]

theorem leave_len (s : SourceState) (i addr : ℕ) : ((leave s i).heap addr).len = (s.heap addr).len :=
  (served_clientSetQueue [addr] s i ⟨none, 0, false⟩).len_eq addr (by simp)

/-! ## The loop over the listeners -/

/-- Positions before `i` have been served; `left` are still to come. With the deletion of the first
buffer expected, no listener behind the loop refers to it. -/
theorem QueueInv.clientLoop (inv : QueueInv s front back) (removeFromQ : Bool) (visits : ℕ → Visit)
    {left i : ℕ} (hcount : i + left = s.clients.length) :
    let s' := Queue.clientLoop removeFromQ visits left i s
    QueueInv s' front back ∧ (∀ addr ∈ front ++ back, (s'.heap addr).len = (s.heap addr).len) ∧
      ∀ head, removeFromQ = true → (front ++ back).head? = some head →
        (∀ j < i, ∀ client, s.clients[j]? = some client → client.refbuf ≠ some head) →
        ∀ client ∈ s'.clients, client.refbuf ≠ some head := by
  induction left generalizing i s with
  | zero =>
    refine ⟨inv, fun _ _ ↦ rfl, ?_⟩
    intro head _ _ hbefore client hmem
    rw [Queue.clientLoop] at hmem
    obtain ⟨j, hj, hclient⟩ := List.mem_iff_getElem.mp hmem
    exact hbefore j (by omega) client (List.getElem?_eq_some_iff.mpr ⟨hj, hclient⟩)
  | succ left ih =>
    obtain ⟨inv', hserved⟩ := inv.clientTurns i (visits left).turns
    simp only [Queue.clientLoop]
    set served := (visits left).turns.foldl (Queue.clientTurn i) s with hturns
    have hlength := hserved.length_eq
    by_cases hdropped : dropped served i (visits left) removeFromQ = true
    · rw [if_pos hdropped]
      have hcount' : i + left = (Queue.leave served i).clients.length := by
        rw [leave_clients, List.length_eraseIdx_of_lt (by omega)]
        omega
      obtain ⟨inv'', hlen, hclear⟩ := ih (inv'.leave i) hcount'
      refine ⟨inv'', ?_, ?_⟩
      · intro addr hmem
        rw [hlen addr hmem, leave_len, hserved.len_eq addr hmem]
      · intro head hexpected hhead hbefore
        apply hclear head hexpected hhead
        intro j hj client hclient
        rw [leave_clients, List.getElem?_eraseIdx_of_lt hj, hserved.other_eq j hj.ne] at hclient
        exact hbefore j hj client hclient
    · rw [if_neg hdropped]
      obtain ⟨inv'', hlen, hclear⟩ := ih inv' (show i + 1 + left = _ by omega)
      refine ⟨inv'', ?_, ?_⟩
      · intro addr hmem
        rw [hlen addr hmem, hserved.len_eq addr hmem]
      · intro head hexpected hhead hbefore
        apply hclear head hexpected hhead
        intro j hj client hclient
        rcases Nat.lt_succ_iff_lt_or_eq.mp hj with hlt | rfl
        · rw [hserved.other_eq j hlt.ne] at hclient
          exact hbefore j hlt client hclient
        · intro hrefbuf
          -- such a listener has been dropped
          have hstart := inv'.streamData_eq.trans hhead
          simp [dropped, hclient, hexpected, hrefbuf, hstart] at hdropped

/-! ## The other steps -/

theorem QueueInv.otherSteps (inv : QueueInv s front back) (others : List Other) :
    QueueInv (others.foldl otherStep s) front back ∧
      ∀ addr ∈ front ++ back, ((others.foldl otherStep s).heap addr).len = (s.heap addr).len := by
  induction others generalizing s with
  | nil => exact ⟨inv, fun _ _ ↦ rfl⟩
  | cons other others ih =>
    have hother : QueueInv (otherStep s other) front back ∧
        ∀ addr, ((otherStep s other).heap addr).len = (s.heap addr).len := by
      cases other with
      | setBurstSize size =>
        exact ⟨inv.congr (fun _ _ ↦ rfl) le_rfl rfl rfl rfl rfl rfl rfl (fun _ _ ↦ rfl)
          inv.client_allocated inv.client_linked inv.client_private, fun _ ↦ rfl⟩
      | setQueueSizeLimit size =>
        exact ⟨inv.congr (fun _ _ ↦ rfl) le_rfl rfl rfl rfl rfl rfl rfl (fun _ _ ↦ rfl)
          inv.client_allocated inv.client_linked inv.client_private, fun _ ↦ rfl⟩
      | moveAway i => exact ⟨inv.leave i, leave_len s i⟩
    obtain ⟨inv', hlen⟩ := ih hother.1
    exact ⟨inv', fun addr hmem ↦ (hlen addr hmem).trans (hother.2 addr)⟩

/-- Admitted listeners are not on the queue yet. -/
theorem QueueInv.admitAll (inv : QueueInv s front back) (admitted : List Pending) :
    QueueInv (admitted.foldl admitPending s) front back ∧
      (∀ addr ∈ front ++ back, ((admitted.foldl admitPending s).heap addr).len = (s.heap addr).len) ∧
      ∀ head ∈ front ++ back, (∀ client ∈ s.clients, client.refbuf ≠ some head) →
        ∀ client ∈ (admitted.foldl admitPending s).clients, client.refbuf ≠ some head := by
  induction admitted generalizing s with
  | nil => exact ⟨inv, fun _ _ ↦ rfl, fun _ _ h ↦ h⟩
  | cons pending admitted ih =>
    have hone : QueueInv (admitPending s pending) front back ∧
        (∀ addr ∈ front ++ back, ((admitPending s pending).heap addr).len = (s.heap addr).len) ∧
        ∀ head ∈ front ++ back, (∀ client ∈ s.clients, client.refbuf ≠ some head) →
          ∀ client ∈ (admitPending s pending).clients, client.refbuf ≠ some head := by
      cases pending with
      | new len =>
        have hne : ∀ addr ∈ front ++ back, addr ≠ s.fresh :=
          fun addr hmem ↦ (inv.allocated addr hmem).ne
        refine ⟨inv.join len, ?_, ?_⟩
        · intro addr hmem
          simp [admitPending, Queue.join, Queue.refbufNew, hne addr hmem]
        · intro head hmem hclear client hclient
          rcases List.mem_append.mp hclient with hold | hnew
          · exact hclear client hold
          · rw [List.mem_singleton.mp hnew]
            exact fun h ↦ hne head hmem (Option.some.inj h).symm
      | moved introOffset =>
        refine ⟨inv.arrive introOffset, fun _ _ ↦ rfl, ?_⟩
        intro head _ hclear client hclient
        rcases List.mem_append.mp hclient with hold | hnew
        · exact hclear client hold
        · rw [List.mem_singleton.mp hnew]
          simp
    obtain ⟨inv', hlen, hclear⟩ := ih hone.1
    refine ⟨inv', fun addr hmem ↦ (hlen addr hmem).trans (hone.2.1 addr hmem), ?_⟩
    intro head hmem hnone
    exact hclear head hmem (hone.2.2 head hmem hnone)

theorem trimLoop_clients (fuel : ℕ) (s : SourceState) : (trimLoop fuel s).clients = s.clients := by
  induction fuel generalizing s with
  | zero => rfl
  | succ fuel ih =>
    unfold trimLoop
    split
    · rfl
    · split
      · split
        · rfl
        · rw [ih]
          rfl
      · rfl

theorem trimLoop_len (fuel : ℕ) (s : SourceState) (addr : ℕ) :
    ((trimLoop fuel s).heap addr).len = (s.heap addr).len := by
  induction fuel generalizing s with
  | zero => rfl
  | succ fuel ih =>
    unfold trimLoop
    split
    · rfl
    · rename_i toGo _
      split
      · split
        · rfl
        · rw [ih]
          by_cases h : addr = toGo
          · simp [refbufRelease, modifyHeap, h]
          · simp [refbufRelease, modifyHeap, h]
      · rfl

/-- Trimming removes a first buffer that lies before the burst point and that no listener refers
to. -/
theorem QueueInv.trim_head {head : ℕ} {rest : List ℕ} (inv : QueueInv s (head :: rest) back)
    (hclear : ∀ client ∈ s.clients, client.refbuf ≠ some head) :
    ∃ removed front', rest = removed ++ front' ∧ QueueInv (Queue.trim s) front' back := by
  obtain ⟨removed, front', hfront, inv', -, hsettled⟩ := inv.trim
  cases removed with
  | nil =>
    obtain rfl : head :: rest = front' := hfront
    have hrefs : refs (Queue.trim s) head = 0 := by
      rw [refs, Queue.trim, trimLoop_clients, List.countP_eq_zero]
      simpa using hclear
    have hcount := inv'.count_front head List.mem_cons_self
    rw [hrefs] at hcount
    exact absurd hcount (hsettled head inv'.streamData_eq)
  | cons first removed =>
    obtain ⟨rfl, rfl⟩ := List.cons.inj hfront
    exact ⟨removed, front', rfl, inv'⟩

/-! ## The whole iteration -/

variable {it : Iteration}

/-- From the comparison on. No buffer is added; with the queue over its limit, the first buffer goes
unless the burst begins there. -/
theorem QueueInv.iterate (inv : QueueInv (lagCheck s it) front back) :
    ∃ removed front', front = removed ++ front' ∧ QueueInv (Queue.iterate s it) front' back ∧
      (∀ addr ∈ front ++ back,
        ((Queue.iterate s it).heap addr).len = ((lagCheck s it).heap addr).len) ∧
      ∀ head, overLimit (lagCheck s it) = true → front.head? = some head →
        head ∈ removed ∧ ∀ client ∈ (Queue.iterate s it).clients, client.refbuf ≠ some head := by
  obtain ⟨inv₁, hlen₁⟩ := inv.otherSteps it.others
  obtain ⟨inv₂, hlen₂, hclear₂⟩ := inv₁.clientLoop (overLimit (lagCheck s it)) it.visits
    (i := 0) (Nat.zero_add _)
  obtain ⟨inv₃, hlen₃, hclear₃⟩ := inv₂.admitAll it.admitted
  have hlen : ∀ addr ∈ front ++ back,
      ((Queue.iterate s it).heap addr).len = ((lagCheck s it).heap addr).len := by
    intro addr hmem
    rw [Queue.iterate, Queue.trim, trimLoop_len, hlen₃ addr hmem, hlen₂ addr hmem, hlen₁ addr hmem]
  by_cases hlag : overLimit (lagCheck s it) = true ∧ front ≠ []
  · obtain ⟨head, rest, rfl⟩ := List.exists_cons_of_ne_nil hlag.2
    have hnone : ∀ client ∈ (it.admitted.foldl admitPending _).clients, client.refbuf ≠ some head :=
      hclear₃ head List.mem_cons_self
        (hclear₂ head hlag.1 rfl fun j hj ↦ absurd hj (Nat.not_lt_zero j))
    obtain ⟨removed, front', rfl, inv'⟩ := inv₃.trim_head hnone
    refine ⟨head :: removed, front', rfl, inv', hlen, ?_⟩
    intro head' _ hhead
    obtain rfl : head = head' := Option.some.inj hhead
    refine ⟨List.mem_cons_self, ?_⟩
    rw [Queue.iterate, Queue.trim, trimLoop_clients]
    exact hnone
  · obtain ⟨removed, front', hfront, inv', -⟩ := inv₃.trim
    refine ⟨removed, front', hfront, inv', hlen, ?_⟩
    intro head hover hhead
    exact absurd ⟨hover, by rintro rfl; cases hhead⟩ hlag

theorem QueueInv.lagCheck (inv : QueueInv s front back) (it : Iteration) :
    ∃ front' back', QueueInv (Queue.lagCheck s it) front' back' ∧
      (front' ++ back' = front ++ back ∨ front' ++ back' = front ++ back ++ [s.fresh] ∧
        ((Queue.lagCheck s it).burstOffset ≤ s.burstSize ∨ back'.length ≤ 1)) := by
  unfold Queue.lagCheck
  cases it.refbuf with
  | none => exact ⟨front, back, inv, Or.inl rfl⟩
  | some refbuf =>
    obtain ⟨front', back', inv', hnodes, hsettled⟩ := inv.append refbuf.1 refbuf.2
    exact ⟨front', back', inv', Or.inr ⟨hnodes, hsettled⟩⟩

theorem QueueInv.mainStep (inv : QueueInv s front back) (event : MainEvent) :
    Queued (Queue.mainStep s event) := by
  cases event with
  | iterate it =>
    obtain ⟨front₁, back₁, inv₁, -⟩ := inv.lagCheck it
    obtain ⟨-, front', -, inv', -⟩ := inv₁.iterate
    exact ⟨front', back₁, inv'⟩
  | other event =>
    obtain ⟨inv', -⟩ := inv.otherSteps [event]
    exact ⟨front, back, inv'⟩

theorem run_main_queued (events : List MainEvent) : Queued (run mainStep startSource events) := by
  apply run_invariant mainStep Queued
  · rintro s event ⟨front, back, inv⟩
    exact inv.mainStep event
  · exact startSource_queued

/-- In an iteration that finds the queue over its limit and the burst point behind the first buffer,
that buffer leaves the queue and nobody refers to it any more. -/
theorem QueueInv.iterate_over_limit (inv : QueueInv s front back) {head : ℕ}
    (hhead : (Queue.lagCheck s it).streamData = some head)
    (hburst : (Queue.lagCheck s it).burstPoint ≠ some head)
    (hover : overLimit (Queue.lagCheck s it) = true) :
    head ∉ queueNodes (Queue.iterate s it) ∧
      (∀ client ∈ (Queue.iterate s it).clients, client.refbuf ≠ some head) ∧
      (queueNodes (Queue.iterate s it)).length ≤ (queueNodes s).length := by
  obtain ⟨front₁, back₁, inv₁, hnodes⟩ := inv.lagCheck it
  have hfirst : front₁.head? = some head := by
    have hstart := inv₁.streamData_eq.symm.trans hhead
    cases front₁ with
    | nil => exact absurd (inv₁.burst_eq.trans hstart) hburst
    | cons first rest => exact hstart
  obtain ⟨removed, front', rfl, inv', -, hgone⟩ := inv₁.iterate
  obtain ⟨hremoved, hclear⟩ := hgone head hover hfirst
  rw [inv'.queueNodes_eq, inv.queueNodes_eq]
  refine ⟨?_, hclear, ?_⟩
  · intro hmem
    have hnodup := inv₁.nodup
    rw [List.append_assoc, List.nodup_append] at hnodup
    exact hnodup.2.2 head hremoved head hmem rfl
  · have hpos := List.length_pos_of_mem hremoved
    rcases hnodes with hsame | ⟨hlonger, -⟩
    · have hlength := congrArg List.length hsame
      simp only [List.length_append] at hlength ⊢
      omega
    · have hlength := congrArg List.length hlonger
      simp only [List.length_append, List.length_cons, List.length_nil] at hlength ⊢
      omega

/-! ## The length of the queue -/

/-- An iteration with both settings below the bound. Format plugins return no empty buffer, and the
queue holds less than 4 GiB, so that `queue_size` is its size. -/
def Within (bound : ℕ) (s : SourceState) : MainEvent → Prop
  | .iterate it =>
    s.burstSize ≤ bound ∧ s.queueSizeLimit ≤ bound ∧
      (∀ len syncPoint, it.refbuf = some (len, syncPoint) → 0 < len) ∧
      sumOfLens (lagCheck s it) (queueNodes (lagCheck s it)) < 2 ^ 32
  | .other _ => True

theorem length_le_sumOfLens {nodes : List ℕ} (hfilled : ∀ addr ∈ nodes, 0 < (s.heap addr).len) :
    nodes.length ≤ sumOfLens s nodes := by
  induction nodes with
  | nil => exact Nat.zero_le _
  | cons addr nodes ih =>
    have hfirst := hfilled addr List.mem_cons_self
    have hrest := ih fun other hmem ↦ hfilled other (List.mem_cons_of_mem addr hmem)
    rw [sumOfLens_cons, List.length_cons]
    omega

theorem advanceBurst_frame (fuel : ℕ) (s : SourceState) :
    (advanceBurst fuel s).queueSizeLimit = s.queueSizeLimit ∧
      ∀ addr, ((advanceBurst fuel s).heap addr).len = (s.heap addr).len := by
  induction fuel generalizing s with
  | zero => exact ⟨rfl, fun _ ↦ rfl⟩
  | succ fuel ih =>
    unfold advanceBurst
    split
    · split
      · exact ⟨rfl, fun _ ↦ rfl⟩
      · rename_i toRelease _
        split
        · exact ⟨rfl, fun _ ↦ rfl⟩
        · rename_i next _
          obtain ⟨hlimit, hlen⟩ := ih (refbufRelease { s with
            burstPoint := some next
            burstOffset := usub 32 s.burstOffset (s.heap toRelease).len } toRelease)
          refine ⟨hlimit, fun addr ↦ (hlen addr).trans ?_⟩
          by_cases h : addr = toRelease
          · simp [refbufRelease, modifyHeap, h]
          · simp [refbufRelease, modifyHeap, h]
    · exact ⟨rfl, fun _ ↦ rfl⟩

theorem QueueInv.append_frame (inv : QueueInv s front back) (len : ℕ) (syncPoint : Bool) :
    (Queue.append s len syncPoint).queueSizeLimit = s.queueSizeLimit ∧
      ((Queue.append s len syncPoint).heap s.fresh).len = len ∧
      ∀ addr ∈ front ++ back, ((Queue.append s len syncPoint).heap addr).len = (s.heap addr).len := by
  have htail : (Queue.refbufNew s len syncPoint).streamDataTail ≠ some s.fresh := by
    intro h
    have hmem : s.fresh ∈ front ++ back := List.mem_of_getLast? (inv.tail_eq.symm.trans h)
    exact (inv.allocated _ hmem).ne rfl
  obtain ⟨heap, hstate, hheap⟩ := linkBuffer_eq (Queue.refbufNew s len syncPoint) htail
  obtain ⟨hlimit, hlen⟩ := advanceBurst_frame
    (Queue.linkBuffer (Queue.refbufNew s len syncPoint) s.fresh).fresh
    (Queue.linkBuffer (Queue.refbufNew s len syncPoint) s.fresh)
  refine ⟨hlimit.trans ?_, (hlen _).trans ?_, fun addr hmem ↦ (hlen addr).trans ?_⟩
  · rw [hstate]
    rfl
  · rw [hstate]
    simp [hheap, Queue.refbufNew]
  · have hne : addr ≠ s.fresh := (inv.allocated addr hmem).ne
    rw [hstate]
    simp [hheap, Queue.refbufNew, hne]

theorem QueueInv.lagCheck_frame (inv : QueueInv s front back)
    (hfilled : ∀ addr ∈ front ++ back, 0 < (s.heap addr).len)
    (hrefbuf : ∀ len syncPoint, it.refbuf = some (len, syncPoint) → 0 < len) :
    (Queue.lagCheck s it).queueSizeLimit = s.queueSizeLimit ∧
      ∀ addr ∈ front ++ back ++ [s.fresh], addr ∈ queueNodes (Queue.lagCheck s it) →
        0 < ((Queue.lagCheck s it).heap addr).len := by
  unfold Queue.lagCheck
  split
  · refine ⟨rfl, ?_⟩
    intro addr _ hmem
    rw [inv.queueNodes_eq] at hmem
    exact hfilled addr hmem
  · rename_i len syncPoint hsome
    obtain ⟨hlimit, hnew, hold⟩ := inv.append_frame len syncPoint
    refine ⟨hlimit, ?_⟩
    intro addr hmem _
    rcases List.mem_append.mp hmem with hmem | hmem
    · rw [hold addr hmem]
      exact hfilled addr hmem
    · rw [List.mem_singleton.mp hmem, hnew]
      exact hrefbuf len syncPoint hsome

/-- A queue of filled buffers that is not longer than the bound allows. -/
def Short (bound : ℕ) (s : SourceState) : Prop :=
  ∃ front back, QueueInv s front back ∧ (∀ addr ∈ front ++ back, 0 < (s.heap addr).len) ∧
    (front ++ back).length ≤ bound + 1

theorem Short.mainStep {bound : ℕ} (h : Short bound s) {event : MainEvent}
    (hwithin : Within bound s event) : Short bound (Queue.mainStep s event) := by
  obtain ⟨front, back, inv, hfilled, hlength⟩ := h
  cases event with
  | other event =>
    obtain ⟨inv', hlen⟩ := inv.otherSteps [event]
    refine ⟨front, back, inv', ?_, hlength⟩
    intro addr hmem
    have hsame := hlen addr hmem
    simp only [List.foldl_cons, List.foldl_nil] at hsame
    simp only [Queue.mainStep, hsame]
    exact hfilled addr hmem
  | iterate it =>
    obtain ⟨hburst, hlimit, hrefbuf, hsmall⟩ := hwithin
    obtain ⟨front₁, back₁, inv₁, hnodes⟩ := inv.lagCheck it
    obtain ⟨hsettings, hfilled'⟩ := inv.lagCheck_frame hfilled hrefbuf
    rw [inv₁.queueNodes_eq] at hsmall hfilled'
    have hfilled₁ : ∀ addr ∈ front₁ ++ back₁, 0 < ((Queue.lagCheck s it).heap addr).len := by
      intro addr hmem
      refine hfilled' addr ?_ hmem
      rcases hnodes with hsame | ⟨hlonger, -⟩
      · exact List.mem_append_left _ (hsame ▸ hmem)
      · exact hlonger ▸ hmem
    have hcount := length_le_sumOfLens hfilled₁
    have hqueueSize := inv₁.queueSize_eq
    rw [Nat.mod_eq_of_lt hsmall] at hqueueSize
    obtain ⟨removed, front', rfl, inv', hlen, hgone⟩ := inv₁.iterate
    have hsub : ∀ addr ∈ front' ++ back₁, addr ∈ removed ++ front' ++ back₁ := by
      intro addr hmem
      rw [List.append_assoc]
      exact List.mem_append_right removed hmem
    refine ⟨front', back₁, inv', ?_, ?_⟩
    · intro addr hmem
      simp only [Queue.mainStep]
      rw [hlen addr (hsub addr hmem)]
      exact hfilled₁ addr (hsub addr hmem)
    · have hremaining : (front' ++ back₁).length ≤ (removed ++ front' ++ back₁).length := by
        simp only [List.length_append]
        omega
      by_cases hover : overLimit (Queue.lagCheck s it) = true
      · by_cases hfront : removed ++ front' = []
        · -- the whole queue is the burst, which an append leaves small
          rcases hnodes with hsame | ⟨-, hsettled | hone⟩
          · rw [hsame] at hremaining
            omega
          · have hoffset := inv₁.burstOffset_eq
            rw [hfront, List.nil_append] at hsmall hcount hremaining
            rw [Nat.mod_eq_of_lt hsmall] at hoffset
            omega
          · rw [hfront, List.nil_append] at hremaining
            omega
        · obtain ⟨head, hhead⟩ := Option.ne_none_iff_exists'.mp
            (fun h ↦ hfront (List.head?_eq_none_iff.mp h))
          have hpos := List.length_pos_of_mem (hgone head hover hhead).1
          rcases hnodes with hsame | ⟨hlonger, -⟩
          · rw [hsame] at hremaining
            omega
          · have hgrown := congrArg List.length hlonger
            simp only [List.length_append, List.length_cons, List.length_nil] at hgrown hlength ⊢
            omega
      · have hunder : (Queue.lagCheck s it).queueSize ≤ (Queue.lagCheck s it).queueSizeLimit := by
          simpa [overLimit] using hover
        omega

theorem short_startSource (bound : ℕ) : Short bound startSource := by
  obtain ⟨front, back, inv⟩ := startSource_queued
  have hempty : front ++ back = [] := List.head?_eq_none_iff.mp inv.streamData_eq.symm
  exact ⟨front, back, inv, by simp [hempty], by simp [hempty]⟩

/-- In every reachable state, an iteration that finds the queue over its limit and the burst point
behind the first buffer removes that buffer, leaves no listener referring to it, and does not make
the queue longer; and so no listener makes the queue longer than its settings allow. -/
theorem slow_listeners_cannot_pin_queue :
    (∀ (events : List MainEvent) (it : Iteration) (head : ℕ),
      let s := run mainStep startSource events
      (lagCheck s it).streamData = some head → (lagCheck s it).burstPoint ≠ some head →
      (lagCheck s it).queueSizeLimit < (lagCheck s it).queueSize →
        head ∉ queueNodes (iterate s it) ∧
          (∀ client ∈ (iterate s it).clients, client.refbuf ≠ some head) ∧
          (queueNodes (iterate s it)).length ≤ (queueNodes s).length) ∧
      ∀ (bound : ℕ) (events : List MainEvent), Guarded mainStep (Within bound) startSource events →
        (queueNodes (run mainStep startSource events)).length ≤ bound + 1 := by
  constructor
  · intro events it head s hhead hburst hover
    obtain ⟨front, back, inv⟩ := run_main_queued events
    exact inv.iterate_over_limit hhead hburst (decide_eq_true hover)
  · intro bound events hguarded
    obtain ⟨front, back, inv, -, hlength⟩ := run_invariant_of_guarded mainStep (Short bound)
      (fun _ _ h hwithin ↦ h.mainStep hwithin) events (short_startSource bound) hguarded
    rw [inv.queueNodes_eq]
    exact hlength

/-- A listener is placed at the only buffer of the queue and stalls there. -/
def stalledRun : List MainEvent :=
  [.other (.setBurstSize 5), .other (.setQueueSizeLimit 10),
    .iterate ⟨some (8, true), [], fun _ ↦ ⟨[], false⟩, [.moved 0]⟩,
    .iterate ⟨none, [], fun _ ↦ ⟨[.leaveFile], false⟩, []⟩]

/-- The next buffer puts the queue over its limit; the listener goes, and the buffer with it. -/
theorem stalled_listener_removed :
    let s := run mainStep startSource stalledRun
    let it : Iteration := ⟨some (6, true), [], fun _ ↦ ⟨[], false⟩, []⟩
    s.clients = [⟨some 0, -1, true⟩] ∧ queueNodes s = [0] ∧
      0 ∉ queueNodes (iterate s it) ∧
      (∀ client ∈ (iterate s it).clients, client.refbuf ≠ some 0) ∧
      (queueNodes (iterate s it)).length ≤ (queueNodes s).length :=
  ⟨by decide +kernel, by decide +kernel,
    slow_listeners_cannot_pin_queue.1 stalledRun _ 0 (by decide +kernel) (by decide +kernel)
      (by decide +kernel)⟩

end Icecast.Source.Queue
