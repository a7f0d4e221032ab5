import Icecast.Source.Listeners

/-!
# What the global listener statistic counts

Along a run the statistic is the number of listeners with a response code of 200, provided that no
such listener is dropped from a pending tree, and that a source is only cleared when either all of
its listeners or none of them have had their header. The count of a source is the size of its client
tree throughout.
-/

namespace Icecast.Source.Listeners

open AvlTree Lib Lib.Machine
open scoped List

def counted (client : Listener) : ℕ := if client.respcode = 200 then 1 else 0

/-- The number of listeners of a tree that have had their header. -/
def answered (tree : List Listener) : ℕ := tree.countP (·.respcode = 200)

/-- The listeners of a source that the statistic should count. -/
def sourceCount (source : SourceState) : ℤ := answered source.clientTree + answered source.pendingTree

@[simp] theorem answered_nil : answered [] = 0 := rfl

theorem answered_cons (client : Listener) (tree : List Listener) :
    answered (client :: tree) = answered tree + counted client := by
  simp [answered, counted, List.countP_cons]

theorem answered_append (first second : List Listener) :
    answered (first ++ second) = answered first + answered second :=
  List.countP_append

theorem answered_eq_zero {tree : List Listener} (h : ∀ client ∈ tree, client.respcode ≠ 200) :
    answered tree = 0 := by
  simpa [answered, List.countP_eq_zero] using h

theorem answered_eq_length {tree : List Listener} (h : ∀ client ∈ tree, client.respcode = 200) :
    answered tree = tree.length := by
  simpa [answered, List.countP_eq_length] using h

theorem answered_insertAll (clients tree : List Listener) :
    answered (clients.foldl (fun tree client ↦ avlInsert Listener.id client tree) tree) =
      answered clients + answered tree := by
  rw [← answered_append]
  exact (foldl_avlInsert_perm Listener.id clients tree).countP_eq _

theorem length_insertAll (clients tree : List Listener) :
    (clients.foldl (fun tree client ↦ avlInsert Listener.id client tree) tree).length =
      clients.length + tree.length := by
  rw [← List.length_append]
  exact (foldl_avlInsert_perm Listener.id clients tree).length_eq

/-! ## A turn -/

theorem formatCheckHttpBuffer_stat (turn : Turn) (client : Listener) :
    (counted (formatCheckHttpBuffer turn client).1 : ℤ) =
      counted client + (formatCheckHttpBuffer turn client).2 := by
  unfold formatCheckHttpBuffer
  by_cases hnew : client.respcode = 0
  · rw [if_pos hnew]
    split <;> simp [counted, hnew]
  · rw [if_neg hnew]
    simp [counted]

theorem sendToListener_stat (turn : Turn) (client : Listener) :
    (counted (sendToListener turn client).1 : ℤ) =
      counted client + (sendToListener turn client).2 := by
  unfold sendToListener
  simp only
  split
  · simp [counted]
  · exact formatCheckHttpBuffer_stat turn _

theorem clientLoop_cons (turn : ℕ → Turn) (client : Listener) (tree : List Listener) :
    clientLoop turn (client :: tree) =
      if (sendToListener (turn client.id) client).1.error then
        ((clientLoop turn tree).1, (clientLoop turn tree).2.1 + 1, (clientLoop turn tree).2.2 +
          (sendToListener (turn client.id) client).2 -
          counted (sendToListener (turn client.id) client).1)
      else
        ((sendToListener (turn client.id) client).1 :: (clientLoop turn tree).1,
          (clientLoop turn tree).2.1,
          (clientLoop turn tree).2.2 + (sendToListener (turn client.id) client).2) := by
  by_cases h : (sendToListener (turn client.id) client).1.respcode = 200
  · simp [clientLoop, counted, h]
  · simp [clientLoop, counted, h]

/-- The statistic follows the listeners that are kept. -/
theorem clientLoop_stat (turn : ℕ → Turn) (tree : List Listener) :
    (answered (clientLoop turn tree).1 : ℤ) = answered tree + (clientLoop turn tree).2.2 := by
  induction tree with
  | nil => rfl
  | cons client tree ih =>
    have hsend := sendToListener_stat (turn client.id) client
    rw [answered_cons, clientLoop_cons]
    split
    · push_cast
      omega
    · rw [answered_cons]
      push_cast
      omega

theorem clientLoop_length (turn : ℕ → Turn) (tree : List Listener) :
    (clientLoop turn tree).1.length + (clientLoop turn tree).2.1 = tree.length := by
  induction tree with
  | nil => rfl
  | cons client tree ih =>
    rw [clientLoop_cons]
    split
    · simp only [List.length_cons]
      omega
    · simp only [List.length_cons]
      omega

/-- How many of the pending listeners a source takes. -/
def room (maxListeners : Option ℕ) (listeners : ℕ) (pending : List Listener) : ℕ :=
  match maxListeners with
  | none => pending.length
  | some limit => limit - listeners

theorem pendingLoop_eq (maxListeners : Option ℕ) (pending tree : List Listener) (listeners : ℕ) :
    pendingLoop maxListeners pending tree listeners =
      ((pending.take (room maxListeners listeners pending)).foldl
          (fun tree client ↦ avlInsert Listener.id client tree) tree,
        listeners + (pending.take (room maxListeners listeners pending)).length) := by
  induction pending generalizing tree listeners with
  | nil => simp [pendingLoop]
  | cons client pending ih =>
    unfold pendingLoop
    cases maxListeners with
    | none =>
      have hsum : listeners + 1 + pending.length = listeners + (pending.length + 1) := by omega
      simp only [full, Bool.false_eq_true, if_false, ih, room, List.take_length, hsum]
      rw [List.foldl_cons, List.length_cons]
    | some limit =>
      by_cases hfull : limit ≤ listeners
      · simp [full, hfull, ih, room]
      · have hroom : limit - listeners = (limit - (listeners + 1)) + 1 := by omega
        simp only [full, hfull, decide_false, Bool.false_eq_true, if_false, ih, room, hroom,
          List.take_succ_cons, List.foldl_cons, List.length_cons]
        congr 1
        omega

/-- The listeners that a turn drops because the source is full. -/
def droppedInTurn (turn : ℕ → Turn) (source : SourceState) : List Listener :=
  let left := source.listeners - (clientLoop turn source.clientTree).2.1
  source.pendingTree.drop (room source.maxListeners left source.pendingTree)

/-! ## The invariant -/

/-- A source counts its client tree, which is empty while the source is not active. -/
structure SourceOk (source : SourceState) : Prop where
  listeners_eq : source.listeners = source.clientTree.length
  idle : source.active = false → source.clientTree = []

/-- The operation keeps `SourceOk` and accounts for what it does to the listeners. -/
structure Accounts (f : SourceState → SourceState × ℤ) (source : SourceState) : Prop where
  ok : SourceOk (f source).1
  count_eq : sourceCount (f source).1 = sourceCount source + (f source).2

section SourceTurn

variable (turn : ℕ → Turn) (source : SourceState)

theorem sourceTurn_clientTree : (sourceTurn turn source).1.clientTree =
    (pendingLoop source.maxListeners source.pendingTree (clientLoop turn source.clientTree).1
      (source.listeners - (clientLoop turn source.clientTree).2.1)).1 := rfl

theorem sourceTurn_listeners : (sourceTurn turn source).1.listeners =
    (pendingLoop source.maxListeners source.pendingTree (clientLoop turn source.clientTree).1
      (source.listeners - (clientLoop turn source.clientTree).2.1)).2 := rfl

theorem sourceTurn_snd : (sourceTurn turn source).2 = (clientLoop turn source.clientTree).2.2 := rfl

end SourceTurn

theorem sourceTurn_ok {source : SourceState} (h : SourceOk source) (hactive : source.active = true)
    (turn : ℕ → Turn) : SourceOk (sourceTurn turn source).1 := by
  have hlength := clientLoop_length turn source.clientTree
  constructor
  · rw [sourceTurn_listeners, sourceTurn_clientTree, pendingLoop_eq, length_insertAll,
      h.listeners_eq]
    omega
  · intro hidle
    exact absurd (hactive.symm.trans hidle) (by decide)

theorem sourceTurn_accounts {source : SourceState} (h : SourceOk source) (hactive : source.active = true)
    (turn : ℕ → Turn) (hdropped : ∀ client ∈ droppedInTurn turn source, client.respcode ≠ 200) :
    Accounts (sourceTurn turn) source := by
  refine ⟨sourceTurn_ok h hactive turn, ?_⟩
  have hstat := clientLoop_stat turn source.clientTree
  have hdrop : answered (droppedInTurn turn source) = 0 := answered_eq_zero hdropped
  have htaken := answered_append (source.pendingTree.take (room source.maxListeners
    (source.listeners - (clientLoop turn source.clientTree).2.1) source.pendingTree))
    (droppedInTurn turn source)
  rw [droppedInTurn, List.take_append_drop, ← droppedInTurn, hdrop] at htaken
  have hempty : answered (sourceTurn turn source).1.pendingTree = 0 := rfl
  calc sourceCount (sourceTurn turn source).1
      = answered source.pendingTree + answered (clientLoop turn source.clientTree).1 := by
        rw [sourceCount, sourceTurn_clientTree, pendingLoop_eq, answered_insertAll, hempty, htaken]
        push_cast
        omega
    _ = answered source.pendingTree +
          (answered source.clientTree + (clientLoop turn source.clientTree).2.2) := by
        rw [hstat]
    _ = sourceCount source + (sourceTurn turn source).2 := by
        rw [sourceCount, sourceTurn_snd]
        omega

/-- A source whose listeners have all had their header, or none of them, and whose pending tree holds
none that has. -/
structure Uniform (source : SourceState) : Prop where
  pending : ∀ client ∈ source.pendingTree, client.respcode ≠ 200
  clients : (∃ client ∈ source.clientTree, client.respcode = 200) →
    ∀ client ∈ source.clientTree, client.respcode = 200

theorem sourceClearSource_accounts {source : SourceState} (h : SourceOk source)
    (huniform : Uniform source) :
    Accounts sourceClearSource source := by
  refine ⟨⟨rfl, fun _ ↦ rfl⟩, ?_⟩
  have hpending : answered source.pendingTree = 0 := answered_eq_zero huniform.pending
  have hcleared : sourceCount (sourceClearSource source).1 = 0 := rfl
  have hchange : (sourceClearSource source).2 =
      if answered source.clientTree = 0 then 0 else -(source.listeners : ℤ) := rfl
  rw [hcleared, hchange, sourceCount, hpending, h.listeners_eq]
  by_cases hnone : answered source.clientTree = 0
  · simp [hnone]
  · have hsome : ∃ client ∈ source.clientTree, client.respcode = 200 := by
      by_contra hall
      push Not at hall
      exact hnone (answered_eq_zero hall)
    have hall := answered_eq_length (huniform.clients hsome)
    rw [if_neg hnone, hall]
    omega

theorem answered_kill (client : ℕ) (tree : List Listener) :
    answered (tree.map fun other ↦
      if other.id = client then { other with error := true } else other) =
      answered tree := by
  unfold answered
  rw [List.countP_map]
  congr 1
  funext other
  simp only [Function.comp_apply]
  split <;> rfl

/-- Operations that change neither tree, up to the marks of connections. -/
theorem killClient_accounts {source : SourceState} (h : SourceOk source) (client : ℕ) :
    Accounts (fun source ↦ (killClient client source, 0)) source := by
  constructor
  · constructor
    · simp [killClient, h.listeners_eq]
    · intro hidle
      have hempty := h.idle hidle
      simp [killClient, hempty]
  · simp [sourceCount, killClient, answered_kill]

theorem sourceInit_accounts {source : SourceState} (h : SourceOk source) :
    Accounts (fun source ↦ (sourceInit source, 0)) source := by
  by_cases hactive : source.active = true
  · have heq : sourceInit source = source := by simp [sourceInit, hactive]
    exact ⟨heq.symm ▸ h, by simp [heq]⟩
  · have hempty := h.idle (by simpa using hactive)
    constructor
    · constructor
      · simp [sourceInit, hactive, hempty]
      · simp [sourceInit, hactive]
    · simp [sourceCount, sourceInit, hactive]

theorem connect_accounts {source : SourceState} (h : SourceOk source) (client : ℕ) :
    Accounts (fun source ↦
      ({ source with pendingTree := avlInsert Listener.id ⟨client, 0, true, false⟩ source.pendingTree }, 0))
      source := by
  refine ⟨⟨h.listeners_eq, h.idle⟩, ?_⟩
  have hpending := (avlInsert_perm Listener.id ⟨client, 0, true, false⟩ source.pendingTree).countP_eq
    fun other ↦ decide (other.respcode = 200)
  have hnew : answered (⟨client, 0, true, false⟩ :: source.pendingTree) =
      answered source.pendingTree := by
    simp [answered_cons, counted]
  unfold answered at hnew
  rw [hnew] at hpending
  simp only [sourceCount, answered, hpending]
  omega

/-- The statistic counts the listeners with a header, and every source is in order. -/
structure Inv (s : State) : Prop where
  stat_eq : s.stat = s.sources.total sourceCount
  sources : ∀ id source, s.sources.objects id = some source → SourceOk source

theorem inv_start : Inv start := by
  exact ⟨rfl, by simp [start, Heap.empty]⟩

theorem Inv.onSource {s : State} (inv : Inv s) (id : ℕ) {f : SourceState → SourceState × ℤ}
    (h : ∀ source, s.sources.objects id = some source → SourceOk source → Accounts f source) :
    Inv (Listeners.onSource id f s) := by
  unfold Listeners.onSource
  split
  · exact inv
  · rename_i source hsource
    have haccounts := h source hsource (inv.sources id source hsource)
    constructor
    · have htotal := Heap.total_modify sourceCount s.sources (fun _ ↦ (f source).1) hsource
      rw [haccounts.count_eq, ← inv.stat_eq] at htotal
      dsimp only
      omega
    · exact fun _ _ ↦ Heap.forall_modify inv.sources fun _ _ ↦ haccounts.ok

theorem receive_ok {dest : SourceState} (h : SourceOk dest) (clients : List Listener) :
    SourceOk (receive clients dest) :=
  ⟨h.listeners_eq, h.idle⟩

theorem receive_count (dest : SourceState) (clients : List Listener) :
    sourceCount (receive clients dest) = sourceCount dest + answered clients := by
  simp only [sourceCount, receive, answered_insertAll]
  push_cast
  omega

theorem Inv.sourceMoveClients {s : State} (inv : Inv s) (id dest : ℕ) :
    Inv (Listeners.sourceMoveClients id dest s) := by
  unfold Listeners.sourceMoveClients
  split
  · rename_i source target hsource htarget
    split
    · rename_i hmove
      have htarget' : (s.sources.modify id emptied).objects dest = some target := by
        rw [Heap.objects_modify_of_ne _ _ (Ne.symm hmove.1), htarget]
      constructor
      · have hemptied : sourceCount (emptied source) = 0 := rfl
        have hsent : sourceCount source = answered (source.pendingTree ++ source.clientTree) := by
          rw [answered_append, sourceCount]
          push_cast
          omega
        calc s.stat
            = s.stat - sourceCount source + sourceCount (emptied source) - sourceCount target +
                sourceCount (receive (source.pendingTree ++ source.clientTree) target) := by
              rw [receive_count, hemptied, hsent]
              omega
          _ = _ := by
              rw [Heap.total_modify sourceCount _ _ htarget',
                Heap.total_modify sourceCount _ _ hsource, ← inv.stat_eq]
      · have hemptied : ∀ other found, (s.sources.modify id emptied).objects other = some found →
            SourceOk found :=
          fun _ _ ↦ Heap.forall_modify inv.sources fun _ _ ↦ ⟨rfl, fun _ ↦ rfl⟩
        exact fun _ _ ↦ Heap.forall_modify hemptied fun found hfound ↦
          receive_ok (hemptied dest found hfound) _
    · exact inv
  · exact inv

/-- No listener with a header is dropped from a pending tree, by the limit of its source or when the
source is cleared; and where a listener with a header is cleared, all listeners of the source have
had theirs. -/
def KeepsCount (s : State) : Event → Prop
  | .sourceMain id turn => ∀ source ∈ s.sources.objects id, source.active = true →
    ∀ client ∈ droppedInTurn turn source, client.respcode ≠ 200
  | .clear id => ∀ source ∈ s.sources.objects id, Uniform source
  | _ => True

instance (source : SourceState) : Decidable (Uniform source) :=
  decidable_of_iff
    ((∀ client ∈ source.pendingTree, client.respcode ≠ 200) ∧
      ((∃ client ∈ source.clientTree, client.respcode = 200) →
        ∀ client ∈ source.clientTree, client.respcode = 200))
    ⟨fun h ↦ ⟨h.1, h.2⟩, fun h ↦ ⟨h.pending, h.clients⟩⟩

instance (s : State) : ∀ event, Decidable (KeepsCount s event)
  | .sourceMain id turn =>
    inferInstanceAs (Decidable (∀ source ∈ s.sources.objects id, source.active = true →
      ∀ client ∈ droppedInTurn turn source, client.respcode ≠ 200))
  | .clear id => inferInstanceAs (Decidable (∀ source ∈ s.sources.objects id, Uniform source))
  | .reserve | .configure _ _ _ _ | .init _ | .connect _ _ | .kill _ _ | .stop _ | .move _ _ =>
    .isTrue trivial

theorem step_inv (s : State) (event : Event) (inv : Inv s) (hkeeps : KeepsCount s event) :
    Inv (step s event) := by
  cases event with
  | reserve =>
    constructor
    · simp only [step]
      rw [Heap.total_alloc, inv.stat_eq]
      simp [sourceCount]
    · exact fun _ _ ↦ Heap.forall_alloc inv.sources ⟨rfl, fun _ ↦ rfl⟩
  | configure id maxListeners onDemand format =>
    exact inv.onSource id fun source _ h ↦ ⟨⟨h.listeners_eq, h.idle⟩, by simp [sourceCount]⟩
  | init id => exact inv.onSource id fun source _ h ↦ sourceInit_accounts h
  | connect id client => exact inv.onSource id fun source _ h ↦ connect_accounts h client
  | sourceMain id turn =>
    apply inv.onSource id
    intro source hsource h
    cases hactive : source.active with
    | true =>
      have haccounts := sourceTurn_accounts h hactive turn (hkeeps source hsource hactive)
      exact ⟨by simpa [hactive] using haccounts.ok, by simpa [hactive] using haccounts.count_eq⟩
    | false => exact ⟨by simpa [hactive] using h, by simp [hactive]⟩
  | kill id client => exact inv.onSource id fun source _ h ↦ killClient_accounts h client
  | stop id =>
    exact inv.onSource id fun source _ h ↦ ⟨⟨h.listeners_eq, h.idle⟩, by simp [sourceCount]⟩
  | move id dest => exact inv.sourceMoveClients id dest
  | clear id =>
    exact inv.onSource id fun source hsource h ↦
      sourceClearSource_accounts h (hkeeps source hsource)

/-- In every run that drops no answered listener from a pending tree and clears no source with
answered and unanswered listeners, the statistic is the number of answered listeners of all
sources. -/
theorem listener_statistic (events : List Event) (hkeeps : Guarded step KeepsCount start events) :
    (run step start events).stat = (run step start events).sources.total sourceCount :=
  (run_invariant_of_guarded step Inv step_inv events inv_start hkeeps).stat_eq

def exampleTurn : Turn := ⟨false, true, true, false, false⟩

/-- A source with a listener that is sent its header and then moved to a fallback. -/
def exampleMove : List Event :=
  [.reserve, .reserve, .configure 0 none false (some 1), .configure 1 none false (some 1),
    .init 0, .init 1, .connect 0 7, .sourceMain 0 fun _ ↦ exampleTurn,
    .sourceMain 0 fun _ ↦ exampleTurn, .stop 0, .move 0 1, .clear 0,
    .sourceMain 1 fun _ ↦ exampleTurn]

theorem listener_statistic_moved :
    (run step start exampleMove).stat = 1 ∧
    (run step start exampleMove).sources.total sourceCount = 1 := by
  have h := listener_statistic exampleMove (by decide +kernel)
  have hstat : (run step start exampleMove).stat = 1 := by decide +kernel
  exact ⟨hstat, h.symm.trans hstat⟩

/-- A source is cleared right after its second listener was taken into the client tree. -/
def exampleClear : List Event :=
  [.reserve, .init 0, .connect 0 7, .sourceMain 0 fun _ ↦ exampleTurn, .connect 0 8,
    .sourceMain 0 fun _ ↦ exampleTurn, .stop 0, .clear 0]

/-- Both listeners are subtracted although only one was ever added. -/
theorem listener_statistic_drifts :
    (run step start exampleClear).stat = -1 ∧
      (run step start exampleClear).sources.total sourceCount = 0 := by
  decide +kernel

end Icecast.Source.Listeners
