import Icecast.Lib.Machine
import Mathlib.Data.List.Count

/-!
# The file serving thread

Clients that are sent a file or a prepared buffer are served by a thread that is started when the
first of them comes and ends when it has no clients left. New clients wait in `pending_list` until
the thread takes them over; whoever adds one starts a thread unless `run_fserv` says that there is
one already. The thread tests `pending_list` without the lock, decides that it has nothing to poll,
and only then takes the lock to clear `run_fserv`.

The version of the source for `HAVE_POLL` is followed here.
-/

namespace Icecast.Fserve

open Lib.Machine

variable {α : Type*}

/-- An `fserve_t`, as far as the thread looks at it. -/
structure Fclient (α : Type*) where
  client : α
  ready : Bool
  deriving DecidableEq

/-- What a thread is about to do. Between two of these places it uses data that no other thread
touches. -/
inductive Location where
  /-- Read `run_fserv` in the loop of `wait_for_fds`. -/
  | loop
  /-- Test `pending_list` without the lock. -/
  | test
  /-- Take the lock and move the pending clients. -/
  | move
  /-- Take the lock and clear `run_fserv`. -/
  | stopping
  | polling
  | serving
  | stopped
  deriving DecidableEq

/-- `ufds` is the array for `poll`, one slot for each client that was active when it was made. -/
structure State (α : Type*) where
  runFserv : Bool
  pendingList : List (Fclient α)
  activeList : List (Fclient α)
  fserveClients : ℕ
  clientTreeChanged : Bool
  ufds : Option (List α)
  threads : List Location

def start : State α := ⟨false, [], [], 0, false, none, []⟩

/-- What a thread meets: whether `realloc` returns memory, also for no bytes; the slots that `poll`
finds ready, or that it finds none; and which clients are done or gone when they are served. -/
structure Environment (α : Type*) where
  memory : Bool
  poll : Option (ℕ → Bool)
  finished : α → Bool

/-! ## The steps -/

def fserveAddPending (client : α) (s : State α) : State α :=
  { s with
    pendingList := ⟨client, false⟩ :: s.pendingList
    runFserv := true
    threads := if s.runFserv then s.threads else s.threads ++ [.loop] }

/-- If there is no memory the old array is kept. -/
def rebuildUfds (memory : Bool) (s : State α) : State α :=
  if s.clientTreeChanged ∧ (memory ∨ s.fserveClients = 0) then
    { s with
      ufds := if memory then some (s.activeList.map (·.client)) else none
      clientTreeChanged := false }
  else s

/-- `fserve_client_waiting` up to its lock or its call of `poll`. -/
def fserveClientWaiting (memory : Bool) (s : State α) : State α × Location :=
  let s := rebuildUfds memory s
  (s, if s.ufds.isNone then .stopping else .polling)

def moveClient (s : State α) (toMove : Fclient α) : State α :=
  { s with
    activeList := toMove :: s.activeList
    clientTreeChanged := true
    fserveClients := s.fserveClients + 1 }

def movePending (s : State α) : State α := { s.pendingList.foldl moveClient s with pendingList := [] }

def markReady (revents : ℕ → Bool) (s : State α) : State α :=
  { s with
    activeList := s.activeList.mapIdx fun i fclient ↦
      if i < s.fserveClients ∧ revents i then { fclient with ready := true } else fclient }

/-- One pass over the active clients. Those that are finished are destroyed. -/
def serveClients (finished : α → Bool) (s : State α) : State α :=
  let toGo := fun fclient : Fclient α ↦ fclient.ready && finished fclient.client
  { s with
    activeList := (s.activeList.filter (!toGo ·)).map ({ · with ready := false })
    fserveClients := s.fserveClients - s.activeList.countP toGo
    clientTreeChanged := s.clientTreeChanged || s.activeList.any toGo }

/-- The next step of a thread that stands at the given place, and where it gets. -/
def advance (env : Environment α) (s : State α) : Location → State α × Location
  | .loop => (s, if s.runFserv then .test else .stopped)
  | .test => if s.pendingList.isEmpty then fserveClientWaiting env.memory s else (s, .move)
  | .move => fserveClientWaiting env.memory (movePending s)
  | .stopping => ({ s with runFserv := false }, .stopped)
  | .polling =>
    match env.poll with
    | none => (s, .loop)
    | some revents => (markReady revents s, .serving)
  | .serving => (serveClients env.finished s, .loop)
  | .stopped => (s, .stopped)

def fservThreadFunction (i : ℕ) (env : Environment α) (s : State α) : State α :=
  match s.threads[i]? with
  | none => s
  | some location =>
    let (s, location) := advance env s location
    { s with threads := s.threads.set i location }

inductive Event (α : Type*) where
  | add (client : α)
  | thread (i : ℕ) (env : Environment α)

def next (s : State α) : Event α → State α
  | .add client => fserveAddPending client s
  | .thread i env => fservThreadFunction i env s

def Event.isStepOf (i : ℕ) : Event α → Bool
  | .add _ => false
  | .thread j _ => j = i

/-! ## What steps leave alone -/

section Steps

variable {s : State α}

theorem fserveClientWaiting_spec (memory : Bool) (s : State α) :
    (fserveClientWaiting memory s).1.runFserv = s.runFserv ∧
      (fserveClientWaiting memory s).1.pendingList = s.pendingList ∧
      (fserveClientWaiting memory s).1.activeList = s.activeList ∧
      (fserveClientWaiting memory s).1.threads = s.threads ∧
      (fserveClientWaiting memory s).2 ≠ .stopped := by
  have hlocation : (fserveClientWaiting memory s).2 ≠ .stopped := by
    unfold fserveClientWaiting
    dsimp only
    split <;> nofun
  refine ⟨?_, ?_, ?_, ?_, hlocation⟩ <;>
    · unfold fserveClientWaiting rebuildUfds
      split <;> rfl

theorem foldl_moveClient (pending : List (Fclient α)) (s : State α) :
    (pending.foldl moveClient s).activeList = pending.reverse ++ s.activeList ∧
      (pending.foldl moveClient s).runFserv = s.runFserv ∧
      (pending.foldl moveClient s).threads = s.threads := by
  induction pending generalizing s with
  | nil => exact ⟨rfl, rfl, rfl⟩
  | cons toMove pending ih =>
    obtain ⟨hactive, hrun, hthreads⟩ := ih (moveClient s toMove)
    refine ⟨?_, hrun, hthreads⟩
    rw [List.foldl_cons, hactive, List.reverse_cons, List.append_assoc]
    rfl

theorem advance_threads (env : Environment α) (s : State α) (location : Location) :
    (advance env s location).1.threads = s.threads := by
  cases location with
  | loop | stopping | serving | stopped => rfl
  | test =>
    simp only [advance]
    split
    · exact (fserveClientWaiting_spec env.memory s).2.2.2.1
    · rfl
  | move =>
    have hwaiting := (fserveClientWaiting_spec env.memory (movePending s)).2.2.2.1
    exact hwaiting.trans (foldl_moveClient _ s).2.2
  | polling =>
    simp only [advance]
    split <;> rfl

/-- Only the step that ends a thread clears `run_fserv`. -/
theorem advance_runFserv (env : Environment α) {location : Location}
    (hlocation : location ≠ .stopping) (hrun : s.runFserv = true) :
    (advance env s location).1.runFserv = true := by
  cases location with
  | loop | serving | stopped => exact hrun
  | stopping => exact absurd rfl hlocation
  | test =>
    simp only [advance]
    split
    · exact (fserveClientWaiting_spec env.memory s).1.trans hrun
    · exact hrun
  | move =>
    have hwaiting := (fserveClientWaiting_spec env.memory (movePending s)).1
    exact (hwaiting.trans (foldl_moveClient _ s).2.1).trans hrun
  | polling =>
    simp only [advance]
    split <;> exact hrun

theorem advance_running (env : Environment α) {location : Location}
    (hstopping : location ≠ .stopping) (hstopped : location ≠ .stopped) (hrun : s.runFserv = true) :
    (advance env s location).2 ≠ .stopped := by
  cases location with
  | loop => simp [advance, hrun]
  | serving => nofun
  | stopping => exact absurd rfl hstopping
  | stopped => exact absurd rfl hstopped
  | test =>
    simp only [advance]
    split
    · exact (fserveClientWaiting_spec env.memory s).2.2.2.2
    · nofun
  | move => exact (fserveClientWaiting_spec env.memory _).2.2.2.2
  | polling =>
    simp only [advance]
    split <;> nofun

theorem advance_pendingList (env : Environment α) {location : Location}
    (hmove : location ≠ .move) : (advance env s location).1.pendingList = s.pendingList := by
  cases location with
  | loop | stopping | serving | stopped => rfl
  | move => exact absurd rfl hmove
  | test =>
    simp only [advance]
    split
    · exact (fserveClientWaiting_spec env.memory s).2.1
    · rfl
  | polling =>
    simp only [advance]
    split <;> rfl

theorem advance_move (env : Environment α) (s : State α) :
    (advance env s .move).1.pendingList = [] ∧
      ∀ fclient ∈ s.pendingList, fclient ∈ (advance env s .move).1.activeList := by
  obtain ⟨-, hpending, hactive, -⟩ := fserveClientWaiting_spec env.memory (movePending s)
  refine ⟨hpending, ?_⟩
  intro fclient hfclient
  rw [show (advance env s .move).1.activeList = (movePending s).activeList from hactive, movePending,
    (foldl_moveClient s.pendingList s).1]
  exact List.mem_append_left _ (List.mem_reverse.mpr hfclient)

/-- A thread comes to its end only if it has found the pending list empty, or has just emptied it. -/
theorem advance_stopping (env : Environment α) {location : Location}
    (h : (advance env s location).2 = .stopping) :
    (advance env s location).1.pendingList = [] := by
  cases location with
  | loop =>
    simp only [advance] at h
    split at h <;> cases h
  | test =>
    simp only [advance] at h ⊢
    split at h
    · rename_i hempty
      rw [if_pos hempty, (fserveClientWaiting_spec env.memory s).2.1]
      exact List.isEmpty_iff.mp hempty
    · cases h
  | move => exact (advance_move env s).1
  | stopping | serving | stopped => cases h
  | polling =>
    simp only [advance] at h
    split at h <;> cases h

end Steps

/-! ## One thread at a time -/

/-- The thread `i` is at this place, and all other ones have ended. -/
structure Alone (i : ℕ) (location : Location) (s : State α) : Prop where
  runFserv : s.runFserv = true
  here : s.threads[i]? = some location
  running : location ≠ .stopped
  others : ∀ j, j ≠ i → ∀ other, s.threads[j]? = some other → other = .stopped

/-- There is no thread and nobody waits, or there is one and nobody waits when it is about to end. -/
inductive Inv (s : State α) : Prop
  | idle (hrun : s.runFserv = false) (hpending : s.pendingList = [])
    (hthreads : ∀ location ∈ s.threads, location = .stopped)
  | running (i : ℕ) (location : Location) (halone : Alone i location s)
    (hpending : location = .stopping → s.pendingList = [])

section Alone

variable {s : State α} {i : ℕ} {location : Location}

theorem Alone.add (h : Alone i location s) (client : α) :
    Alone i location (fserveAddPending client s) := by
  have hthreads : (fserveAddPending client s).threads = s.threads := by
    rw [fserveAddPending, if_pos h.runFserv]
  exact ⟨rfl, hthreads ▸ h.here, h.running, hthreads ▸ h.others⟩

theorem fservThreadFunction_of_stopped {j : ℕ} (env : Environment α)
    (h : ∀ other, s.threads[j]? = some other → other = .stopped) :
    fservThreadFunction j env s = s := by
  unfold fservThreadFunction
  split
  · rfl
  · rename_i other hother
    obtain rfl := h other hother
    obtain ⟨hlt, hget⟩ := List.getElem?_eq_some_iff.mp hother
    have hset : s.threads.set j .stopped = s.threads := by
      rw [← hget]
      exact List.set_getElem_self hlt
    simp only [advance, hset]

theorem fservThreadFunction_of_here (env : Environment α) (h : s.threads[i]? = some location) :
    fservThreadFunction i env s =
      { (advance env s location).1 with
        threads := s.threads.set i (advance env s location).2 } := by
  unfold fservThreadFunction
  rw [h]
  dsimp only
  rw [advance_threads]

theorem Alone.step (h : Alone i location s) (hstopping : location ≠ .stopping)
    (env : Environment α) : Alone i (advance env s location).2 (fservThreadFunction i env s) := by
  rw [fservThreadFunction_of_here env h.here]
  refine ⟨?_, ?_, ?_, ?_⟩
  · exact advance_runFserv env hstopping h.runFserv
  · have hlt := (List.getElem?_eq_some_iff.mp h.here).1
    simp only [List.getElem?_set_self hlt]
  · exact advance_running env hstopping h.running h.runFserv
  · intro j hj other hother
    rw [List.getElem?_set_ne hj.symm] at hother
    exact h.others j hj other hother

theorem inv_start : Inv (start : State α) := .idle rfl rfl nofun

theorem Inv.addIdle {client : α} (hrun : s.runFserv = false)
    (hthreads : ∀ location ∈ s.threads, location = .stopped) :
    Inv (fserveAddPending client s) := by
  have hnew : (fserveAddPending client s).threads = s.threads ++ [.loop] := by
    simp only [fserveAddPending, hrun, Bool.false_eq_true, if_false]
  refine .running s.threads.length .loop ⟨rfl, ?_, nofun, ?_⟩ nofun
  · rw [hnew, List.getElem?_concat_length]
  · intro j hj other hother
    rw [hnew, List.getElem?_append] at hother
    split at hother
    · exact hthreads other (List.mem_of_getElem? hother)
    · rename_i hge
      rw [List.getElem?_singleton, if_neg (by omega)] at hother
      cases hother

theorem Inv.thread (h : Inv s) (j : ℕ) (env : Environment α) : Inv (fservThreadFunction j env s) := by
  cases h with
  | idle hrun hpending hthreads =>
    rw [fservThreadFunction_of_stopped env
      fun other hother ↦ hthreads other (List.mem_of_getElem? hother)]
    exact .idle hrun hpending hthreads
  | running i location halone hpending =>
    by_cases hj : j = i
    · subst hj
      by_cases hstopping : location = .stopping
      · subst hstopping
        rw [fservThreadFunction_of_here env halone.here]
        refine .idle rfl (hpending rfl) ?_
        intro other hother
        obtain ⟨k, hk⟩ := List.mem_iff_getElem?.mp hother
        by_cases hkj : k = j
        · subst hkj
          have hlt := (List.getElem?_eq_some_iff.mp halone.here).1
          rw [List.getElem?_set_self hlt] at hk
          exact (Option.some.inj hk).symm
        · rw [List.getElem?_set_ne (Ne.symm hkj)] at hk
          exact halone.others k hkj other hk
      · refine .running j _ (halone.step hstopping env) ?_
        intro hnext
        rw [fservThreadFunction_of_here env halone.here]
        exact advance_stopping env hnext
    · rw [fservThreadFunction_of_stopped env (halone.others j hj)]
      exact .running i location halone hpending

end Alone

/-! ## Clients that are taken over -/

/-- Whatever else happens, within its next five steps the thread `i` moves the client from the
pending list to its own. -/
def TakesOver (i : ℕ) (fclient : Fclient α) (s : State α) : Prop :=
  ∀ events : List (Event α), 5 ≤ events.countP (Event.isStepOf i) →
    ∃ before env after, events = before ++ .thread i env :: after ∧
      fclient ∈ (run next s before).pendingList ∧
      fclient ∈ (run next s (before ++ [.thread i env])).activeList ∧
      (run next s (before ++ [.thread i env])).pendingList = []

/-- Nobody waits while `run_fserv` is zero, and whoever waits has a thread that takes him over. -/
def Attended (s : State α) : Prop :=
  (s.runFserv = false → s.pendingList = []) ∧
    ∀ fclient ∈ s.pendingList, ∃ i, TakesOver i fclient s

/-- No client is added when a thread is about to clear `run_fserv`. -/
def Safe (s : State α) : Event α → Prop
  | .add _ => ∀ location ∈ s.threads, location ≠ .stopping
  | .thread _ _ => True

/-- How many steps a thread is from the end of the lock under which it moves the clients. -/
def distance : Location → ℕ
  | .polling => 5
  | .serving => 4
  | .loop => 3
  | .test => 2
  | _ => 1

section TakesOver

variable {s : State α} {i : ℕ} {location : Location} {fclient : Fclient α}

theorem distance_advance (env : Environment α) (hrun : s.runFserv = true)
    (hpending : fclient ∈ s.pendingList) (hstopping : location ≠ .stopping)
    (hstopped : location ≠ .stopped) (hmove : location ≠ .move) :
    distance (advance env s location).2 < distance location ∧
      (advance env s location).2 ≠ .stopping := by
  have hne : s.pendingList.isEmpty = false := by
    rw [List.isEmpty_eq_false_iff]
    exact List.ne_nil_of_mem hpending
  cases location with
  | loop => simp [advance, hrun, distance]
  | test => simp [advance, hne, distance]
  | move => exact absurd rfl hmove
  | stopping => exact absurd rfl hstopping
  | serving => simp [advance, distance]
  | stopped => exact absurd rfl hstopped
  | polling => cases hpoll : env.poll <;> simp [advance, hpoll, distance]

theorem takesOver_of_distance (events : List (Event α)) {s : State α} {location : Location}
    (halone : Alone i location s) (hpending : fclient ∈ s.pendingList)
    (hstopping : location ≠ .stopping)
    (hcount : distance location ≤ events.countP (Event.isStepOf i)) :
    ∃ before env after, events = before ++ .thread i env :: after ∧
      fclient ∈ (run next s before).pendingList ∧
      fclient ∈ (run next s (before ++ [.thread i env])).activeList ∧
      (run next s (before ++ [.thread i env])).pendingList = [] := by
  induction events generalizing s location with
  | nil => cases location <;> cases hcount
  | cons event events ih =>
    -- a step that leaves the client pending is put in front of what follows
    have hcons {location' : Location} (halone' : Alone i location' (next s event))
        (hpending' : fclient ∈ (next s event).pendingList) (hstopping' : location' ≠ .stopping)
        (hcount' : distance location' ≤ events.countP (Event.isStepOf i)) :
        ∃ before env after, event :: events = before ++ .thread i env :: after ∧
          fclient ∈ (run next s before).pendingList ∧
          fclient ∈ (run next s (before ++ [.thread i env])).activeList ∧
          (run next s (before ++ [.thread i env])).pendingList = [] := by
      obtain ⟨before, env, after, hevents, hrest⟩ := ih halone' hpending' hstopping' hcount'
      exact ⟨event :: before, env, after, by rw [hevents, List.cons_append], hrest⟩
    cases event with
    | add client =>
      rw [List.countP_cons_of_neg (by simp [Event.isStepOf])] at hcount
      exact hcons (halone.add client) (List.mem_cons_of_mem _ hpending) hstopping hcount
    | thread j env =>
      by_cases hj : j = i
      · subst hj
        rw [List.countP_cons_of_pos (by simp [Event.isStepOf])] at hcount
        have hstep : next s (.thread j env) = _ := fservThreadFunction_of_here env halone.here
        by_cases hmove : location = .move
        · subst hmove
          refine ⟨[], env, events, rfl, hpending, ?_⟩
          rw [List.nil_append, run_cons, run_nil, hstep]
          exact ⟨(advance_move env s).2 fclient hpending, (advance_move env s).1⟩
        · have hdistance := distance_advance env halone.runFserv hpending hstopping halone.running hmove
          refine hcons (halone.step hstopping env) ?_ hdistance.2 (by omega)
          rw [hstep]
          exact (advance_pendingList env hmove).symm ▸ hpending
      · rw [List.countP_cons_of_neg (by simp [Event.isStepOf, hj])] at hcount
        have hsame : next s (.thread j env) = s :=
          fservThreadFunction_of_stopped env (halone.others j hj)
        exact hcons (hsame.symm ▸ halone) (hsame.symm ▸ hpending) hstopping hcount

theorem Inv.attended (h : Inv s) : Attended s := by
  cases h with
  | idle hrun hpending hthreads =>
    refine ⟨fun _ ↦ hpending, ?_⟩
    rw [hpending]
    nofun
  | running i location halone hpending =>
    refine ⟨fun hrun ↦ (nomatch hrun.symm.trans halone.runFserv), ?_⟩
    intro fclient hfclient
    refine ⟨i, fun events hcount ↦ ?_⟩
    refine takesOver_of_distance events halone hfclient ?_ (Nat.le_trans ?_ hcount)
    · intro hstopping
      rw [hpending hstopping] at hfclient
      cases hfclient
    · cases location <;> decide

/-- No thread is left that looks at the pending list again. -/
def Halting (s : State α) : Prop := ∀ location ∈ s.threads, location = .stopping ∨ location = .stopped

theorem Halting.step (h : Halting s) (j : ℕ) (env : Environment α) :
    Halting (fservThreadFunction j env s) ∧
      (fservThreadFunction j env s).pendingList = s.pendingList := by
  cases hhere : s.threads[j]? with
  | none =>
    rw [fservThreadFunction_of_stopped env (by simp [hhere])]
    exact ⟨h, rfl⟩
  | some location =>
    rw [fservThreadFunction_of_here env hhere]
    have hadvance : (advance env s location).2 = .stopped ∧ location ≠ .move := by
      rcases h location (List.mem_of_getElem? hhere) with rfl | rfl <;> exact ⟨rfl, nofun⟩
    refine ⟨?_, advance_pendingList env hadvance.2⟩
    intro other hother
    rw [hadvance.1] at hother
    rcases List.mem_or_eq_of_mem_set hother with hold | rfl
    · exact h other hold
    · exact Or.inr rfl

theorem Halting.run (h : Halting s) (i : ℕ) (env : Environment α) (n : ℕ) :
    (run next s (List.replicate n (.thread i env))).pendingList = s.pendingList := by
  induction n generalizing s with
  | zero => rfl
  | succ n ih =>
    have hstep := h.step i env
    rw [List.replicate_succ, run_cons]
    exact (ih hstep.1).trans hstep.2

theorem Halting.not_takesOver (h : Halting s) (hpending : s.pendingList ≠ []) :
    ¬TakesOver i fclient s := by
  intro htakes
  let env : Environment α := ⟨true, none, fun _ ↦ false⟩
  obtain ⟨before, env', after, hevents, -, -, hempty⟩ :=
    htakes (List.replicate 5 (.thread i env)) (by simp [Event.isStepOf])
  have hprefix : before ++ [.thread i env'] <+: List.replicate 5 (.thread i env) :=
    ⟨after, by rw [hevents, List.append_assoc, List.singleton_append]⟩
  obtain ⟨n, hn⟩ := List.prefix_replicate_iff.mp hprefix
  rw [hn, h.run] at hempty
  exact hpending hempty

/-- A client that is added when the thread is about to end is left behind. -/
theorem Inv.not_attended (h : Inv s) {client : α} (hsafe : ¬Safe s (.add client)) :
    ¬Attended (next s (.add client)) := by
  obtain ⟨location, hlocation, hstopping⟩ : ∃ location ∈ s.threads, location = .stopping := by
    simpa [Safe] using hsafe
  cases h with
  | idle hrun hpending hthreads => exact nomatch hstopping.symm.trans (hthreads location hlocation)
  | running i here halone hpending =>
    have hhalting : Halting (next s (.add client)) := by
      intro other hother
      rw [next, fserveAddPending, if_pos halone.runFserv] at hother
      -- the thread that is about to end is the only one
      obtain ⟨j, hj⟩ := List.mem_iff_getElem?.mp hlocation
      obtain ⟨k, hk⟩ := List.mem_iff_getElem?.mp hother
      have hji : j = i := by
        by_contra hne
        exact nomatch hstopping.symm.trans (halone.others j hne location hj)
      by_cases hki : k = i
      · rw [hki, ← hji, hj] at hk
        exact Or.inl ((Option.some.inj hk).symm.trans hstopping)
      · exact Or.inr (halone.others k hki other hk)
    intro hattended
    obtain ⟨j, htakes⟩ := hattended.2 ⟨client, false⟩ List.mem_cons_self
    exact hhalting.not_takesOver (List.cons_ne_nil _ _) htakes

end TakesOver

/-! ## The result -/

/-- In every run, nobody is left waiting without a thread if and only if no client is added when the
thread is about to clear `run_fserv`. -/
theorem fserve_attended (events : List (Event α)) :
    (∀ before, before <+: events → Attended (run next (start : State α) before)) ↔
      Guarded next Safe (start : State α) events := by
  refine forall_prefix_iff_guarded next Inv Attended ?_ (fun s h ↦ h.attended) ?_ events inv_start
  · intro s event h hsafe
    cases event with
    | thread j env => exact h.thread j env
    | add client =>
      cases h with
      | idle hrun hpending hthreads => exact Inv.addIdle hrun hthreads
      | running i location halone hpending =>
        refine .running i location (halone.add client) fun hstopping ↦ ?_
        exact absurd hstopping (hsafe location (List.mem_of_getElem? halone.here))
  · intro s event h hsafe
    cases event with
    | thread j env => exact absurd trivial hsafe
    | add client => exact h.not_attended hsafe

/-- `realloc` frees the array when no client is left, and every ready client is done at once. -/
def quickEnvironment : Environment ℕ := ⟨false, some fun _ ↦ true, fun _ ↦ true⟩

/-- The first client has been served and the thread has found nothing more to do. -/
def lateClient : List (Event ℕ) :=
  [.add 1, .thread 0 quickEnvironment, .thread 0 quickEnvironment,
    .thread 0 { quickEnvironment with memory := true }, .thread 0 quickEnvironment,
    .thread 0 quickEnvironment, .thread 0 quickEnvironment, .thread 0 quickEnvironment,
    .add 2, .thread 0 quickEnvironment]

/-- The second client comes before the thread clears `run_fserv`, so that no new thread is started
for it. -/
theorem fserve_client_stranded :
    (¬∀ events : List (Event ℕ), Attended (run next start events)) ∧
      (run next start lateClient).runFserv = false ∧
      (run next start lateClient).pendingList = [⟨2, false⟩] := by
  have hrun : (run next start lateClient).runFserv = false := by decide
  have hpending : (run next start lateClient).pendingList = [⟨2, false⟩] := by decide
  refine ⟨fun hall ↦ ?_, hrun, hpending⟩
  exact nomatch hpending.symm.trans ((hall lateClient).1 hrun)

end Icecast.Fserve
