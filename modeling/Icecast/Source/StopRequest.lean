import Icecast.Lib.Machine
import Mathlib.Data.List.Basic

/-!
# Stop requests

A source is stopped by clearing `source->running`, which its thread looks at in every turn of
`source_main`. The flag is cleared by other threads, too: by the admin command `killsource`
(`admin.c`), and by the slave thread for a relay that is gone from the configuration (`slave.c`).
On the way up the flag is set twice, in `connection_complete_source` (`connection.c`) and in
`source_init` (`source.c`), and neither of them looks whether a request has come meanwhile.

The model follows one activation of a source from statement to statement, as far as the flag is
concerned; requests may come between any two of them.
-/

namespace Icecast.Source.StopRequest

open Lib.Machine

/-- Who activates the source: `source_startup`, `source_fallback_file` or `start_relay_stream`. -/
inductive Owner where
  | client
  | file
  | relay
  deriving DecidableEq

/-- Where the activation stands. -/
inductive Location where
  /-- In `open_relay_connection`, on the thread of the relay. -/
  | connecting
  /-- In `connection_complete_source`, before `running` is set. -/
  | completing
  /-- In the rest of `connection_complete_source`. -/
  | settling
  /-- The response is being sent, with `source_client_callback` to follow. -/
  | responding
  /-- On the source's thread, in `source_init`, before `running` is set. -/
  | initialising
  /-- In the rest of `source_init`, where listeners of the fallback are taken back. -/
  | overriding
  /-- At the condition of the loop in `source_main`. -/
  | testing
  /-- In `get_next_buffer`. -/
  | reading
  /-- In the rest of the loop's body. -/
  | serving
  /-- At the beginning of `source_shutdown`. -/
  | closing
  | ended
  deriving DecidableEq

/-- `running` and `onDemand` are fields of the source, `relayRunning` is that of its relay, and
`serverRunning` says that `global.running` is `ICECAST_RUNNING`. -/
structure State where
  owner : Owner
  location : Location
  running : Bool
  onDemand : Bool
  relayRunning : Bool
  serverRunning : Bool
  deriving DecidableEq

/-- A relay's activation begins with its thread, any other one when the source is completed. -/
def start (owner : Owner) (onDemand : Bool) : State where
  owner
  location := if owner = .relay then .connecting else .completing
  running := false
  onDemand
  relayRunning := owner = .relay
  serverRunning := true

/-- The next section of the activation itself. `succeeds` is false if the connection, the checks or
the response fail, and in the loop if the source is found to be at its end. -/
def proceed (succeeds : Bool) (s : State) : State :=
  match s.location with
  | .connecting => { s with location := if succeeds then .completing else .ended }
  | .completing =>
    if succeeds then { s with running := true, location := .settling }
    else { s with location := .ended }
  | .settling =>
    { s with location := if s.owner = .client then .responding else .initialising }
  | .responding => { s with location := if succeeds then .initialising else .ended }
  | .initialising => { s with running := true, location := .overriding }
  | .overriding => { s with location := .testing }
  | .testing =>
    { s with location := if s.serverRunning && s.running then .reading else .closing }
  | .reading => { s with running := s.running && succeeds, location := .serving }
  | .serving => { s with running := s.running && succeeds, location := .testing }
  | .closing => { s with running := false, location := .ended }
  | .ended => s

inductive Request where
  | killsource
  | relayShutdown
  deriving DecidableEq

/-- `admin_handle_request` turns the command down for a source that is not there for listeners, and
`relay_check_streams` only stops a relay that has been started. -/
def Accepted (s : State) : Request → Prop
  | .killsource => s.running || s.onDemand
  | .relayShutdown => s.relayRunning

instance (s : State) (request : Request) : Decidable (Accepted s request) := by
  cases request <;> unfold Accepted <;> infer_instance

def stop (request : Request) (s : State) : State :=
  if Accepted s request then
    match request with
    | .killsource => { s with running := false }
    | .relayShutdown => { s with running := false, relayRunning := false }
  else s

inductive Event where
  | proceed (succeeds : Bool)
  | request (request : Request)
  | serverShutdown
  deriving DecidableEq

def step (s : State) : Event → State
  | .proceed succeeds => proceed succeeds s
  | .request request => stop request s
  | .serverShutdown => { s with serverRunning := false }

/-! ## Behind the last assignment -/

/-- `source_init` has set `running`. -/
def Initialised : Location → Prop
  | .connecting | .completing | .settling | .responding | .initialising => False
  | .overriding | .testing | .reading | .serving | .closing | .ended => True

instance (location : Location) : Decidable (Initialised location) := by
  cases location <;> unfold Initialised <;> infer_instance

/-- The flag is clear, and `source_main` leaves its loop when it comes to the test. -/
def Stopped (s : State) : Prop :=
  s.running = false ∧ (s.location = .testing → ∀ succeeds, (proceed succeeds s).location = .closing)

theorem stopped_of_not_running {s : State} (h : s.running = false) : Stopped s := by
  refine ⟨h, ?_⟩
  intro hlocation succeeds
  simp [proceed, hlocation, h]

/-- From `source_init` on, nothing sets the flag again. -/
def Settled (s : State) : Prop := Initialised s.location ∧ s.running = false

theorem proceed_settled (succeeds : Bool) {s : State} (h : Settled s) :
    Settled (proceed succeeds s) := by
  obtain ⟨hlocation, hrunning⟩ := h
  unfold proceed
  cases hat : s.location with
  | connecting | completing | settling | responding | initialising =>
    rw [hat] at hlocation
    cases hlocation
  | overriding => exact ⟨trivial, hrunning⟩
  | testing =>
    refine ⟨?_, hrunning⟩
    simp [hrunning, Initialised]
  | reading => exact ⟨trivial, by simp [hrunning]⟩
  | serving => exact ⟨trivial, by simp [hrunning]⟩
  | closing => exact ⟨trivial, rfl⟩
  | ended =>
    rw [hat] at hlocation
    exact ⟨by rw [hat]; exact hlocation, hrunning⟩

theorem stop_location (request : Request) (s : State) : (stop request s).location = s.location := by
  unfold stop
  split
  · cases request <;> rfl
  · rfl

theorem stop_running {request : Request} {s : State} (h : Accepted s request) :
    (stop request s).running = false := by
  unfold stop
  rw [if_pos h]
  cases request <;> rfl

theorem step_settled (s : State) (event : Event) (h : Settled s) : Settled (step s event) := by
  cases event with
  | proceed succeeds => exact proceed_settled succeeds h
  | request request =>
    refine ⟨?_, ?_⟩
    · rw [step, stop_location]
      exact h.1
    · by_cases haccepted : Accepted s request
      · exact stop_running haccepted
      · rw [step]
        unfold stop
        rw [if_neg haccepted]
        exact h.2
  | serverShutdown => exact h

/-! ## Before it -/

/-- The number of sections that are left up to the assignment in `source_init`. -/
def distance (s : State) : ℕ :=
  match s.location with
  | .connecting => 5
  | .completing => 4
  | .settling => 3
  | .responding => 2
  | .initialising => 1
  | _ => 0

/-- An activation that has not come to `source_init` can still get there, and sets the flag. -/
theorem exists_running {s : State} (h : ¬Initialised s.location) :
    ∃ after, (run step s after).running = true := by
  induction hdistance : distance s using Nat.strongRecOn generalizing s with
  | ind n ih =>
    have hnext (hmore : ¬Initialised (proceed true s).location)
        (hless : distance (proceed true s) < n) : ∃ after, (run step s after).running = true := by
      obtain ⟨after, hafter⟩ := ih _ hless hmore rfl
      exact ⟨.proceed true :: after, hafter⟩
    subst hdistance
    cases hat : s.location with
    | connecting | completing | responding =>
      apply hnext
      · simp [proceed, hat, Initialised]
      · simp [proceed, distance, hat]
    | settling =>
      by_cases howner : s.owner = .client
      · apply hnext
        · simp [proceed, hat, howner, Initialised]
        · simp [proceed, distance, hat, howner]
      · apply hnext
        · simp [proceed, hat, howner, Initialised]
        · simp [proceed, distance, hat, howner]
    | initialising => exact ⟨[.proceed true], by simp [step, proceed, hat]⟩
    | overriding | testing | reading | serving | closing | ended =>
      rw [hat] at h
      exact absurd trivial h

/-! ## The result -/

/-- A stop request that is accepted stays in force in all continuations, if and only if
`source_init` has set the flag before. -/
theorem stop_request_kept (owner : Owner) (onDemand : Bool) (before : List Event)
    (request : Request) (haccepted : Accepted (run step (start owner onDemand) before) request) :
    (∀ after, Stopped (run step (start owner onDemand) (before ++ .request request :: after))) ↔
      Initialised (run step (start owner onDemand) before).location := by
  have hsplit (after : List Event) :
      run step (start owner onDemand) (before ++ .request request :: after) =
        run step (stop request (run step (start owner onDemand) before)) after := by
    rw [run_append, run_cons]
    rfl
  constructor
  · intro hall
    by_contra hnot
    rw [← stop_location request] at hnot
    obtain ⟨after, hafter⟩ := exists_running hnot
    have hstopped := (hall after).1
    rw [hsplit, hafter] at hstopped
    cases hstopped
  · intro hinitialised after
    rw [hsplit]
    apply stopped_of_not_running
    refine (run_invariant step Settled step_settled after ⟨?_, stop_running haccepted⟩).2
    rw [stop_location]
    exact hinitialised

/-- A request that comes while the source waits for data. -/
theorem stop_request_kept_reading :
    Stopped (run step (start .client false)
      ([.proceed true, .proceed true, .proceed true, .proceed true, .proceed true, .proceed true] ++
        [.request .killsource, .proceed true, .proceed true])) :=
  (stop_request_kept .client false _ .killsource (by decide)).mpr (by decide)
    [.proceed true, .proceed true]

/-- A source client is killed while its response is being sent: the source runs all the same. So does
a relay that is shut down while it connects. -/
theorem stop_request_lost :
    (¬∀ owner onDemand before request, Accepted (run step (start owner onDemand) before) request →
      ∀ after, Stopped (run step (start owner onDemand) (before ++ .request request :: after))) ∧
    (run step (start .client false) [.proceed true, .proceed true, .request .killsource,
      .proceed true, .proceed true, .proceed true, .proceed true]).location = .reading ∧
    (run step (start .relay false) [.request .relayShutdown, .proceed true, .proceed true,
      .proceed true, .proceed true, .proceed true, .proceed true]).location = .reading := by
  refine ⟨?_, by decide, by decide⟩
  intro hall
  have hstopped := hall .client false [.proceed true, .proceed true] .killsource (by decide)
    [.proceed true, .proceed true]
  exact absurd hstopped.1 (by decide)

end Icecast.Source.StopRequest
