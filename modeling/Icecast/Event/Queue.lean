import Icecast.Lib.Machine
import Icecast.Lib.SharedList

/-!
# The queue of events

Events are queued by whoever causes them, and a thread of its own calls the registrations for them
(`event.c`). The lists of registrations belong to the configuration and its mounts; an event keeps those
that were found when it was made, so that a configuration may be replaced while its events wait. The queue,
the lists and the events themselves are counted.

Each call is one step here. `event_release` decrements the count of an event and tests it without a lock,
and both the maker of an event and the thread call it: what two calls for one event do that overlap is not
described.
-/

namespace Icecast.Event.Queue

open Lib Lib.Checked Lib.LinkedList Lib.Machine Lib.SharedList

/-- `event_registration_t`; `emits` is false if its backend has no `emit`. -/
structure Registration where
  id : ℕ
  trigger : String
  emits : Bool
  deriving DecidableEq

/-- `event_t`, as far as the queue is concerned. -/
structure EventData where
  trigger : String
  reglist : List ℕ

/-- Where the thread is: at the top of its loop, behind the lock with what it has found there, or at its
end. -/
inductive Worker where
  | top
  | busy (event : Option ℕ) (running : Bool)
  | ended

def Worker.event : Worker → Option ℕ
  | .busy event _ => event
  | _ => none

/-- What has happened: the registrations that were configured under a pointer, the events that were made,
and what became of them. -/
structure Trace where
  lists : ℕ → List Registration
  info : ℕ → EventData
  accepted : List ℕ
  handled : List ℕ
  dropped : List ℕ
  calls : List (ℕ × Registration)

/-- The owners are the pointers of configurations; an event that is `fresh` is going to be queued by the one
who has made it, and one that is `emitted` has a reference of its maker only. -/
structure State where
  regs : Memory Registration
  owners : List ℕ
  events : Memory EventData
  queue : Option ℕ
  fresh : List ℕ
  emitted : List ℕ
  worker : Worker
  running : Bool
  trace : Trace

def State.initial : State where
  regs := Heap.empty
  owners := []
  events := Heap.empty
  queue := none
  fresh := []
  emitted := []
  worker := .top
  running := true
  trace := ⟨fun _ ↦ [], fun _ ↦ ⟨"", []⟩, [], [], [], []⟩

/-! ## Registrations -/

/-- `event_registration_push` for a new registration, whose own pointer is given back then. -/
def registrationPush (regs : Memory Registration) (er : Option ℕ) (tail : Registration) :
    Except Fault (Memory Registration × Option ℕ) := do
  match er with
  | none =>
    let id := regs.next
    let regs ← addref (regs.alloc ⟨1, none, tail⟩) (some id)
    let (regs, _) ← releaseAll regs (some id)
    return (regs, some id)
  | some start =>
    let (regs, _) ← push regs start tail
    return (regs, some start)

/-- `_parse_events` -/
def parseEvents (regs : Memory Registration) (registrations : List Registration) :
    Except Fault (Memory Registration × Option ℕ) :=
  registrations.foldlM (fun list tail ↦ registrationPush list.1 list.2 tail) (regs, none)

def wants (trigger : String) (registration : Registration) : Bool :=
  registration.trigger = trigger && registration.emits

/-- `_try_registrations`: the registrations of a list that are called. -/
def tryRegistrations (regs : Memory Registration) (trigger : String) :
    ℕ → Option ℕ → Except Fault (List Registration)
  | _, none => .ok []
  | 0, some _ => .error .endless
  | fuel + 1, some er => do
    let cell ← load regs er
    let rest ← tryRegistrations regs trigger fuel cell.next
    return if wants trigger cell.value then cell.value :: rest else rest

def tryReglist (regs : Memory Registration) (trigger : String) : List ℕ → Except Fault (List Registration)
  | [] => .ok []
  | head :: reglist => do
    let first ← tryRegistrations regs trigger (regs.next + 1) (some head)
    let rest ← tryReglist regs trigger reglist
    return first ++ rest

/-! ## Events -/

/-- `event_release`, with the decrement and the test of the count in one: an event that goes gives back its
lists. -/
def eventRelease (regs : Memory Registration) (events : Memory EventData) (event : Option ℕ) :
    Except Fault (Memory Registration × Memory EventData) := do
  let (events, freed) ← releaseAll events event
  let regs ← (freed.flatMap EventData.reglist).foldlM
    (fun regs head ↦ (releaseAll regs (some head)).map (·.1)) regs
  return (regs, events)

/-- `event_push_reglist`, for the `MAX_REGLISTS_PER_EVENT` places of an event. -/
def eventPushReglist (event : Memory Registration × List ℕ) (reglist : Option ℕ) :
    Except Fault (Memory Registration × List ℕ) :=
  match reglist with
  | none => .ok event
  | some head =>
    if event.2.length < 8 then do
      let regs ← addref event.1 (some head)
      return (regs, event.2 ++ [head])
    else .ok event

/-- The loop of `event_push`: the link behind the last event, which is the queue itself if there is none; no
link if the queue is full. -/
def findLink (events : Memory EventData) : ℕ → Option ℕ → Option ℕ → Except Fault (Option (Option ℕ))
  | 0, _, _ => .ok none
  | _ + 1, link, none => .ok (some link)
  | room + 1, _, some id => do
    let cell ← load events id
    findLink events room (some id) cell.next

/-! ## Steps -/

inductive Action where
  | configure (registrations : List Registration)
  | unconfigure (head : ℕ)
  | create (trigger : String) (config mount defaultMount : Option ℕ)
  | emit (event : ℕ)
  | finish (event : ℕ)
  | take
  | handle
  | stop
  | clear

/-- `event_emit_clientevent`, up to the place where the event is dropped if nothing is registered. -/
def create (s : State) (trigger : String) (config mount defaultMount : Option ℕ) : Except Fault State := do
  let (regs, reglist) ← [config, mount, defaultMount].foldlM eventPushReglist (s.regs, [])
  if reglist = [] then return { s with regs := regs }
  else
    let id := s.events.next
    let event := ⟨trigger, reglist⟩
    return { s with
      regs := regs
      events := s.events.alloc ⟨1, none, event⟩
      fresh := id :: s.fresh
      trace := { s.trace with info := Function.update s.trace.info id event } }

/-- `event_emit` -/
def emit (s : State) (event : ℕ) : Except Fault State := do
  let s := { s with fresh := s.fresh.erase event, emitted := event :: s.emitted }
  match ← findLink s.events 128 none s.queue with
  | none => return s
  | some link =>
    let trace := { s.trace with accepted := s.trace.accepted ++ [event] }
    match link with
    | none =>
      let events ← addref s.events (some event)
      return { s with events := events, queue := some event, trace := trace }
    | some last =>
      let events ← addref (s.events.modify last (Cell.link (some event))) (some event)
      return { s with events := events, trace := trace }

/-- The thread with the lock: the first event is taken off the queue. -/
def take (s : State) : Except Fault State :=
  match s.queue with
  | some event => do
    let cell ← load s.events event
    let events := s.events.modify event (Cell.link none)
    return { s with events := events, queue := cell.next, worker := .busy (some event) s.running }
  | none => .ok { s with worker := .busy none s.running }

/-- The rest of the round: without an event the thread sleeps. -/
def handle (s : State) : Except Fault State :=
  match s.worker with
  | .busy event running =>
    let worker := if running then .top else .ended
    match event with
    | some event => do
      let cell ← load s.events event
      let called ← tryReglist s.regs cell.value.trigger cell.value.reglist
      let (regs, events) ← eventRelease s.regs s.events (some event)
      let trace := { s.trace with
        handled := s.trace.handled ++ [event]
        calls := s.trace.calls ++ called.map (event, ·) }
      return { s with regs := regs, events := events, worker := worker, trace := trace }
    | none => .ok { s with worker := worker }
  | _ => .ok s

def step (s : State) : Action → Except Fault State
  | .configure registrations => do
    let (regs, head) ← parseEvents s.regs registrations
    let trace := { s.trace with
      lists := head.elim s.trace.lists fun head ↦ Function.update s.trace.lists head registrations }
    return { s with regs := regs, owners := head.toList ++ s.owners, trace := trace }
  | .unconfigure head => do
    let (regs, _) ← releaseAll s.regs (some head)
    return { s with regs := regs, owners := s.owners.erase head }
  | .create trigger config mount defaultMount => create s trigger config mount defaultMount
  | .emit event => emit s event
  | .finish event => do
    let (regs, events) ← eventRelease s.regs s.events (some event)
    return { s with regs := regs, events := events, emitted := s.emitted.erase event }
  | .take => take s
  | .handle => handle s
  | .stop => .ok { s with running := false }
  | .clear => do
    let waiting := walk (nextOf s.events) s.events.next s.queue
    let (regs, events) ← eventRelease s.regs s.events s.queue
    let trace := { s.trace with dropped := s.trace.dropped ++ waiting }
    return { s with regs := regs, events := events, queue := none, trace := trace }

def runStep (result : Except Fault State) (action : Action) : Except Fault State :=
  result >>= (step · action)

/-- Pointers are used by those who have them, an event is queued once, and the queue is cleared when the
thread has been joined. -/
def Allowed (s : State) : Action → Prop
  | .unconfigure head => head ∈ s.owners
  | .create _ config mount defaultMount =>
    ∀ head, some head ∈ [config, mount, defaultMount] → head ∈ s.owners
  | .emit event => event ∈ s.fresh
  | .finish event => event ∈ s.emitted
  | .take => s.worker = .top
  | .clear => s.worker = .ended
  | _ => True

def AllowedIn (result : Except Fault State) (action : Action) : Prop :=
  ∀ s, result = .ok s → Allowed s action

/-! ## Lists of registrations -/

section Registrations

variable {regs : Memory Registration} {held : List ℕ}

/-- No other list ends where this one ends. -/
def Alone (regs : Memory Registration) (held : List ℕ) (head : Option ℕ) : Prop :=
  ∀ other ∈ held, ∀ last, EndsIn regs head last → ¬EndsIn regs (some other) last

/-- A list that is being built, while others are in use. -/
structure Building (before regs : Memory Registration) (held : List ℕ) (head : Option ℕ)
    (registrations : List Registration) : Prop where
  counted : Counted regs (head.toList ++ held)
  settled : Settled regs
  shows : Shows regs head registrations
  others : ∀ other ∈ held, ∀ values, Shows before (some other) values → Shows regs (some other) values
  alone : Alone regs held head
  fresh : ∀ id, head = some id → before.next ≤ id
  grown : before.next ≤ regs.next

/-- A cell of a list that somebody has is not a new one. -/
theorem ne_next_of_endsIn (h : Counted regs held) {head last : ℕ} (hhead : head ∈ held)
    (hends : EndsIn regs (some head) last) : last ≠ regs.next := by
  obtain ⟨front, hfront⟩ := hends
  obtain ⟨cell, hcell, -⟩ := h.active_of_chain hfront
    (fun _ hid ↦ h.exists_cell (Option.some.inj hid ▸ hhead)) last (by simp)
  exact Nat.ne_of_lt (Heap.lt_next_of_objects hcell)

theorem Building.first {before : Memory Registration} (h : Building before regs held none [])
    (tail : Registration) : ∃ after head, registrationPush regs none tail = .ok (after, head) ∧
      Building before after held head [tail] := by
  have hheld : Counted regs held := h.counted
  obtain ⟨hcounted, hsettled, hkept⟩ := hheld.alloc h.settled tail
  obtain ⟨added, hadd, hspare, halike, hadded⟩ := hcounted.spare List.mem_cons_self
  obtain ⟨cell, hcell, hlast, hrelease⟩ := hspare.release
  obtain ⟨hfinal, hfinalsettled⟩ := hspare.settled (hadded hsettled)
  have hall := halike.trans (alike_unref added regs.next)
  refine ⟨added.modify regs.next Cell.unref, some regs.next, ?_, hfinal, hfinalsettled,
    hall.shows.mpr (shows_alloc regs tail), ?_, ?_, ?_, ?_⟩
  · rw [registrationPush]
    dsimp only
    rw [hadd, ok_bind, hrelease]
    rfl
  · intro other hother values hvalues
    obtain ⟨nodes, hchain, hsame⟩ := h.others other hother values hvalues
    obtain ⟨hchain', hsame'⟩ := hkept (some other) nodes (fun _ hid ↦ Option.some.inj hid ▸ hother) hchain
    exact hall.shows.mpr ⟨nodes, hchain', hsame'.trans hsame⟩
  · intro other hother last hends hbehind
    obtain rfl := (hall.endsIn.mp hends).unique ⟨[], rfl, nextOf_alloc regs tail⟩
    obtain ⟨final, front, hfront⟩ := hheld.exists_last hother
    have hsame := (hkept (some other) _ (fun _ hid ↦ Option.some.inj hid ▸ hother) hfront).1
    have hnext := (hall.endsIn.mp hbehind).unique ⟨front, hsame⟩
    exact ne_next_of_endsIn hheld hother ⟨front, hfront⟩ hnext.symm
  · intro id hid
    rw [← Option.some.inj hid]
    exact h.grown
  · rw [hall.allocated]
    exact Nat.le_succ_of_le h.grown

theorem Building.next {before : Memory Registration} {start : ℕ} {registrations : List Registration}
    (h : Building before regs held (some start) registrations) (tail : Registration) :
    ∃ after head, registrationPush regs (some start) tail = .ok (after, head) ∧
      Building before after held head (registrations ++ [tail]) := by
  have hstart : start ∈ start :: held := List.mem_cons_self
  obtain ⟨after, hrun, hpushed⟩ := push_ok h.counted h.settled hstart tail
  obtain ⟨last, front, hfront⟩ := Counted.exists_last h.counted hstart
  obtain ⟨hgrown, -⟩ := hpushed.chain start hstart _ hfront last ⟨front, hfront⟩
  rw [if_pos (by simp)] at hgrown
  refine ⟨after, some start, ?_, hpushed.counted, hpushed.settled,
    (hpushed.shows hstart h.shows ⟨front, hfront⟩).1 ⟨front, hfront⟩, ?_, ?_, h.fresh, ?_⟩
  · rw [registrationPush]
    dsimp only
    rw [hrun]
    rfl
  · intro other hother values hvalues
    exact (hpushed.shows (List.mem_cons_of_mem start hother) (h.others other hother values hvalues)
      ⟨front, hfront⟩).2 (h.alone other hother last ⟨front, hfront⟩)
  · intro other hother final hends hbehind
    obtain rfl := hends.unique ⟨_, hgrown⟩
    have hother' := List.mem_cons_of_mem start hother
    obtain ⟨final, front', hfront'⟩ := Counted.exists_last h.counted hother'
    obtain ⟨hsame, -⟩ := hpushed.chain other hother' _ hfront' last ⟨front, hfront⟩
    rw [if_neg] at hsame
    · have hnext := hbehind.unique ⟨front', hsame⟩
      exact ne_next_of_endsIn h.counted hother' ⟨front', hfront'⟩ hnext.symm
    · intro hmem
      exact h.alone other hother last ⟨front, hfront⟩
        (endsIn_of_mem (EndsIn.nextOf ⟨front, hfront⟩) hfront' hmem)
  · rw [hpushed.allocated]
    exact Nat.le_succ_of_le h.grown

theorem Building.push {before : Memory Registration} {head : Option ℕ} {registrations : List Registration}
    (h : Building before regs held head registrations) (tail : Registration) :
    ∃ after head', registrationPush regs head tail = .ok (after, head') ∧
      Building before after held head' (registrations ++ [tail]) := by
  cases head with
  | none =>
    obtain rfl := h.shows.eq_nil
    exact h.first tail
  | some start => exact h.next tail

/-- The list of a configuration, with all of its registrations. -/
theorem parseEvents_ok (h : Counted regs held) (hsettled : Settled regs)
    (registrations : List Registration) : ∃ after head, parseEvents regs registrations = .ok (after, head) ∧
      Building regs after held head registrations := by
  have hstart : Building regs regs held none [] := by
    refine ⟨h, hsettled, ⟨[], rfl, rfl⟩, fun _ _ _ hvalues ↦ hvalues, ?_, ?_, le_rfl⟩
    · rintro other - last ⟨front, hfront⟩
      cases front with
      | nil => cases hfront.1
      | cons node front => cases hfront.1
    · intro id hid
      cases hid
  have hfold (later : List Registration) : ∀ (middle : Memory Registration) (head : Option ℕ)
      (earlier : List Registration), Building regs middle held head earlier →
      ∃ after head', later.foldlM (fun list tail ↦ registrationPush list.1 list.2 tail) (middle, head) =
        .ok (after, head') ∧ Building regs after held head' (earlier ++ later) := by
    induction later with
    | nil =>
      intro middle head earlier hearlier
      exact ⟨middle, head, rfl, by rwa [List.append_nil]⟩
    | cons tail later ih =>
      intro middle head earlier hearlier
      obtain ⟨pushed, head', hrun, hpushed⟩ := hearlier.push tail
      obtain ⟨after, head'', hrest, hafter⟩ := ih pushed head' (earlier ++ [tail]) hpushed
      refine ⟨after, head'', ?_, by rwa [List.append_assoc] at hafter⟩
      rw [List.foldlM_cons, hrun]
      exact hrest
  exact hfold registrations regs none [] hstart

/-- The calls for an event, from the registrations of its lists. -/
theorem tryRegistrations_ok (trigger : String) {fuel : ℕ} {er : Option ℕ}
    {registrations : List Registration} (hshows : Shows regs er registrations)
    (hfuel : registrations.length ≤ fuel) :
    tryRegistrations regs trigger fuel er = .ok (registrations.filter (wants trigger)) := by
  obtain ⟨nodes, hchain, hvalues⟩ := hshows
  induction nodes generalizing er fuel registrations with
  | nil =>
    obtain rfl := List.map_eq_nil_iff.mp hvalues.symm
    rw [LinkedList.chain_nil.mp hchain]
    cases fuel <;> rfl
  | cons node nodes ih =>
    obtain ⟨rfl, hchain⟩ := hchain
    cases registrations with
    | nil => cases hvalues
    | cons registration registrations =>
      obtain ⟨hvalue, hrest⟩ := List.cons.inj hvalues
      obtain ⟨cell, hcell, rfl⟩ := Option.map_eq_some_iff.mp hvalue
      cases fuel with
      | zero => cases hfuel
      | succ fuel =>
        rw [nextOf_eq hcell] at hchain
        rw [tryRegistrations, load_eq hcell, ok_bind,
          ih (Nat.le_of_succ_le_succ hfuel) hchain hrest, ok_bind, List.filter_cons]
        rfl

theorem tryReglist_ok (h : Counted regs held) (trigger : String) (lists : ℕ → List Registration)
    {reglist : List ℕ} (hheld : ∀ head ∈ reglist, head ∈ held)
    (hshows : ∀ head ∈ reglist, Shows regs (some head) (lists head)) :
    tryReglist regs trigger reglist = .ok ((reglist.flatMap lists).filter (wants trigger)) := by
  induction reglist with
  | nil => rfl
  | cons head reglist ih =>
    rw [List.forall_mem_cons] at hheld hshows
    obtain ⟨cell, hcell, hactive⟩ := h.exists_cell hheld.1
    have hlength : (lists head).length ≤ regs.next := by
      obtain ⟨nodes, hchain, hvalues⟩ := hshows.1
      have hlengths := congrArg List.length hvalues
      rw [List.length_map, List.length_map] at hlengths
      rw [← hlengths]
      exact h.chain_length hcell hactive hchain
    rw [tryReglist, tryRegistrations_ok trigger hshows.1 (Nat.le_succ_of_le hlength), ok_bind,
      ih hheld.2 hshows.2, ok_bind, List.flatMap_cons, List.filter_append]
    rfl

end Registrations

end Icecast.Event.Queue
