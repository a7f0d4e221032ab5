import Icecast.Event.Queue
import Mathlib.Data.List.Perm.Basic
import Mathlib.Data.List.Perm.Lattice
import Mathlib.Data.List.ReduceOption

/-!
# What becomes of events

Every event that is queued is handled once, in the order of the queue, and the registrations that are called
for it are those of its lists at the time it was made, also if the configuration has been replaced since
then.
-/

namespace Icecast.Event.Queue

open Lib Lib.Checked Lib.LinkedList Lib.Machine Lib.SharedList

/-! ## Memory -/

def countIn (head : ℕ) (event : EventData) : ℤ := event.reglist.count head

/-- The events and the lists are counted, the lists by the configurations and by the events. -/
structure Sound (regs : Memory Registration) (owners : List ℕ) (events : Memory EventData) (held : List ℕ) :
    Prop where
  counted : Counted events held
  settled : Settled events
  countedRegs : ∃ pinned, Counted regs (owners ++ pinned) ∧
    ∀ head, (pinned.count head : ℤ) = events.total fun cell ↦ countIn head cell.value
  settledRegs : Settled regs

section Sound

variable {regs : Memory Registration} {owners held : List ℕ} {events : Memory EventData} {id : ℕ}

theorem Sound.perm {held' : List ℕ} (h : Sound regs owners events held) (hperm : held.Perm held') :
    Sound regs owners events held' :=
  ⟨h.counted.perm hperm, h.settled, h.countedRegs, h.settledRegs⟩

/-- A list of an event that is still there is one that somebody has. -/
theorem mem_pinned {cell : Cell EventData} (hcell : events.objects id = some cell) {pinned : List ℕ}
    (hpinned : ∀ head, (pinned.count head : ℤ) = events.total fun cell ↦ countIn head cell.value)
    {head : ℕ} (hhead : head ∈ cell.value.reglist) : head ∈ pinned := by
  have hnonneg (found : Cell EventData) : 0 ≤ countIn head found.value := Int.natCast_nonneg _
  have hpart := Heap.part_le_total hnonneg hcell
  have hpos := List.count_pos_iff.mpr hhead
  rw [← hpinned, countIn] at hpart
  apply List.count_pos_iff.mp
  omega

theorem count_flatMap_reglist (freed : List EventData) (head : ℕ) :
    ((freed.flatMap EventData.reglist).count head : ℤ) = (freed.map (countIn head)).sum := by
  induction freed with
  | nil => rfl
  | cons event freed ih =>
    rw [List.flatMap_cons, List.count_append, Nat.cast_add, ih, List.map_cons, List.sum_cons, countIn]

/-- What giving back an event does: everything that is left is as it was. -/
structure Gone (regs regs' : Memory Registration) (events events' : Memory EventData)
    (owners held : List ℕ) : Prop where
  sound : Sound regs' owners events' held
  remains : Remains events events'
  remainsRegs : Remains regs regs'
  allocated : events'.next = events.next
  allocatedRegs : regs'.next = regs.next

theorem eventRelease_ok (h : Sound regs owners events (id :: held)) : ∃ regs' events',
    eventRelease regs events (some id) = .ok (regs', events') ∧
    Gone regs regs' events events' owners held := by
  obtain ⟨events', freed, hrun, hreleased⟩ := releaseAll_ok h.counted
  obtain ⟨pinned, hcounted, hpinned⟩ := h.countedRegs
  -- The lists of the events that have gone are among those that are pinned.
  have hmissing (head : ℕ) := hreleased.missing (countIn head)
  have hle (head : ℕ) : (freed.flatMap EventData.reglist).count head ≤ pinned.count head := by
    have hnonneg : 0 ≤ events'.total fun cell ↦ countIn head cell.value := by
      apply Finset.sum_nonneg
      exact fun other _ ↦ Heap.amount_nonneg (fun _ ↦ Int.natCast_nonneg _) events' other
    have hcount := count_flatMap_reglist freed head
    have htotal := hpinned head
    have hsum := hmissing head
    omega
  set left := pinned.diff (freed.flatMap EventData.reglist) with hleft
  have hcountleft (head : ℕ) :
      left.count head = pinned.count head - (freed.flatMap EventData.reglist).count head :=
    List.count_diff head pinned _
  have hperm : (owners ++ pinned).Perm (freed.flatMap EventData.reglist ++ (owners ++ left)) := by
    rw [List.perm_iff_count]
    intro head
    have hsum := hle head
    rw [List.count_append, List.count_append, List.count_append, hcountleft]
    omega
  obtain ⟨regs', hrest, hcounted', hsettled', hremains, hallocated⟩ :=
    releaseList_ok (hcounted.perm hperm) h.settledRegs
  refine ⟨regs', events', ?_, ⟨hreleased.counted, hreleased.settled h.settled, ⟨left, hcounted', ?_⟩,
    hsettled'⟩, hreleased.remains, hremains, hreleased.allocated, hallocated⟩
  · rw [eventRelease, hrun, ok_bind]
    dsimp only
    rw [hrest]
    rfl
  · intro head
    have hsum := hle head
    have hcount := count_flatMap_reglist freed head
    have htotal := hpinned head
    have hall := hmissing head
    rw [hcountleft]
    omega

theorem Gone.chain {regs' : Memory Registration} {events' : Memory EventData}
    (h : Gone regs regs' events events' owners held) {start : Option ℕ} {nodes : List ℕ}
    (hstart : ∀ id, start = some id → id ∈ held) (hchain : Chain (nextOf events) start nodes) :
    Chain (nextOf events') start nodes :=
  (h.sound.counted.chain_remains h.remains
    (fun id hid ↦ h.sound.counted.exists_cell (hstart id hid)) hchain).1

theorem Gone.next {regs' : Memory Registration} {events' : Memory EventData}
    (h : Gone regs regs' events events' owners held) (hid : id ∈ held) :
    nextOf events' id = nextOf events id := by
  obtain ⟨cell, hcell, -⟩ := h.sound.counted.exists_cell hid
  exact (remains_nextOf h.remains hcell).1

end Sound

/-! ## The invariant -/

/-- The registrations that are to be called for an event. -/
def expected (trace : Trace) (event : ℕ) : List Registration :=
  ((trace.info event).reglist.flatMap trace.lists).filter (wants (trace.info event).trigger)

/-- Lists and events are told by their numbers. -/
structure Recorded (trace : Trace) (lists events : ℕ) : Prop where
  nodup : trace.accepted.Nodup
  given : ∀ event ∈ trace.accepted, event < events
  handled : ∀ event ∈ trace.handled, event ∈ trace.accepted
  known : ∀ event, ∀ head ∈ (trace.info event).reglist, head < lists
  calls : trace.calls = trace.handled.flatMap fun event ↦ (expected trace event).map (event, ·)

/-- A number that has not been given out is no event that has been queued. -/
theorem Recorded.addEvent {trace : Trace} {lists events : ℕ} (h : Recorded trace lists events)
    {event : EventData} (hevent : ∀ head ∈ event.reglist, head < lists) :
    Recorded { trace with info := Function.update trace.info events event } lists (events + 1) := by
  refine ⟨h.nodup, fun id hid ↦ Nat.lt_succ_of_lt (h.given id hid), h.handled, ?_, ?_⟩
  · intro id head
    dsimp only
    by_cases hid : id = events
    · rw [hid, Function.update_self]
      exact hevent head
    · rw [Function.update_of_ne hid]
      exact h.known id head
  · refine h.calls.trans (List.flatMap_congr ?_)
    intro id hid
    have hne : id ≠ events := Nat.ne_of_lt (h.given id (h.handled id hid))
    simp only [expected, Function.update_of_ne hne]

theorem Recorded.addList {trace : Trace} {lists lists' events : ℕ} (h : Recorded trace lists events)
    {head : ℕ} (hhead : lists ≤ head) (hgrown : lists ≤ lists') (registrations : List Registration) :
    Recorded { trace with lists := Function.update trace.lists head registrations } lists' events := by
  refine ⟨h.nodup, h.given, h.handled,
    fun id other hother ↦ Nat.lt_of_lt_of_le (h.known id other hother) hgrown, ?_⟩
  refine h.calls.trans (List.flatMap_congr ?_)
  intro id _
  have hsame : (trace.info id).reglist.flatMap (Function.update trace.lists head registrations) =
      (trace.info id).reglist.flatMap trace.lists := by
    apply List.flatMap_congr
    intro other hother
    have hlt := h.known id other hother
    rw [Function.update_of_ne (by omega)]
  simp only [expected, hsame]

theorem Recorded.mono {trace : Trace} {lists lists' events : ℕ} (h : Recorded trace lists events)
    (hlists : lists ≤ lists') : Recorded trace lists' events :=
  ⟨h.nodup, h.given, h.handled,
    fun id other hother ↦ Nat.lt_of_lt_of_le (h.known id other hother) hlists, h.calls⟩

/-- The events somebody has a reference to. -/
def State.held (s : State) : List ℕ := s.queue.toList ++ s.fresh ++ s.emitted ++ s.worker.event.toList

structure Invariant (s : State) : Prop where
  sound : Sound s.regs s.owners s.events s.held
  lists : ∀ head ∈ s.owners, Shows s.regs (some head) (s.trace.lists head)
  eventLists : ∀ id cell, s.events.objects id = some cell → ∀ head ∈ cell.value.reglist,
    Shows s.regs (some head) (s.trace.lists head)
  info : ∀ id cell, s.events.objects id = some cell → s.trace.info id = cell.value
  fresh : ∀ id ∈ s.fresh, nextOf s.events id = none ∧ id ∉ s.trace.accepted
  freshNodup : s.fresh.Nodup
  queue : ∃ waiting, Chain (nextOf s.events) s.queue waiting ∧ waiting.length ≤ 128 ∧
    s.trace.accepted = s.trace.handled ++ s.worker.event.toList ++ s.trace.dropped ++ waiting
  recorded : Recorded s.trace s.regs.next s.events.next
  dropped : s.trace.dropped ≠ [] → s.worker = .ended

section Steps

variable {s : State}

/-- The lists of configurations and events after some have gone. -/
theorem Invariant.lists_remain (h : Invariant s) {regs' : Memory Registration} {owners' held : List ℕ}
    {events' : Memory EventData} (hsound : Sound regs' owners' events' held)
    (howners : ∀ head ∈ owners', head ∈ s.owners)
    (hremains : Remains s.events events') (hremainsRegs : Remains s.regs regs') :
    (∀ head ∈ owners', Shows regs' (some head) (s.trace.lists head)) ∧
    (∀ id cell, events'.objects id = some cell → ∀ head ∈ cell.value.reglist,
      Shows regs' (some head) (s.trace.lists head)) ∧
    ∀ id cell, events'.objects id = some cell → s.trace.info id = cell.value := by
  obtain ⟨pinned, hcounted, hpinned⟩ := hsound.countedRegs
  have hshows {head : ℕ} (hhead : head ∈ owners' ++ pinned)
      (hbefore : Shows s.regs (some head) (s.trace.lists head)) :
      Shows regs' (some head) (s.trace.lists head) := by
    apply hbefore.remains hcounted hremainsRegs
    exact fun _ hid ↦ hcounted.exists_cell (Option.some.inj hid ▸ hhead)
  refine ⟨?_, ?_, ?_⟩
  · exact fun head hhead ↦ hshows (List.mem_append_left _ hhead) (h.lists head (howners head hhead))
  · intro id cell hcell head hhead
    obtain ⟨old, hold, -, hvalue⟩ := hremains id cell hcell
    refine hshows (List.mem_append_right _ (mem_pinned hcell hpinned hhead)) ?_
    exact h.eventLists id old hold head (hvalue ▸ hhead)
  · intro id cell hcell
    obtain ⟨old, hold, -, hvalue⟩ := hremains id cell hcell
    rw [h.info id old hold, hvalue]

theorem configure_ok (h : Invariant s) (registrations : List Registration) :
    ∃ after, step s (.configure registrations) = .ok after ∧ Invariant after := by
  obtain ⟨pinned, hcounted, hpinned⟩ := h.sound.countedRegs
  obtain ⟨regs, head, hrun, hbuilt⟩ := parseEvents_ok hcounted h.sound.settledRegs registrations
  have hold {other : ℕ} (hother : other ∈ s.owners ++ pinned) (hne : ∀ id, head = some id → other ≠ id) :
      Shows s.regs (some other) (s.trace.lists other) → Shows regs (some other)
        (head.elim s.trace.lists (fun head ↦ Function.update s.trace.lists head registrations) other) := by
    intro hshows
    have hsame :
        head.elim s.trace.lists (fun head ↦ Function.update s.trace.lists head registrations) other =
          s.trace.lists other := by
      cases hhead : head with
      | none => rfl
      | some id => exact Function.update_of_ne (hne id hhead) _ _
    rw [hsame]
    exact hbuilt.others other hother _ hshows
  have hlive {other : ℕ} (hother : other ∈ s.owners ++ pinned) : ∀ id, head = some id → other ≠ id := by
    intro id hid
    obtain ⟨cell, hcell, -⟩ := hcounted.exists_cell hother
    have hlt := Heap.lt_next_of_objects hcell
    have hle := hbuilt.fresh id hid
    omega
  refine ⟨_, by rw [step, hrun, ok_bind]; rfl, ?_⟩
  refine ⟨⟨h.sound.counted, h.sound.settled, ⟨pinned, ?_, hpinned⟩, hbuilt.settled⟩, ?_, ?_, h.info,
    h.fresh, h.freshNodup, h.queue, ?_, h.dropped⟩
  · rw [List.append_assoc]
    exact hbuilt.counted
  · intro other hmem
    rcases List.mem_append.mp hmem with hmem | hmem
    · have hhead := Option.mem_toList.mp hmem
      have hshows := hbuilt.shows
      rw [Option.mem_def.mp hhead] at hshows ⊢
      change Shows regs (some other) (Function.update s.trace.lists other registrations other)
      rwa [Function.update_self]
    · have hother := List.mem_append_left pinned hmem
      exact hold hother (hlive hother) (h.lists other hmem)
  · intro id cell hcell other hmem
    have hother := List.mem_append_right s.owners (mem_pinned hcell hpinned hmem)
    exact hold hother (hlive hother) (h.eventLists id cell hcell other hmem)
  · cases hhead : head with
    | none => exact h.recorded.mono hbuilt.grown
    | some id => exact h.recorded.addList (hbuilt.fresh id hhead) hbuilt.grown registrations

theorem unconfigure_ok (h : Invariant s) {head : ℕ} (hhead : head ∈ s.owners) :
    ∃ after, step s (.unconfigure head) = .ok after ∧ Invariant after := by
  obtain ⟨pinned, hcounted, hpinned⟩ := h.sound.countedRegs
  have hperm : (s.owners ++ pinned).Perm (head :: (s.owners.erase head ++ pinned)) :=
    (List.perm_cons_erase hhead).append_right pinned
  obtain ⟨regs, freed, hrun, hreleased⟩ := releaseAll_ok (hcounted.perm hperm)
  have hsound : Sound regs (s.owners.erase head) s.events s.held :=
    ⟨h.sound.counted, h.sound.settled, ⟨pinned, hreleased.counted, hpinned⟩,
      hreleased.settled h.sound.settledRegs⟩
  obtain ⟨hlists, heventLists, hinfo⟩ := h.lists_remain hsound (fun _ hmem ↦ List.mem_of_mem_erase hmem)
    (Remains.refl s.events) hreleased.remains
  refine ⟨_, by rw [step, hrun, ok_bind]; rfl, ?_⟩
  exact ⟨hsound, hlists, heventLists, hinfo, h.fresh, h.freshNodup, h.queue,
    h.recorded.mono hreleased.allocated.ge, h.dropped⟩

/-- The lists that are found for an event are counted. -/
theorem pushReglists_ok {regs : Memory Registration} {held : List ℕ} (heads : List (Option ℕ))
    {reglist : List ℕ} (h : Counted regs (reglist ++ held)) (hsettled : Settled regs)
    (hheads : ∀ head, some head ∈ heads → head ∈ held) (hroom : reglist.length + heads.length ≤ 8) :
    ∃ after, heads.foldlM eventPushReglist (regs, reglist) = .ok (after, reglist ++ heads.reduceOption) ∧
      Counted after (reglist ++ heads.reduceOption ++ held) ∧ Settled after ∧ Alike regs after := by
  induction heads generalizing regs reglist with
  | nil =>
    refine ⟨regs, ?_, ?_, hsettled, Alike.refl regs⟩
    · rw [List.reduceOption_nil, List.append_nil]
      rfl
    · rwa [List.reduceOption_nil, List.append_nil]
  | cons head heads ih =>
    rw [List.length_cons] at hroom
    have hrest : ∀ head, some head ∈ heads → head ∈ held :=
      fun other hother ↦ hheads other (List.mem_cons_of_mem head hother)
    cases head with
    | none =>
      rw [List.reduceOption_cons_of_none]
      exact ih h hsettled hrest (by omega)
    | some head =>
      have hhead : head ∈ reglist ++ held := List.mem_append_right _ (hheads head List.mem_cons_self)
      obtain ⟨cell, hcell, hactive⟩ := h.exists_cell hhead
      have hperm : (head :: (reglist ++ held)).Perm (reglist ++ [head] ++ held) := by
        rw [List.append_assoc]
        exact List.perm_middle.symm
      have hadd : eventPushReglist (regs, reglist) (some head) =
          .ok (regs.modify head Cell.addref, reglist ++ [head]) := by
        rw [eventPushReglist, if_pos (by dsimp only; omega)]
        dsimp only
        rw [addref, load_eq hcell]
        rfl
      obtain ⟨after, hrun, hafter, hsettled', halike⟩ := ih ((h.addref hcell hactive).perm hperm)
        (h.settled_addref hsettled head) hrest (by rw [List.length_append, List.length_singleton]; omega)
      have hlists : reglist ++ (some head :: heads).reduceOption =
          reglist ++ [head] ++ heads.reduceOption := by
        rw [List.reduceOption_cons_of_some, List.append_assoc, List.singleton_append]
      rw [List.foldlM_cons, hadd, hlists]
      exact ⟨after, hrun, hafter, hsettled', (alike_addref regs head).trans halike⟩

theorem create_ok (h : Invariant s) (trigger : String) {config mount defaultMount : Option ℕ}
    (hallowed : Allowed s (.create trigger config mount defaultMount)) :
    ∃ after, step s (.create trigger config mount defaultMount) = .ok after ∧ Invariant after := by
  obtain ⟨pinned, hcounted, hpinned⟩ := h.sound.countedRegs
  set heads := [config, mount, defaultMount] with hheads
  have howned {head : ℕ} (hhead : some head ∈ heads) : head ∈ s.owners := hallowed head hhead
  obtain ⟨regs, hrun, hadded, hsettled, halike⟩ := pushReglists_ok heads
    (by rwa [List.nil_append] : Counted s.regs ([] ++ (s.owners ++ pinned))) h.sound.settledRegs
    (fun head hhead ↦ List.mem_append_left _ (howned hhead)) (Nat.le_of_ble_eq_true rfl)
  rw [List.nil_append] at hrun hadded
  have hmem {head : ℕ} (hhead : head ∈ heads.reduceOption) : head ∈ s.owners :=
    howned (List.reduceOption_mem_iff.mp hhead)
  rw [step, create, hrun, ok_bind]
  dsimp only
  by_cases hnone : heads.reduceOption = []
  · rw [if_pos hnone]
    rw [hnone, List.nil_append] at hadded
    refine ⟨_, rfl, ⟨h.sound.counted, h.sound.settled, ⟨pinned, hadded, hpinned⟩, hsettled⟩, ?_, ?_, h.info,
      h.fresh, h.freshNodup, h.queue, h.recorded.mono halike.allocated.ge, h.dropped⟩
    · exact fun head hhead ↦ halike.shows.mpr (h.lists head hhead)
    · exact fun id cell hcell head hhead ↦ halike.shows.mpr (h.eventLists id cell hcell head hhead)
  · rw [if_neg hnone]
    set event : EventData := ⟨trigger, heads.reduceOption⟩ with hevent
    obtain ⟨hevents, hsettledEvents, hkept⟩ := h.sound.counted.alloc h.sound.settled event
    have hself : (s.events.alloc ⟨1, none, event⟩).objects s.events.next = some ⟨1, none, event⟩ :=
      Heap.objects_alloc_self s.events _
    have hother {id : ℕ} (hne : id ≠ s.events.next) :
        (s.events.alloc ⟨1, none, event⟩).objects id = s.events.objects id :=
      Heap.objects_alloc_of_ne s.events _ hne
    have hperm : (s.events.next :: s.held).Perm
        (s.queue.toList ++ (s.events.next :: s.fresh) ++ s.emitted ++ s.worker.event.toList) := by
      rw [State.held, List.append_assoc, List.append_assoc, List.append_assoc, List.append_assoc]
      exact List.perm_middle.symm
    have hpinned' : Counted regs (s.owners ++ (heads.reduceOption ++ pinned)) := by
      apply hadded.perm
      rw [← List.append_assoc, ← List.append_assoc]
      exact List.perm_append_comm.append_right pinned
    refine ⟨_, rfl, ⟨hevents.perm hperm, hsettledEvents, ⟨_, hpinned', ?_⟩, hsettled⟩,
      ?_, ?_, ?_, ?_, ?_, ?_, ?_, h.dropped⟩
    · intro head
      rw [List.count_append, Nat.cast_add, hpinned, Heap.total_alloc, countIn, hevent]
      ring
    · exact fun head hhead ↦ halike.shows.mpr (h.lists head hhead)
    · intro id cell hcell head hhead
      apply halike.shows.mpr
      by_cases hid : id = s.events.next
      · rw [hid, hself, Option.some.injEq] at hcell
        rw [← hcell] at hhead
        exact h.lists head (hmem hhead)
      · rw [hother hid] at hcell
        exact h.eventLists id cell hcell head hhead
    · intro id cell hcell
      by_cases hid : id = s.events.next
      · rw [hid, hself, Option.some.injEq] at hcell
        rw [hid, ← hcell]
        exact Function.update_self _ _ _
      · rw [hother hid] at hcell
        exact (Function.update_of_ne hid _ _).trans (h.info id cell hcell)
    · intro id hid
      rcases List.mem_cons.mp hid with rfl | hid
      · refine ⟨nextOf_eq hself, fun hmem ↦ ?_⟩
        exact Nat.lt_irrefl _ (h.recorded.given s.events.next hmem)
      · obtain ⟨hnext, hnot⟩ := h.fresh id hid
        have hheld : id ∈ s.held := by
          simp only [State.held, List.mem_append]
          exact Or.inl (Or.inl (Or.inr hid))
        obtain ⟨cell, hcell, -⟩ := h.sound.counted.exists_cell hheld
        refine ⟨?_, hnot⟩
        rw [nextOf, hother (Nat.ne_of_lt (Heap.lt_next_of_objects hcell)), ← nextOf, hnext]
    · refine List.nodup_cons.mpr ⟨fun hmem ↦ ?_, h.freshNodup⟩
      have hheld : s.events.next ∈ s.held := by
        simp only [State.held, List.mem_append]
        exact Or.inl (Or.inl (Or.inr hmem))
      obtain ⟨cell, hcell, -⟩ := h.sound.counted.exists_cell hheld
      exact Nat.lt_irrefl _ (Heap.lt_next_of_objects hcell)
    · obtain ⟨waiting, hchain, hlength, haccepted⟩ := h.queue
      refine ⟨waiting, (hkept s.queue waiting ?_ hchain).1, hlength, haccepted⟩
      intro id hid
      simp only [State.held, List.mem_append]
      exact Or.inl (Or.inl (Or.inl (Option.mem_toList.mpr hid)))
    · refine (h.recorded.mono halike.allocated.ge).addEvent ?_
      intro head hhead
      obtain ⟨cell, hcell, -⟩ := hadded.exists_cell (List.mem_append_left _ hhead)
      exact Heap.lt_next_of_objects hcell

/-- The events after a change of pointers between them. -/
theorem Invariant.relinked (h : Invariant s) {events : Memory EventData} {held : List ℕ}
    (hcounted : Counted events held) (hsettled : Settled events)
    (hvalue : valueOf events = valueOf s.events)
    (hallocated : events.next = s.events.next) : Sound s.regs s.owners events held ∧
      (∀ id cell, events.objects id = some cell → ∀ head ∈ cell.value.reglist,
        Shows s.regs (some head) (s.trace.lists head)) ∧
      ∀ id cell, events.objects id = some cell → s.trace.info id = cell.value := by
  have hold {id : ℕ} {cell : Cell EventData} (hcell : events.objects id = some cell) :
      ∃ old, s.events.objects id = some old ∧ old.value = cell.value := by
    have hsame : valueOf s.events id = some cell.value := by
      rw [← hvalue, valueOf, hcell, Option.map_some]
    exact Option.map_eq_some_iff.mp hsame
  obtain ⟨pinned, hpinned, hcount⟩ := h.sound.countedRegs
  refine ⟨⟨hcounted, hsettled, ⟨pinned, hpinned, ?_⟩, h.sound.settledRegs⟩, ?_, ?_⟩
  · intro head
    rw [hcount, total_value_eq hvalue hallocated]
  · intro id cell hcell head hhead
    obtain ⟨old, holdcell, hsame⟩ := hold hcell
    exact h.eventLists id old holdcell head (hsame ▸ hhead)
  · intro id cell hcell
    obtain ⟨old, holdcell, hsame⟩ := hold hcell
    rw [h.info id old holdcell, hsame]

theorem findLink_ok {events : Memory EventData} (room : ℕ) (link : Option ℕ) {start : Option ℕ}
    {nodes : List ℕ} (hchain : Chain (nextOf events) start nodes)
    (hlive : ∀ node ∈ nodes, ∃ cell, events.objects node = some cell) :
    findLink events room link start =
      .ok (if nodes.length < room then some (nodes.getLast?.or link) else none) := by
  induction room generalizing link start nodes with
  | zero => rfl
  | succ room ih =>
    cases nodes with
    | nil =>
      rw [LinkedList.chain_nil.mp hchain]
      rfl
    | cons node nodes =>
      obtain ⟨⟨cell, hcell⟩, hrest⟩ := List.forall_mem_cons.mp hlive
      obtain ⟨rfl, hchain⟩ := hchain
      rw [nextOf_eq hcell] at hchain
      have hlast : (node :: nodes).getLast?.or link = nodes.getLast?.or (some node) := by
        rw [List.getLast?_cons]
        cases nodes.getLast? <;> rfl
      rw [findLink, load_eq hcell, ok_bind, ih (some node) hchain hrest, hlast, List.length_cons]
      simp only [Nat.add_lt_add_iff_right]

theorem Invariant.mem_held (h : Invariant s) {id : ℕ} (hid : id ∈ s.held) :
    ∃ cell, s.events.objects id = some cell ∧ cell.refcount ≠ 0 :=
  h.sound.counted.exists_cell hid

theorem mem_held_of_queue {id : ℕ} (hid : s.queue = some id) : id ∈ s.held := by
  simp only [State.held, List.mem_append]
  exact Or.inl (Or.inl (Or.inl (Option.mem_toList.mpr hid)))

theorem mem_held_of_fresh {id : ℕ} (hid : id ∈ s.fresh) : id ∈ s.held := by
  simp only [State.held, List.mem_append]
  exact Or.inl (Or.inl (Or.inr hid))

/-- The events of the queue are still there. -/
theorem Invariant.waiting_live (h : Invariant s) {waiting : List ℕ}
    (hchain : Chain (nextOf s.events) s.queue waiting) :
    ∀ node ∈ waiting, ∃ cell, s.events.objects node = some cell ∧ cell.refcount ≠ 0 :=
  h.sound.counted.active_of_chain hchain fun _ hid ↦ h.mem_held (mem_held_of_queue hid)

theorem Recorded.accept {trace : Trace} {lists events event : ℕ} (h : Recorded trace lists events)
    (hevent : event < events) (hnew : event ∉ trace.accepted) :
    Recorded { trace with accepted := trace.accepted ++ [event] } lists events := by
  refine ⟨?_, ?_, fun id hid ↦ List.mem_append_left _ (h.handled id hid), h.known, h.calls⟩
  · exact List.Nodup.append h.nodup (List.nodup_singleton event) (List.disjoint_singleton.mpr hnew)
  · intro id hid
    rcases List.mem_append.mp hid with hid | hid
    · exact h.given id hid
    · exact List.mem_singleton.mp hid ▸ hevent

theorem perm_emitted (event : ℕ) (queue fresh emitted behind : List ℕ) :
    (event :: (queue ++ (fresh ++ emitted ++ behind))).Perm
    (queue ++ fresh ++ (event :: emitted) ++ behind) := by
  simp only [List.cons_append, List.append_assoc]
  exact ((List.Perm.append_left _ List.perm_middle).trans List.perm_middle).symm

/-- An event that has been queued, with the pointers as they are then. -/
theorem Invariant.queued (h : Invariant s) {event : ℕ} (hevent : event ∈ s.fresh)
    {events : Memory EventData} (head : Option ℕ) (waiting : List ℕ)
    (hcounted : Counted events
      (event :: (head.toList ++ (s.fresh.erase event ++ s.emitted ++ s.worker.event.toList))))
    (hsettled : Settled events) (hvalue : valueOf events = valueOf s.events)
    (hallocated : events.next = s.events.next)
    (hchain : Chain (nextOf events) head (waiting ++ [event])) (hlength : waiting.length < 128)
    (haccepted : s.trace.accepted = s.trace.handled ++ s.worker.event.toList ++ s.trace.dropped ++ waiting)
    (hfresh : ∀ id ∈ s.fresh, id ≠ event → nextOf events id = none) :
    Invariant { s with
      fresh := s.fresh.erase event
      emitted := event :: s.emitted
      events := events
      queue := head
      trace := { s.trace with accepted := s.trace.accepted ++ [event] } } := by
  have hperm := perm_emitted event head.toList (s.fresh.erase event) s.emitted s.worker.event.toList
  obtain ⟨hsound, heventLists, hinfo⟩ := h.relinked (hcounted.perm hperm) hsettled hvalue hallocated
  obtain ⟨-, hnew⟩ := h.fresh event hevent
  obtain ⟨cell, hcell, -⟩ := h.mem_held (mem_held_of_fresh hevent)
  refine ⟨hsound, h.lists, heventLists, hinfo, ?_, h.freshNodup.erase event,
    ⟨waiting ++ [event], hchain, ?_, ?_⟩, ?_, h.dropped⟩
  · intro id hid
    obtain ⟨hne, hmem⟩ := (List.Nodup.mem_erase_iff h.freshNodup).mp hid
    refine ⟨hfresh id hmem hne, ?_⟩
    rw [List.mem_append, List.mem_singleton]
    rintro (hold | rfl)
    · exact (h.fresh id hmem).2 hold
    · exact hne rfl
  · rw [List.length_append, List.length_singleton]
    exact hlength
  · change s.trace.accepted ++ [event] = _
    rw [haccepted]
    simp only [List.append_assoc]
  · rw [hallocated]
    exact h.recorded.accept (Heap.lt_next_of_objects hcell) hnew

theorem emit_ok (h : Invariant s) {event : ℕ} (hevent : event ∈ s.fresh) :
    ∃ after, step s (.emit event) = .ok after ∧ Invariant after := by
  obtain ⟨waiting, hchain, hlength, haccepted⟩ := h.queue
  obtain ⟨hnone, hnew⟩ := h.fresh event hevent
  obtain ⟨cell, hcell, hactive⟩ := h.mem_held (mem_held_of_fresh hevent)
  have hwaiting {id : ℕ} (hid : id ∈ waiting) : id ∈ s.trace.accepted :=
    haccepted ▸ List.mem_append_right _ hid
  have hlive := h.waiting_live hchain
  have hperm : s.held.Perm
      (event :: (s.queue.toList ++ (s.fresh.erase event ++ s.emitted ++ s.worker.event.toList))) := by
    rw [State.held, List.append_assoc, List.append_assoc]
    refine (List.Perm.append_left _ ((List.perm_cons_erase hevent).append_right _)).trans ?_
    rw [List.append_assoc]
    exact List.perm_middle
  have hlink := findLink_ok 128 none hchain
    fun node hnode ↦ (hlive node hnode).imp fun _ hnode ↦ hnode.1
  rw [Option.or_none] at hlink
  rw [step, emit]
  dsimp only
  rw [hlink, ok_bind]
  by_cases hroom : waiting.length < 128
  · rw [if_pos hroom]
    rcases List.eq_nil_or_concat waiting with rfl | ⟨front, last, rfl⟩
    · -- The queue is empty.
      rw [LinkedList.chain_nil.mp hchain] at hperm
      have halike := alike_addref s.events event
      refine ⟨_, by rw [addref, load_eq hcell]; rfl, ?_⟩
      refine h.queued hevent (some event) []
        (((h.sound.counted.addref hcell hactive).perm (hperm.cons event))) ?_ halike.value
        halike.allocated ?_ hroom haccepted ?_
      · exact h.sound.counted.settled_addref h.sound.settled event
      · rw [halike.next]
        exact ⟨rfl, hnone⟩
      · intro id hid _
        rw [halike.next]
        exact (h.fresh id hid).1
    · -- The link is the one of the last event.
      rw [List.concat_eq_append] at hchain hlive haccepted hwaiting hroom ⊢
      have hlast : last ∈ front ++ [last] := by simp
      obtain ⟨lastCell, hlastCell, hlastActive⟩ := hlive last hlast
      have hend : nextOf s.events last = none := EndsIn.nextOf ⟨front, hchain⟩
      have hne {id : ℕ} (hid : id ∉ s.trace.accepted) : last ≠ id := by
        rintro rfl
        exact hid (hwaiting hlast)
      have hsingle {id : ℕ} (hid : nextOf s.events id = none) : Chain (nextOf s.events) (some id) [id] :=
        ⟨rfl, hid⟩
      obtain ⟨linked, hrun, happended, -⟩ := h.sound.counted.linkTail hlastCell
        hlastActive
        (by rw [← nextOf_eq hlastCell, hend])
        (fun id hid ↦ Option.some.inj hid ▸ mem_held_of_fresh hevent)
        (fun hcycle ↦ hne hnew (hcycle.unique ⟨[], hsingle hnone⟩))
      have hchain' := happended.chain [event] (hsingle hnone) s.queue _ hchain
      rw [if_pos hlast] at hchain'
      rw [List.getLast?_concat]
      refine ⟨_, by dsimp only; rw [hrun]; rfl, ?_⟩
      refine h.queued hevent s.queue (front ++ [last]) (happended.counted.perm hperm)
        (happended.settled h.sound.settled) happended.value happended.allocated hchain' hroom haccepted ?_
      intro id hid _
      obtain ⟨hidnone, hidnew⟩ := h.fresh id hid
      have hafter := happended.chain [event] (hsingle hnone) (some id) [id] (hsingle hidnone)
      rw [if_neg fun hmem ↦ hne hidnew (List.mem_singleton.mp hmem)] at hafter
      exact hafter.2
  · rw [if_neg hroom]
    refine ⟨_, rfl, ⟨h.sound.counted.perm ?_, h.sound.settled, h.sound.countedRegs, h.sound.settledRegs⟩,
      h.lists, h.eventLists, h.info, fun id hid ↦ h.fresh id (List.mem_of_mem_erase hid),
      h.freshNodup.erase event, h.queue, h.recorded, h.dropped⟩
    exact hperm.trans (perm_emitted event s.queue.toList (s.fresh.erase event) s.emitted _)

theorem finish_ok (h : Invariant s) {event : ℕ} (hevent : event ∈ s.emitted) :
    ∃ after, step s (.finish event) = .ok after ∧ Invariant after := by
  have hperm : s.held.Perm (event :: (s.queue.toList ++ s.fresh ++ s.emitted.erase event ++
      s.worker.event.toList)) := by
    refine (((List.perm_cons_erase hevent).append_left _).append_right _).trans ?_
    rw [← List.cons_append]
    exact List.perm_middle.append_right _
  obtain ⟨regs, events, hrun, hgone⟩ := eventRelease_ok (h.sound.perm hperm)
  obtain ⟨hlists, heventLists, hinfo⟩ :=
    h.lists_remain hgone.sound (fun _ hmem ↦ hmem) hgone.remains hgone.remainsRegs
  refine ⟨_, by rw [step, hrun]; rfl, ?_⟩
  refine ⟨hgone.sound, hlists, heventLists, hinfo, ?_, h.freshNodup, ?_, ?_, h.dropped⟩
  · intro id hid
    refine ⟨?_, (h.fresh id hid).2⟩
    rw [hgone.next (by simp [hid])]
    exact (h.fresh id hid).1
  · obtain ⟨waiting, hchain, hrest⟩ := h.queue
    refine ⟨waiting, hgone.chain ?_ hchain, hrest⟩
    intro id hid
    have hqueue : s.queue = some id := hid
    simp [hqueue]
  · rw [hgone.allocated]
    exact h.recorded.mono hgone.allocatedRegs.ge

theorem Invariant.dropped_nil (h : Invariant s) (hworker : s.worker ≠ .ended) : s.trace.dropped = [] := by
  by_contra hdropped
  exact hworker (h.dropped hdropped)

theorem take_ok (h : Invariant s) (htop : s.worker = .top) :
    ∃ after, step s .take = .ok after ∧ Invariant after := by
  have hdropped := h.dropped_nil (by rw [htop]; rintro ⟨⟩)
  obtain ⟨waiting, hchain, hlength, haccepted⟩ := h.queue
  have hheld : s.held = s.queue.toList ++ s.fresh ++ s.emitted ++ [] := by rw [State.held, htop]; rfl
  rw [htop, hdropped] at haccepted
  rw [step, take]
  cases hqueue : s.queue with
  | none =>
    rw [hqueue] at hchain hheld
    have hsound := h.sound
    rw [hheld] at hsound
    refine ⟨_, rfl, ?_⟩
    refine ⟨hsound, h.lists, h.eventLists, h.info, h.fresh, h.freshNodup, ⟨waiting, hchain, hlength, ?_⟩,
      h.recorded, fun hne ↦ absurd hdropped hne⟩
    change s.trace.accepted = s.trace.handled ++ [] ++ s.trace.dropped ++ waiting
    rw [haccepted, hdropped]
    rfl
  | some event =>
    rw [hqueue] at hchain hheld
    cases waiting with
    | nil => cases hchain
    | cons node waiting =>
      obtain rfl := Option.some.inj hchain.1
      obtain ⟨cell, hcell, hactive⟩ := h.mem_held (mem_held_of_queue hqueue)
      have hcounted := h.sound.counted
      rw [hheld] at hcounted
      obtain ⟨hdetached, hkept⟩ := Counted.detach hcounted hcell
      have hnodup := List.nodup_cons.mp hchain.nodup
      have hbehind := hchain.2
      rw [nextOf_eq hcell] at hbehind
      have hperm : (event :: (cell.next.toList ++ ([] ++ s.fresh ++ s.emitted ++ []))).Perm
          (cell.next.toList ++ s.fresh ++ s.emitted ++ [event]) := by
        simp only [List.nil_append, List.append_nil, List.append_assoc]
        refine List.perm_middle.symm.trans (List.Perm.append_left _ ?_)
        rw [← List.append_assoc]
        exact (List.perm_append_singleton event _).symm
      have hsettled : Settled (s.events.modify event (Cell.link none)) := by
        apply h.sound.settled.modify
        intro found hfound
        rw [Option.some.inj (hfound.symm.trans hcell)]
        exact hactive
      obtain ⟨hsound, heventLists, hinfo⟩ := h.relinked (hdetached.perm hperm) hsettled
        (valueOf_modify fun _ ↦ rfl) rfl
      refine ⟨_, by dsimp only; rw [load_eq hcell]; rfl, ?_⟩
      refine ⟨hsound, h.lists, heventLists, hinfo, ?_, h.freshNodup,
        ⟨waiting, hkept cell.next waiting hnodup.1 hbehind, ?_, ?_⟩, h.recorded, ?_⟩
      · intro id hid
        obtain ⟨hnone, hnew⟩ := h.fresh id hid
        have hne : event ∉ [id] := by
          rw [List.mem_singleton]
          rintro rfl
          exact hnew (haccepted ▸ List.mem_append_right _ List.mem_cons_self)
        exact ⟨(hkept (some id) [id] hne ⟨rfl, hnone⟩).2, hnew⟩
      · exact Nat.le_of_succ_le hlength
      · change s.trace.accepted = s.trace.handled ++ [event] ++ s.trace.dropped ++ waiting
        rw [haccepted, hdropped]
        simp [Worker.event]
      · exact fun hne ↦ absurd hdropped hne

theorem Recorded.handle {trace : Trace} {lists events event : ℕ} (h : Recorded trace lists events)
    (hevent : event ∈ trace.accepted) : Recorded { trace with
      handled := trace.handled ++ [event]
      calls := trace.calls ++ (expected trace event).map (event, ·) } lists events := by
  refine ⟨h.nodup, h.given, ?_, h.known, ?_⟩
  · intro id hid
    rcases List.mem_append.mp hid with hid | hid
    · exact h.handled id hid
    · exact List.mem_singleton.mp hid ▸ hevent
  · dsimp only
    rw [List.flatMap_append, List.flatMap_singleton, h.calls]
    rfl

/-- The registrations of the lists of an event that is still there. -/
theorem Invariant.calls (h : Invariant s) {event : ℕ} {cell : Cell EventData}
    (hcell : s.events.objects event = some cell) :
    tryReglist s.regs cell.value.trigger cell.value.reglist = .ok (expected s.trace event) := by
  obtain ⟨pinned, hcounted, hpinned⟩ := h.sound.countedRegs
  rw [tryReglist_ok hcounted cell.value.trigger s.trace.lists
    (fun head hhead ↦ List.mem_append_right _ (mem_pinned hcell hpinned hhead))
      (h.eventLists event cell hcell),
    expected, h.info event cell hcell]

theorem handle_ok (h : Invariant s) : ∃ after, step s .handle = .ok after ∧ Invariant after := by
  rw [step, handle]
  cases hworker : s.worker with
  | top => exact ⟨s, rfl, h⟩
  | ended => exact ⟨s, rfl, h⟩
  | busy found running =>
    have hdropped := h.dropped_nil (by rw [hworker]; rintro ⟨⟩)
    obtain ⟨waiting, hchain, hlength, haccepted⟩ := h.queue
    have hnone : (if running then Worker.top else .ended).event = none := by cases running <;> rfl
    rw [hworker, hdropped] at haccepted
    cases found with
    | none =>
      have hsound := h.sound
      rw [State.held, hworker] at hsound
      refine ⟨_, rfl, ?_⟩
      refine ⟨?_, h.lists, h.eventLists, h.info, h.fresh, h.freshNodup, ⟨waiting, hchain, hlength, ?_⟩,
        h.recorded, fun hne ↦ absurd hdropped hne⟩
      · rw [State.held]
        dsimp only
        rw [hnone]
        exact hsound
      · dsimp only
        rw [hnone, haccepted, hdropped]
        rfl
    | some event =>
      have hperm : s.held.Perm (event :: (s.queue.toList ++ s.fresh ++ s.emitted ++ [])) := by
        rw [State.held, hworker, List.append_nil]
        exact List.perm_append_singleton event _
      obtain ⟨cell, hcell, -⟩ := h.mem_held (hperm.mem_iff.mpr List.mem_cons_self)
      obtain ⟨regs, events, hrun, hgone⟩ := eventRelease_ok (h.sound.perm hperm)
      obtain ⟨hlists, heventLists, hinfo⟩ :=
        h.lists_remain hgone.sound (fun _ hmem ↦ hmem) hgone.remains hgone.remainsRegs
      refine ⟨_, by dsimp only; rw [load_eq hcell, ok_bind, h.calls hcell, ok_bind, hrun]; rfl, ?_⟩
      refine ⟨?_, hlists, heventLists, hinfo, ?_, h.freshNodup, ⟨waiting, ?_, hlength, ?_⟩, ?_,
        fun hne ↦ absurd hdropped hne⟩
      · rw [State.held]
        dsimp only
        rw [hnone]
        exact hgone.sound
      · intro id hid
        have hmem : id ∈ s.fresh := hid
        refine ⟨?_, (h.fresh id hid).2⟩
        rw [hgone.next (by simp [hmem])]
        exact (h.fresh id hid).1
      · refine hgone.chain ?_ hchain
        intro id hid
        have hqueue : s.queue = some id := hid
        simp [hqueue]
      · dsimp only
        rw [hnone, haccepted, hdropped]
        simp [Worker.event]
      · rw [hgone.allocated]
        refine (h.recorded.handle ?_).mono hgone.allocatedRegs.ge
        rw [haccepted]
        simp [Worker.event]

theorem stop_ok (h : Invariant s) : ∃ after, step s .stop = .ok after ∧ Invariant after :=
  ⟨_, rfl, h.sound, h.lists, h.eventLists, h.info, h.fresh, h.freshNodup, h.queue, h.recorded, h.dropped⟩

theorem clear_ok (h : Invariant s) (hended : s.worker = .ended) :
    ∃ after, step s .clear = .ok after ∧ Invariant after := by
  obtain ⟨waiting, hchain, hlength, haccepted⟩ := h.queue
  have hheld : s.held = s.queue.toList ++ ([] ++ s.fresh ++ s.emitted ++ []) := by
    rw [State.held, hended]
    simp [Worker.event]
  obtain ⟨regs, events, hrun, hgone⟩ : ∃ regs events,
      eventRelease s.regs s.events s.queue = .ok (regs, events) ∧
      Gone s.regs regs s.events events s.owners ([] ++ s.fresh ++ s.emitted ++ []) := by
    have hsound := h.sound
    rw [hheld] at hsound
    cases hqueue : s.queue with
    | none =>
      rw [hqueue] at hsound
      exact ⟨s.regs, s.events, rfl, hsound, Remains.refl _, Remains.refl _, rfl, rfl⟩
    | some event =>
      rw [hqueue] at hsound
      exact eventRelease_ok hsound
  have hwalk : walk (nextOf s.events) s.events.next s.queue = waiting := by
    apply hchain.walk_eq
    cases hqueue : s.queue with
    | none =>
      rw [hqueue] at hchain
      cases waiting with
      | nil => exact Nat.zero_le _
      | cons node waiting => cases hchain.1
    | some event =>
      obtain ⟨cell, hcell, hactive⟩ := h.mem_held (mem_held_of_queue hqueue)
      rw [hqueue] at hchain
      exact h.sound.counted.chain_length hcell hactive hchain
  obtain ⟨hlists, heventLists, hinfo⟩ :=
    h.lists_remain hgone.sound (fun _ hmem ↦ hmem) hgone.remains hgone.remainsRegs
  refine ⟨_, by rw [step, hwalk, hrun]; rfl, ?_⟩
  refine ⟨?_, hlists, heventLists, hinfo, ?_, h.freshNodup, ⟨[], rfl, Nat.zero_le _, ?_⟩, ?_,
    fun _ ↦ hended⟩
  · rw [State.held]
    dsimp only
    rw [hended]
    exact hgone.sound
  · intro id hid
    have hmem : id ∈ s.fresh := hid
    refine ⟨?_, (h.fresh id hid).2⟩
    rw [hgone.next (by simp [hmem])]
    exact (h.fresh id hid).1
  · dsimp only
    rw [haccepted, List.append_nil, List.append_assoc _ s.trace.dropped]
  · rw [hgone.allocated]
    obtain ⟨hnodup, hgiven, hhandled, hknown, hcalls⟩ := h.recorded.mono hgone.allocatedRegs.ge
    exact ⟨hnodup, hgiven, hhandled, hknown, hcalls⟩

theorem step_ok (h : Invariant s) {action : Action} (hallowed : Allowed s action) :
    ∃ after, step s action = .ok after ∧ Invariant after := by
  cases action with
  | configure registrations => exact configure_ok h registrations
  | unconfigure head => exact unconfigure_ok h hallowed
  | create trigger config mount defaultMount => exact create_ok h trigger hallowed
  | emit event => exact emit_ok h hallowed
  | finish event => exact finish_ok h hallowed
  | take => exact take_ok h hallowed
  | handle => exact handle_ok h
  | stop => exact stop_ok h
  | clear => exact clear_ok h hallowed

/-- An event is refused only by a full queue. -/
theorem emit_accepted (h : Invariant s) {event : ℕ} {after : State}
    (hrun : step s (.emit event) = .ok after) {waiting : List ℕ}
    (hchain : Chain (nextOf s.events) s.queue waiting) :
    after.trace.accepted =
      if waiting.length < 128 then s.trace.accepted ++ [event] else s.trace.accepted := by
  have hlink := findLink_ok 128 none hchain
    fun node hnode ↦ (h.waiting_live hchain node hnode).imp fun _ hnode ↦ hnode.1
  rw [step, emit] at hrun
  dsimp only at hrun
  rw [hlink, ok_bind] at hrun
  by_cases hroom : waiting.length < 128
  · rw [if_pos hroom] at hrun ⊢
    rw [Option.or_none] at hrun
    cases hlast : waiting.getLast? with
    | none =>
      rw [hlast] at hrun
      dsimp only at hrun
      cases hadd : addref s.events (some event) with
      | error fault =>
        rw [hadd] at hrun
        cases hrun
      | ok events =>
        rw [hadd] at hrun
        rw [← Except.ok.inj hrun]
    | some last =>
      rw [hlast] at hrun
      dsimp only at hrun
      cases hadd : addref (s.events.modify last (Cell.link (some event))) (some event) with
      | error fault =>
        rw [hadd] at hrun
        cases hrun
      | ok events =>
        rw [hadd] at hrun
        rw [← Except.ok.inj hrun]
  · rw [if_neg hroom] at hrun ⊢
    rw [← Except.ok.inj hrun]

end Steps

/-! ## Runs -/

theorem sound_initial : Sound State.initial.regs State.initial.owners State.initial.events
    State.initial.held := by
  refine ⟨counted_empty, settled_empty, ⟨[], counted_empty, ?_⟩, settled_empty⟩
  intro head
  rw [Heap.total_eq_zero]
  · rfl
  · rintro id cell ⟨⟩

theorem invariant_initial : Invariant State.initial := by
  refine ⟨sound_initial, ?_, ?_, ?_, ?_, List.nodup_nil, ⟨[], rfl, Nat.zero_le _, rfl⟩, ?_,
    fun hne ↦ absurd rfl hne⟩
  · rintro head ⟨⟩
  · rintro id cell ⟨⟩
  · rintro id cell ⟨⟩
  · rintro id ⟨⟩
  · refine ⟨List.nodup_nil, ?_, ?_, ?_, rfl⟩
    · rintro event ⟨⟩
    · rintro event ⟨⟩
    · rintro event head ⟨⟩

theorem invariant_run {actions : List Action}
    (hallowed : Guarded runStep AllowedIn (.ok State.initial) actions) :
    ∃ s, run runStep (.ok State.initial) actions = .ok s ∧ Invariant s := by
  apply run_invariant_of_guarded runStep (fun result ↦ ∃ s, result = .ok s ∧ Invariant s) _ actions
    ⟨State.initial, rfl, invariant_initial⟩ hallowed
  rintro result action ⟨s, rfl, h⟩ hguard
  exact step_ok h (hguard s rfl)

/-- The events that have been queued are those that have been handled, the one the thread has, those that
were dropped with the queue and those that wait, in this order, and no event is among them twice. For each
one that has been handled the registrations have been called that its lists had when it was made, and no
others. An event is refused if and only if there are 128 others. -/
theorem events_handled {actions : List Action}
    (hallowed : Guarded runStep AllowedIn (.ok State.initial) actions) :
    ∃ s waiting, run runStep (.ok State.initial) actions = .ok s ∧
      Chain (nextOf s.events) s.queue waiting ∧ waiting.length ≤ 128 ∧
      s.trace.accepted = s.trace.handled ++ s.worker.event.toList ++ s.trace.dropped ++ waiting ∧
      s.trace.accepted.Nodup ∧ (s.trace.dropped ≠ [] → s.worker = .ended) ∧
      s.trace.calls = s.trace.handled.flatMap (fun event ↦ (expected s.trace event).map (event, ·)) ∧
      ∀ event ∈ s.fresh, ∃ after, step s (.emit event) = .ok after ∧
        after.trace.accepted =
          if waiting.length = 128 then s.trace.accepted else s.trace.accepted ++ [event] := by
  obtain ⟨s, hrun, h⟩ := invariant_run hallowed
  obtain ⟨waiting, hchain, hlength, haccepted⟩ := h.queue
  refine ⟨s, waiting, hrun, hchain, hlength, haccepted, h.recorded.nodup, h.dropped, h.recorded.calls, ?_⟩
  intro event hevent
  obtain ⟨after, hstep, -⟩ := emit_ok h hevent
  refine ⟨after, hstep, (emit_accepted h hstep hchain).trans ?_⟩
  by_cases hfull : waiting.length = 128
  · rw [if_pos hfull, if_neg (by omega)]
  · rw [if_neg hfull, if_pos (by omega)]

/-- A registration is counted once for each configuration and each event that has its list, and for the
registration before it; an event once for each one who has it. When they have all been given back, nothing
is left of either. -/
theorem events_counted {actions : List Action}
    (hallowed : Guarded runStep AllowedIn (.ok State.initial) actions) :
    ∃ s, run runStep (.ok State.initial) actions = .ok s ∧
      (∀ id cell, s.regs.objects id = some cell → 0 < cell.refcount ∧ cell.refcount = s.owners.count id +
        s.events.total (fun cell ↦ countIn id cell.value) + s.regs.total (pointsTo id)) ∧
      (∀ id cell, s.events.objects id = some cell →
        0 < cell.refcount ∧ cell.refcount = s.held.count id + s.events.total (pointsTo id)) ∧
      (s.held = [] → ∀ id, s.events.objects id = none) ∧
      (s.held = [] → s.owners = [] → ∀ id, s.regs.objects id = none) := by
  obtain ⟨s, hrun, h⟩ := invariant_run hallowed
  obtain ⟨pinned, hcounted, hpinned⟩ := h.sound.countedRegs
  have hempty (hheld : s.held = []) : ∀ id, s.events.objects id = none := by
    have hevents := h.sound.counted
    rw [hheld] at hevents
    exact hevents.eq_none h.sound.settled
  refine ⟨s, hrun, ?_, ?_, hempty, ?_⟩
  · intro id cell hcell
    have hnonneg := hcounted.refcount_nonneg hcell
    refine ⟨lt_of_le_of_ne hnonneg (Ne.symm (h.sound.settledRegs id cell hcell)), ?_⟩
    rw [hcounted.refcount id cell hcell, List.count_append, Nat.cast_add, hpinned]
  · intro id cell hcell
    have hnonneg := h.sound.counted.refcount_nonneg hcell
    exact ⟨lt_of_le_of_ne hnonneg (Ne.symm (h.sound.settled id cell hcell)),
      h.sound.counted.refcount id cell hcell⟩
  · intro hheld howners
    have hnone : pinned = [] := by
      rw [List.eq_nil_iff_forall_not_mem]
      intro head hhead
      have hpos := List.count_pos_iff.mpr hhead
      have hzero : s.events.total (fun cell ↦ countIn head cell.value) = 0 := by
        apply Heap.total_eq_zero
        intro id cell hcell
        rw [hempty hheld id] at hcell
        cases hcell
      have hcount := hpinned head
      omega
    rw [howners, hnone] at hcounted
    exact hcounted.eq_none h.sound.settledRegs

/-! ### One event -/

/-- An event is made, and the configuration is replaced before the thread comes to it. -/
def replaced : List Action :=
  [.configure [⟨1, "source-connect", true⟩, ⟨2, "source-disconnect", true⟩],
    .create "source-connect" (some 0) none none, .emit 0, .finish 0, .unconfigure 0, .take, .handle, .stop,
    .take, .handle, .clear]

theorem replaced_allowed : Guarded runStep AllowedIn (.ok State.initial) replaced := by
  refine ⟨?_, ?_, ?_, ?_, ?_, ?_, ?_, ?_, ?_, ?_, ?_, trivial⟩
  all_goals
    rintro s hs
    rw [← Except.ok.inj hs]
  · trivial
  · intro head hhead
    have hzero : head = 0 := by simpa using hhead
    rw [hzero]
    exact List.mem_of_elem_eq_true rfl
  · exact List.mem_of_elem_eq_true rfl
  · exact List.mem_of_elem_eq_true rfl
  · exact List.mem_of_elem_eq_true rfl
  · rfl
  · trivial
  · trivial
  · rfl
  · trivial
  · rfl

theorem replaced_handled : ∃ s, run runStep (.ok State.initial) replaced = .ok s ∧
    s.trace.calls = [(0, ⟨1, "source-connect", true⟩)] := by
  obtain ⟨s, _, hrun, -, -, -, -, -, hcalls, -⟩ := events_handled replaced_allowed
  refine ⟨s, hrun, ?_⟩
  rw [hcalls, ← Except.ok.inj hrun]
  rfl

theorem replaced_counted : ∃ s, run runStep (.ok State.initial) replaced = .ok s ∧
    ∀ id, s.regs.objects id = none := by
  obtain ⟨s, hrun, -, -, -, hempty⟩ := events_counted replaced_allowed
  refine ⟨s, hrun, hempty ?_ ?_⟩
  · rw [← Except.ok.inj hrun]
    rfl
  · rw [← Except.ok.inj hrun]
    rfl

end Icecast.Event.Queue
