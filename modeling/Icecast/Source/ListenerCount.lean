import Icecast.Source.ListenerStat

/-!
# The listener count of a source

`source->listeners` is kept beside the client tree and changed in both loops of a turn, by moves, by
`source_init` and by `source_clear_source`. It decides which pending listeners are taken, and the
highest count that was ever reported is kept in `peak_listeners`.

The sources of `Icecast.Source.Listeners` are taken here with the limit as it is set, an arbitrary
`long`, with the peak, and with the counts that have been reported since the source was last cleared.
-/

namespace Icecast.Source.ListenerCount

open AvlTree Lib Lib.Machine
open Listeners (Turn Listener full room sourceTurn sourceClearSource sourceInit killClient
  emptied receive movable clientLoop pendingLoop SourceOk)

/-- What the comparisons with `(unsigned long)source->max_listeners` make of a setting. -/
def limit (maxListeners : ℤ) : Option ℕ :=
  if maxListeners = -1 then none else some (maxListeners % 2 ^ 64).toNat

/-- `setting` is `max_listeners`. -/
structure SourceState extends Listeners.SourceState where
  setting : ℤ
  peakListeners : ℕ
  reported : List ℕ

abbrev State := Heap SourceState

/-- A value of `listeners` for the mount in the statistics or in an answer of the admin interface. -/
def report (count : ℕ) (source : SourceState) : SourceState :=
  { source with reported := count :: source.reported }

/-! ## The operations -/

/-- The number of listeners left after the first loop of a turn. -/
def remaining (turn : ℕ → Turn) (source : SourceState) : ℕ :=
  source.listeners - (clientLoop turn source.clientTree).2.1

/-- An iteration of `source_main`, with the peak brought up to date before the count is reported. -/
def iteration (turn : ℕ → Turn) (source : SourceState) : SourceState :=
  let next := (sourceTurn turn source.toSourceState).1
  if source.prevListeners = some next.listeners then { source with toSourceState := next }
  else report next.listeners
    { source with
      toSourceState := next
      peakListeners :=
        if source.peakListeners < next.listeners then next.listeners else source.peakListeners }

/-- `source_clear_source` leaves the peak as it is. -/
def clear (source : SourceState) : SourceState :=
  { source with toSourceState := (sourceClearSource source.toSourceState).1, setting := -1, reported := [] }

def init (source : SourceState) : SourceState :=
  if source.active then source
  else report 0 { source with toSourceState := sourceInit source.toSourceState }

/-- `source_update_settings`, and the format that is set up with a new stream. -/
def configure (setting : ℤ) (onDemand : Bool) (format : Option ℕ) (source : SourceState) : SourceState :=
  { source with
    toSourceState := { source.toSourceState with maxListeners := limit setting, onDemand, format }
    setting }

def connect (client : ℕ) (source : SourceState) : SourceState :=
  { source with pendingTree := avlInsert Listener.id ⟨client, 0, true, false⟩ source.pendingTree }

def moveClients (id dest : ℕ) (s : State) : State :=
  match s.objects id, s.objects dest with
  | some source, some target =>
    if id ≠ dest ∧ movable source.toSourceState target.toSourceState then
      (s.modify id fun source ↦
        report 0 { source with toSourceState := emptied source.toSourceState }).modify dest fun target ↦
          { target with
            toSourceState := receive (source.pendingTree ++ source.clientTree) target.toSourceState }
    else s
  | _, _ => s

inductive Event where
  | reserve
  | configure (id : ℕ) (setting : ℤ) (onDemand : Bool) (format : Option ℕ)
  | init (id : ℕ)
  | connect (id client : ℕ)
  | sourceMain (id : ℕ) (turn : ℕ → Turn)
  | kill (id client : ℕ)
  | stop (id : ℕ)
  | move (id dest : ℕ)
  | clear (id : ℕ)
  /-- The count is read by the admin interface or by `source_update_settings`. -/
  | report (id : ℕ)
  /-- Zero is reported, as when the thread of a source starts. -/
  | reportZero (id : ℕ)

def step (s : State) : Event → State
  | .reserve =>
    s.alloc ⟨⟨[], [], 0, some 0, limit (-1), false, false, none, false⟩, -1, 0, []⟩
  | .configure id setting onDemand format => s.modify id (configure setting onDemand format)
  | .init id => s.modify id init
  | .connect id client => s.modify id (connect client)
  | .sourceMain id turn =>
    s.modify id fun source ↦ if source.active then iteration turn source else source
  | .kill id client =>
    s.modify id fun source ↦ { source with toSourceState := killClient client source.toSourceState }
  | .stop id => s.modify id fun source ↦ { source with running := false }
  | .move id dest => moveClients id dest s
  | .clear id => s.modify id clear
  | .report id => s.modify id fun source ↦ report source.listeners source
  | .reportZero id => s.modify id (report 0)

/-! ## The invariant -/

/-- The count is the size of the client tree, and no count that was reported is above the peak. -/
structure CountOk (source : SourceState) : Prop extends SourceOk source.toSourceState where
  limit_eq : source.maxListeners = limit source.setting
  listeners_le : source.listeners ≤ source.peakListeners
  previous_le : ∀ count, source.prevListeners = some count → count ≤ source.peakListeners
  reported_le : ∀ count ∈ source.reported, count ≤ source.peakListeners

theorem report_ok {source : SourceState} (h : CountOk source) {count : ℕ}
    (hcount : count ≤ source.peakListeners) : CountOk (report count source) := by
  refine ⟨h.toSourceOk, h.limit_eq, h.listeners_le, h.previous_le, ?_⟩
  intro other hother
  cases List.mem_cons.mp hother with
  | inl heq => exact heq.symm ▸ hcount
  | inr hold => exact h.reported_le other hold

theorem iteration_ok {source : SourceState} (h : CountOk source) (hactive : source.active = true)
    (turn : ℕ → Turn) : CountOk (iteration turn source) := by
  have hturn := Listeners.sourceTurn_ok h.toSourceOk hactive turn
  unfold iteration
  extract_lets next
  have hprevious : ∀ count, next.prevListeners = some count → count = next.listeners :=
    fun count hcount ↦ (Option.some.inj hcount).symm
  split
  · rename_i hsame
    -- An unchanged count was reported when it was new.
    have hle := h.previous_le next.listeners hsame
    exact ⟨hturn, h.limit_eq, hle, fun count hcount ↦ (hprevious count hcount).symm ▸ hle,
      h.reported_le⟩
  · have hpeak : source.peakListeners ≤ (if source.peakListeners < next.listeners then
        next.listeners else source.peakListeners) ∧ next.listeners ≤
        (if source.peakListeners < next.listeners then next.listeners
          else source.peakListeners) := by
      split <;> omega
    apply report_ok _ hpeak.2
    exact ⟨hturn, h.limit_eq, hpeak.2, fun count hcount ↦ (hprevious count hcount).symm ▸ hpeak.2,
      fun count hcount ↦ (h.reported_le count hcount).trans hpeak.1⟩

theorem clear_ok (source : SourceState) : CountOk (clear source) := by
  refine ⟨⟨rfl, fun _ ↦ rfl⟩, rfl, Nat.zero_le _, ?_, fun count hcount ↦ nomatch hcount⟩
  intro count hcount
  have hzero : 0 = count := Option.some.inj hcount
  omega

theorem init_ok {source : SourceState} (h : CountOk source) : CountOk (init source) := by
  unfold init
  split
  · exact h
  · rename_i hidle
    have hsource := (Listeners.sourceInit_accounts h.toSourceOk).ok
    apply report_ok _ (Nat.zero_le _)
    refine ⟨hsource, ?_, ?_, ?_, h.reported_le⟩
    · simpa [sourceInit, hidle] using h.limit_eq
    · simp [sourceInit, hidle]
    · simp [sourceInit, hidle]

theorem emptied_ok {source : SourceState} (h : CountOk source) :
    CountOk { source with toSourceState := emptied source.toSourceState } :=
  ⟨⟨rfl, fun _ ↦ rfl⟩, h.limit_eq, Nat.zero_le _, h.previous_le, h.reported_le⟩

theorem receive_ok {source : SourceState} (h : CountOk source) (clients : List Listener) :
    CountOk { source with toSourceState := receive clients source.toSourceState } :=
  ⟨Listeners.receive_ok h.toSourceOk clients, h.limit_eq, h.listeners_le, h.previous_le,
    h.reported_le⟩

theorem kill_ok {source : SourceState} (h : CountOk source) (client : ℕ) :
    CountOk { source with toSourceState := killClient client source.toSourceState } :=
  ⟨(Listeners.killClient_accounts h.toSourceOk client).ok, h.limit_eq, h.listeners_le, h.previous_le,
    h.reported_le⟩

def Inv (s : State) : Prop := ∀ id source, s.objects id = some source → CountOk source

theorem Inv.modify {s : State} (inv : Inv s) (id : ℕ) {f : SourceState → SourceState}
    (hf : ∀ source, CountOk source → CountOk (f source)) : Inv (s.modify id f) :=
  fun _ _ ↦ Heap.forall_modify inv fun source hsource ↦ hf source (inv id source hsource)

theorem Inv.moveClients {s : State} (inv : Inv s) (id dest : ℕ) :
    Inv (ListenerCount.moveClients id dest s) := by
  unfold ListenerCount.moveClients
  split
  · split
    · apply Inv.modify
      · exact inv.modify id fun source h ↦ report_ok (emptied_ok h) (Nat.zero_le _)
      · exact fun target h ↦ receive_ok h _
    · exact inv
  · exact inv

theorem step_inv (s : State) (event : Event) (inv : Inv s) : Inv (step s event) := by
  cases event with
  | reserve =>
    refine fun _ _ ↦ Heap.forall_alloc inv ⟨⟨rfl, fun _ ↦ rfl⟩, rfl, le_refl 0, ?_, ?_⟩
    · intro count hcount
      exact (Option.some.inj hcount).ge
    · exact fun count hcount ↦ nomatch hcount
  | configure id setting onDemand format =>
    exact inv.modify id fun source h ↦
      ⟨⟨h.listeners_eq, h.idle⟩, rfl, h.listeners_le, h.previous_le, h.reported_le⟩
  | init id => exact inv.modify id fun source h ↦ init_ok h
  | connect id client =>
    exact inv.modify id fun source h ↦
      ⟨⟨h.listeners_eq, h.idle⟩, h.limit_eq, h.listeners_le, h.previous_le, h.reported_le⟩
  | sourceMain id turn =>
    apply inv.modify id
    intro source h
    split
    · rename_i hactive
      exact iteration_ok h hactive turn
    · exact h
  | kill id client => exact inv.modify id fun source h ↦ kill_ok h client
  | stop id =>
    exact inv.modify id fun source h ↦
      ⟨⟨h.listeners_eq, h.idle⟩, h.limit_eq, h.listeners_le, h.previous_le, h.reported_le⟩
  | move id dest => exact inv.moveClients id dest
  | clear id => exact inv.modify id fun source _ ↦ clear_ok source
  | report id => exact inv.modify id fun source h ↦ report_ok h h.listeners_le
  | reportZero id => exact inv.modify id fun source h ↦ report_ok h (Nat.zero_le _)

theorem inv_run (events : List Event) : Inv (run step Heap.empty events) :=
  run_invariant step Inv step_inv events (fun _ _ h ↦ nomatch h)

/-! ## Admission -/

theorem iteration_listeners (turn : ℕ → Turn) (source : SourceState) :
    (iteration turn source).listeners =
      remaining turn source + (source.pendingTree.take
        (room source.maxListeners (remaining turn source) source.pendingTree)).length := by
  have hturn : (sourceTurn turn source.toSourceState).1.listeners = remaining turn source +
      (source.pendingTree.take
        (room source.maxListeners (remaining turn source) source.pendingTree)).length := by
    rw [Listeners.sourceTurn_listeners, Listeners.pendingLoop_eq]
    rfl
  unfold iteration
  extract_lets next
  split
  · exact hturn
  · exact hturn

/-- Listeners are added up to the limit at most. -/
theorem iteration_le (turn : ℕ → Turn) {source : SourceState} {most : ℕ}
    (hlimit : source.maxListeners = some most) :
    (iteration turn source).listeners ≤ max (remaining turn source) most := by
  rw [iteration_listeners, hlimit]
  simp only [room, List.length_take]
  omega

theorem limit_of_nonneg {setting : ℤ} (h : 0 ≤ setting) :
    ∃ most : ℕ, limit setting = some most ∧ (most : ℤ) ≤ setting := by
  have hlimited : setting ≠ -1 := by omega
  refine ⟨(setting % 2 ^ 64).toNat, ?_, by omega⟩
  rw [limit, if_neg hlimited]

/-- In every run the count of a source is the size of its client tree, and its peak is at least every
count reported since the source was cleared. An iteration takes pending listeners up to
`max_listeners` at most, unless that is negative. -/
theorem listener_count (events : List Event) (id : ℕ) (source : SourceState)
    (hsource : (run step Heap.empty events).objects id = some source) :
    source.listeners = source.clientTree.length ∧
    (∀ turn, 0 ≤ source.setting →
      ((iteration turn source).listeners : ℤ) ≤ max (remaining turn source : ℤ) source.setting) ∧
    ∀ count ∈ source.reported, count ≤ source.peakListeners := by
  have h := inv_run events id source hsource
  refine ⟨h.listeners_eq, ?_, h.reported_le⟩
  intro turn hsetting
  obtain ⟨most, hmost, hle⟩ := limit_of_nonneg hsetting
  have hadmitted := iteration_le turn (h.limit_eq.trans hmost)
  omega

def exampleTurn : Turn := ⟨false, true, true, false, false⟩

/-- Two listeners come to a source that is set to take `setting` of them. -/
def exampleAdmission (setting : ℤ) : List Event :=
  [.reserve, .configure 0 setting false (some 1), .init 0, .connect 0 7, .connect 0 8]

def exampleSource (setting : ℤ) : SourceState :=
  { clientTree := []
    pendingTree := [⟨7, 0, true, false⟩, ⟨8, 0, true, false⟩]
    listeners := 0
    prevListeners := none
    maxListeners := limit setting
    running := true
    onDemand := false
    format := some 1
    active := true
    setting := setting
    peakListeners := 0
    reported := [0] }

theorem exampleAdmission_objects (setting : ℤ) :
    (run step Heap.empty (exampleAdmission setting)).objects 0 = some (exampleSource setting) :=
  rfl

/-- With a limit of one, one of the two is taken. -/
theorem listener_count_admission :
    (iteration (fun _ ↦ exampleTurn) (exampleSource 1)).listeners = 1 ∧
    (exampleSource 1).listeners = (exampleSource 1).clientTree.length ∧
    ((iteration (fun _ ↦ exampleTurn) (exampleSource 1)).listeners : ℤ) ≤ max (0 : ℤ) 1 := by
  have h := listener_count (exampleAdmission 1) 0 (exampleSource 1) (exampleAdmission_objects 1)
  exact ⟨by decide +kernel, h.1, h.2.1 (fun _ ↦ exampleTurn) (by decide)⟩

/-- A `max_listeners` of `-2` is read as a very large limit. -/
theorem listener_count_above_negative :
    ∃ events source, (run step Heap.empty events).objects 0 = some source ∧ source.setting ≠ -1 ∧
      ∃ turn, remaining turn source < (iteration turn source).listeners ∧
        source.setting < (iteration turn source).listeners := by
  refine ⟨exampleAdmission (-2), exampleSource (-2), exampleAdmission_objects (-2), by decide,
    fun _ ↦ exampleTurn, ?_⟩
  decide +kernel

end Icecast.Source.ListenerCount
