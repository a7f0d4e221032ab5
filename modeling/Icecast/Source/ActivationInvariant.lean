import Icecast.Source.Activation

/-!
# Sources are activated wholly or not at all

`global.sources` counts the sources between activation and shutdown, the tree holds the sources that
somebody has, and a start that fails leaves both as they were. Two paths are excepted: a source
client with a transfer encoding that is not supported, and a fallback file whose source cannot be
completed; both leave a source behind.
-/

namespace Icecast.Source.Activation

open Lib Lib.Machine

/-- Between a successful activation and the shutdown. -/
def Phase.active : Phase → Bool
  | .ready | .running => true
  | _ => false

def weight (source : SourceState) : ℤ := if source.phase.active then 1 else 0

def activeSources (s : State) : ℤ := s.sources.total weight

/-- What `connection_complete_source` asks for. -/
def Completes (server : Server) (pluginFails : Bool) (parser : Parser) (s : State) : Prop :=
  s.globalSources < server.sourceLimit ∧ (parser.contentType.isSome ∨ ¬parser.put) ∧ ¬pluginFails

instance (server : Server) (pluginFails : Bool) (parser : Parser) (s : State) :
    Decidable (Completes server pluginFails parser s) :=
  inferInstanceAs (Decidable (_ ∧ _))

theorem formatGetType_ne_error (contentType : String) : formatGetType contentType ≠ .error := by
  unfold formatGetType
  split
  · simp
  · split <;> simp

theorem complete_of_completes {server : Server} {pluginFails : Bool} {parser : Parser} {s : State}
    (h : Completes server pluginFails parser s) :
    connectionCompleteSource server pluginFails parser s =
      .ok { s with globalSources := s.globalSources + 1 } := by
  obtain ⟨hlimit, htype, hplugin⟩ := h
  unfold connectionCompleteSource
  rw [if_pos hlimit]
  split
  · rename_i herror
    obtain ⟨contentType, -, hcontent⟩ := Option.map_eq_some_iff.mp herror
    exact absurd hcontent (formatGetType_ne_error contentType)
  · rename_i hnone hput
    simp only [Option.map_eq_none_iff] at hnone
    simp [hnone, hput] at htype
  · rw [if_neg hplugin]

theorem complete_of_not_completes {server : Server} {pluginFails : Bool} {parser : Parser}
    {s : State} (h : ¬Completes server pluginFails parser s) :
    ∃ error, connectionCompleteSource server pluginFails parser s = .error error := by
  unfold connectionCompleteSource
  split
  · rename_i hlimit
    split
    · exact ⟨_, rfl⟩
    · exact ⟨_, rfl⟩
    · rename_i hnone
      split
      · exact ⟨_, rfl⟩
      · rename_i hplugin
        refine absurd ⟨hlimit, ?_, hplugin⟩ h
        by_contra hmissing
        simp only [not_or, not_not, Option.not_isSome_iff_eq_none] at hmissing
        exact hnone (by simp [hmissing.1]) hmissing.2
  · exact ⟨_, rfl⟩

/-- The two paths that leave a source behind are not taken. -/
def CleansUp (server : Server) (s : State) : Event → Prop
  | .complete id pluginFails =>
    match phaseOf s id with
    | some (.starting request) => Completes server pluginFails request.parser s →
      request.shoutcast = true ∨ encodingSupported server request = true
    | some (.fallback parser) => Completes server pluginFails parser s
    | _ => True
  | _ => True

/-! ## The invariant -/

structure Inv (server : Server) (s : State) : Prop where
  count : s.globalSources = activeSources s
  limit : s.globalSources ≤ server.sourceLimit
  tree : ∀ id, id ∈ s.sourceTree ↔ (s.sources.objects id).isSome
  nodup : s.sourceTree.Nodup
  owned : ∀ id source, s.sources.objects id = some source → source.phase ≠ .abandoned

theorem inv_start {server : Server} (hlimit : 0 ≤ server.sourceLimit) : Inv server start :=
  ⟨rfl, hlimit, by simp [start, Heap.empty], List.nodup_nil, by simp [start, Heap.empty]⟩

variable {server : Server} {s : State} {id : ℕ} {source : SourceState}

theorem Inv.next_not_mem (inv : Inv server s) : s.sources.next ∉ s.sourceTree := by
  rw [inv.tree, s.sources.fresh _ (Nat.le_refl _)]
  simp

theorem Inv.sourceReserve (inv : Inv server s) (mount : String) {phase : Phase} (isRelay : Bool)
    (hactive : phase.active = false) (howned : phase ≠ .abandoned) :
    Inv server (Activation.sourceReserve mount phase isRelay s) := by
  unfold Activation.sourceReserve
  split
  · exact inv
  · constructor
    · simp only [activeSources, Heap.total_alloc, weight, hactive, inv.count]
      simp
    · exact inv.limit
    · intro other
      rw [List.mem_append, List.mem_singleton, inv.tree, ← Heap.mem_live, ← Heap.mem_live,
        Heap.live_alloc, Finset.mem_insert]
      exact or_comm
    · apply List.Nodup.append inv.nodup (List.nodup_singleton _)
      simpa using inv.next_not_mem
    · exact fun _ _ ↦ Heap.forall_alloc inv.owned howned

theorem Inv.sourceFreeSource (inv : Inv server s) (hsource : s.sources.objects id = some source)
    (hactive : source.phase.active = false) : Inv server (Activation.sourceFreeSource id s) := by
  constructor
  · simp only [Activation.sourceFreeSource, activeSources, Heap.total_free weight hsource, weight,
      hactive, inv.count]
    simp
  · exact inv.limit
  · intro other
    simp only [Activation.sourceFreeSource]
    rw [inv.nodup.mem_erase_iff, inv.tree, ← Heap.mem_live, ← Heap.mem_live, Heap.live_free,
      Finset.mem_erase]
  · exact inv.nodup.erase id
  · exact fun _ _ ↦ Heap.forall_free inv.owned

/-- A change of phase with its change of the counter. -/
theorem Inv.goTo (inv : Inv server s) (hsource : s.sources.objects id = some source) {phase : Phase}
    {count : ℤ} (hcount : count = s.globalSources - weight source + weight (setPhase phase source))
    (hlimit : count ≤ server.sourceLimit) (howned : phase ≠ .abandoned) :
    Inv server (Activation.goTo id phase { s with globalSources := count }) := by
  constructor
  · simp only [Activation.goTo, activeSources, Heap.total_modify weight _ _ hsource, hcount,
      inv.count]
  · exact hlimit
  · intro other
    simp only [Activation.goTo]
    rw [inv.tree, ← Heap.mem_live, ← Heap.mem_live, Heap.live_modify]
  · exact inv.nodup
  · exact fun _ _ ↦ Heap.forall_modify inv.owned fun _ _ ↦ howned

theorem phaseOf_eq_some {phase : Phase} (h : phaseOf s id = some phase) :
    ∃ source, s.sources.objects id = some source ∧ source.phase = phase :=
  Option.map_eq_some_iff.mp h

/-- A phase that is not counted is left for one that is not counted either. -/
theorem Inv.goTo_inactive (inv : Inv server s) (hsource : s.sources.objects id = some source)
    {phase : Phase} (hbefore : source.phase.active = false) (hafter : phase.active = false)
    (howned : phase ≠ .abandoned) : Inv server (Activation.goTo id phase s) := by
  have hcount : s.globalSources =
      s.globalSources - weight source + weight (setPhase phase source) := by
    simp [weight, setPhase, hbefore, hafter]
  exact inv.goTo hsource hcount inv.limit howned

theorem Inv.activate (inv : Inv server s) (hsource : s.sources.objects id = some source)
    {phase : Phase}
    (hlimit : s.globalSources < server.sourceLimit) (hbefore : source.phase.active = false)
    (hafter : phase.active = true) (howned : phase ≠ .abandoned) :
    Inv server (Activation.goTo id phase { s with globalSources := s.globalSources + 1 }) := by
  apply inv.goTo hsource _ hlimit howned
  simp [weight, setPhase, hbefore, hafter]

theorem Inv.deactivate (inv : Inv server s) (hsource : s.sources.objects id = some source)
    {phase : Phase}
    (hbefore : source.phase.active = true) (hafter : phase.active = false)
    (howned : phase ≠ .abandoned) :
    Inv server (Activation.goTo id phase { s with globalSources := s.globalSources - 1 }) := by
  have hlimit := inv.limit
  apply inv.goTo hsource _ (by omega) howned
  simp [weight, setPhase, hbefore, hafter]

theorem Inv.sourceStartup (inv : Inv server s) {request : SourceRequest} (pluginFails : Bool)
    (hsource : s.sources.objects id = some source) (hphase : source.phase = .starting request)
    (hclean : Completes server pluginFails request.parser s →
      request.shoutcast = true ∨ encodingSupported server request = true) :
    Inv server (Activation.sourceStartup server pluginFails id request s) := by
  have hbefore : source.phase.active = false := by rw [hphase]; rfl
  unfold Activation.sourceStartup
  by_cases hcompletes : Completes server pluginFails request.parser s
  · have hready : (request.shoutcast || encodingSupported server request) = true := by
      simpa using hclean hcompletes
    rw [complete_of_completes hcompletes]
    simp only [hready, if_true]
    exact inv.activate hsource hcompletes.1 hbefore rfl (by simp)
  · obtain ⟨error, herror⟩ := complete_of_not_completes hcompletes
    rw [herror]
    exact inv.goTo_inactive hsource hbefore rfl (by simp)

theorem Inv.sourceFallbackFile (inv : Inv server s) {parser : Parser} (pluginFails : Bool)
    (hsource : s.sources.objects id = some source) (hphase : source.phase = .fallback parser)
    (hcompletes : Completes server pluginFails parser s) :
    Inv server (Activation.sourceFallbackFile server pluginFails id parser s) := by
  unfold Activation.sourceFallbackFile
  rw [complete_of_completes hcompletes]
  exact inv.activate hsource hcompletes.1 (by rw [hphase]; rfl) rfl (by simp)

theorem Inv.startRelayStream (inv : Inv server s) (pluginFails : Bool) (connection : Option Parser)
    (hsource : s.sources.objects id = some source) (hphase : source.phase = .relay) :
    Inv server (Activation.startRelayStream server pluginFails id connection s) := by
  unfold Activation.startRelayStream
  split
  · exact inv
  · rename_i parser
    by_cases hcompletes : Completes server pluginFails parser s
    · rw [complete_of_completes hcompletes]
      exact inv.activate hsource hcompletes.1 (by rw [hphase]; rfl) rfl (by simp)
    · obtain ⟨error, herror⟩ := complete_of_not_completes hcompletes
      rw [herror]
      exact inv

theorem Inv.sourceClientCallback (inv : Inv server s) (conError : Bool)
    (hsource : s.sources.objects id = some source) (hphase : source.phase = .ready) :
    Inv server (Activation.sourceClientCallback conError id s) := by
  have hactive : source.phase.active = true := by rw [hphase]; rfl
  unfold Activation.sourceClientCallback
  split
  · exact inv.deactivate hsource hactive rfl (by simp)
  · have hcount : s.globalSources =
        s.globalSources - weight source + weight (setPhase .running source) := by
      simp [weight, setPhase, hphase, Phase.active]
    exact inv.goTo hsource hcount inv.limit (by simp)

theorem Inv.sourceShutdown (inv : Inv server s) (isRelay : Bool)
    (hsource : s.sources.objects id = some source) (hphase : source.phase = .running) :
    Inv server (Activation.sourceShutdown id isRelay s) := by
  have hactive : source.phase.active = true := by rw [hphase]; rfl
  cases isRelay with
  | true => exact inv.deactivate hsource hactive rfl (by simp)
  | false => exact inv.deactivate hsource hactive rfl (by simp)

theorem Inv.free_of_phase (inv : Inv server s) {phase : Phase} (hactive : phase.active = false) :
    Inv server (if phaseOf s id = some phase then Activation.sourceFreeSource id s else s) := by
  split
  · rename_i h
    obtain ⟨source, hsource, hphase⟩ := phaseOf_eq_some h
    exact inv.sourceFreeSource hsource (by rw [hphase]; exact hactive)
  · exact inv

theorem step_inv (server : Server) (s : State) (event : Event) (inv : Inv server s)
    (hclean : CleansUp server s event) : Inv server (step server s event) := by
  cases event with
  | startup mount request => exact inv.sourceReserve mount false rfl (by simp)
  | fallbackFile mount opens contentType =>
    simp only [step]
    split
    · exact inv.sourceReserve mount false rfl (by simp)
    · exact inv
  | complete id pluginFails =>
    simp only [step]
    simp only [CleansUp] at hclean
    split
    · rename_i request h
      rw [h] at hclean
      obtain ⟨source, hsource, hphase⟩ := phaseOf_eq_some h
      exact inv.sourceStartup pluginFails hsource hphase hclean
    · rename_i parser h
      rw [h] at hclean
      obtain ⟨source, hsource, hphase⟩ := phaseOf_eq_some h
      exact inv.sourceFallbackFile pluginFails hsource hphase hclean
    · exact inv
  | cleanup id => exact inv.free_of_phase rfl
  | callback id conError =>
    simp only [step]
    split
    · rename_i h
      obtain ⟨source, hsource, hphase⟩ := phaseOf_eq_some h
      exact inv.sourceClientCallback conError hsource hphase
    · exact inv
  | shutdown id =>
    simp only [step]
    split
    · rename_i source hsource
      split
      · rename_i hphase
        exact inv.sourceShutdown source.isRelay hsource hphase
      · exact inv
    · exact inv
  | free id => exact inv.free_of_phase rfl
  | relayReserve mount => exact inv.sourceReserve mount true rfl (by simp)
  | relayStart id connection pluginFails =>
    simp only [step]
    split
    · rename_i h
      obtain ⟨source, hsource, hphase⟩ := phaseOf_eq_some h
      exact inv.startRelayStream pluginFails connection hsource hphase
    · exact inv
  | relayFree id => exact inv.free_of_phase rfl

/-! ## One attempt -/

/-- A start with everything that may happen on its way. -/
inductive Attempt where
  | client (mount : String) (request : SourceRequest) (pluginFails conError : Bool)
  | fallbackFile (mount : String) (opens : Bool) (contentType : String) (pluginFails : Bool)
  | relay (id : ℕ) (connection : Option Parser) (pluginFails : Bool)

/-- The steps of an attempt, where `next` is the number of a source it may reserve. What does not
apply in the phase reached is skipped. -/
def Attempt.events (next : ℕ) : Attempt → List Event
  | .client mount request pluginFails conError =>
    [.startup mount request, .complete next pluginFails, .callback next conError, .cleanup next]
  | .fallbackFile mount opens contentType pluginFails =>
    [.fallbackFile mount opens contentType, .complete next pluginFails]
  | .relay id connection pluginFails => [.relayStart id connection pluginFails]

def Attempt.target (next : ℕ) : Attempt → ℕ
  | .client _ _ _ _ | .fallbackFile _ _ _ _ => next
  | .relay id _ _ => id

def Started (s : State) (id : ℕ) : Prop := ∃ phase, phaseOf s id = some phase ∧ phase.active = true

/-- The counter and the tree are as they were. -/
def Restored (before after : State) : Prop :=
  after.globalSources = before.globalSources ∧ after.sourceTree = before.sourceTree

theorem phaseOf_next (s : State) : phaseOf s s.sources.next = none := by
  rw [phaseOf, s.sources.fresh _ (Nat.le_refl _), Option.map_none]

theorem phaseOf_goTo {old : Phase} (h : phaseOf s id = some old) (phase : Phase) :
    phaseOf (goTo id phase s) id = some phase := by
  obtain ⟨source, hsource, -⟩ := phaseOf_eq_some h
  simp [phaseOf, goTo, hsource, setPhase]

theorem phaseOf_callback_error (h : phaseOf s id = some .ready) :
    phaseOf (sourceClientCallback true id s) id = some .failed := by
  obtain ⟨source, hsource, -⟩ := phaseOf_eq_some h
  simp [phaseOf, sourceClientCallback, goTo, hsource, setPhase]

/-- Either the mount is in use, or there is a new source in the phase given. -/
theorem sourceReserve_cases (mount : String) (phase : Phase) (isRelay : Bool) (s : State) :
    sourceReserve mount phase isRelay s = s ∨
      (phaseOf (sourceReserve mount phase isRelay s) s.sources.next = some phase ∧
        (sourceReserve mount phase isRelay s).globalSources = s.globalSources ∧
        (sourceReserve mount phase isRelay s).sourceTree = s.sourceTree ++ [s.sources.next]) := by
  unfold sourceReserve
  split
  · exact Or.inl rfl
  · exact Or.inr ⟨by simp [phaseOf], rfl, rfl⟩

theorem erase_next (inv : Inv server s) :
    (s.sourceTree ++ [s.sources.next]).erase s.sources.next = s.sourceTree := by
  rw [List.erase_append_right _ inv.next_not_mem, List.erase_cons_head, List.append_nil]

theorem step_callback_of_ready (conError : Bool) (h : phaseOf s id = some .ready) :
    step server s (.callback id conError) = sourceClientCallback conError id s :=
  if_pos h

theorem step_callback_of_ne (conError : Bool) (h : phaseOf s id ≠ some .ready) :
    step server s (.callback id conError) = s :=
  if_neg h

theorem step_cleanup_of_failed (h : phaseOf s id = some .failed) :
    step server s (.cleanup id) = sourceFreeSource id s :=
  if_pos h

theorem step_cleanup_of_ne (h : phaseOf s id ≠ some .failed) : step server s (.cleanup id) = s :=
  if_neg h

/-- From a new source, the rest of `source_startup` up to the end of the attempt. -/
theorem startup_rest (inv : Inv server s) {reserved : State} {request : SourceRequest}
    (pluginFails conError : Bool)
    (hphase : phaseOf reserved s.sources.next = some (.starting request))
    (hcount : reserved.globalSources = s.globalSources)
    (htree : reserved.sourceTree = s.sourceTree ++ [s.sources.next])
    (hclean : CleansUp server reserved (.complete s.sources.next pluginFails)) {after : State}
    (hafter : after = run (step server) reserved
      [.complete s.sources.next pluginFails, .callback s.sources.next conError,
        .cleanup s.sources.next]) :
    Started after s.sources.next ∨ Restored s after := by
  have hfreed := erase_next inv
  rw [← htree] at hfreed
  simp only [CleansUp, hphase] at hclean
  by_cases hcompletes : Completes server pluginFails request.parser reserved
  · have hready : (request.shoutcast || encodingSupported server request) = true := by
      simpa using hclean hcompletes
    have hcomplete : step server reserved (.complete s.sources.next pluginFails) =
        goTo s.sources.next .ready
          { reserved with globalSources := reserved.globalSources + 1 } := by
      simp only [step, hphase, sourceStartup, complete_of_completes hcompletes, hready, if_true]
    have hactivated : phaseOf (goTo s.sources.next .ready
        { reserved with globalSources := reserved.globalSources + 1 }) s.sources.next =
          some .ready :=
      phaseOf_goTo (by exact hphase) .ready
    rw [run_cons, hcomplete, run_cons, step_callback_of_ready conError hactivated] at hafter
    cases conError with
    | true =>
      rw [run_cons, step_cleanup_of_failed (phaseOf_callback_error hactivated), run_nil] at hafter
      rw [hafter]
      exact Or.inr ⟨by simp [sourceFreeSource, sourceClientCallback, goTo, hcount], hfreed⟩
    | false =>
      have hrunning := phaseOf_goTo hactivated .running
      rw [sourceClientCallback, if_neg (by decide), run_cons,
        step_cleanup_of_ne (by simp [hrunning]), run_nil] at hafter
      rw [hafter]
      exact Or.inl ⟨.running, hrunning, rfl⟩
  · obtain ⟨error, herror⟩ := complete_of_not_completes hcompletes
    have hcomplete : step server reserved (.complete s.sources.next pluginFails) =
        goTo s.sources.next .failed reserved := by
      simp only [step, hphase, sourceStartup, herror]
    have hfailed := phaseOf_goTo hphase .failed
    rw [run_cons, hcomplete, run_cons, step_callback_of_ne conError (by simp [hfailed]), run_cons,
      step_cleanup_of_failed hfailed, run_nil] at hafter
    rw [hafter]
    exact Or.inr ⟨by simp [sourceFreeSource, goTo, hcount], hfreed⟩

theorem step_complete_next (pluginFails : Bool) :
    step server s (.complete s.sources.next pluginFails) = s := by
  simp only [step, phaseOf_next]

theorem client_attempt (inv : Inv server s) (mount : String) (request : SourceRequest)
    (pluginFails conError : Bool) {after : State}
    (hafter : after = run (step server) s
      ((Attempt.client mount request pluginFails conError).events s.sources.next))
    (hclean : Guarded (step server) (CleansUp server) s
      ((Attempt.client mount request pluginFails conError).events s.sources.next)) :
    Started after s.sources.next ∨ Restored s after := by
  rcases sourceReserve_cases mount (.starting request) false s with hused | ⟨hphase, hcount, htree⟩
  · have hreserve : step server s (.startup mount request) = s := hused
    have hcallback : step server s (.callback s.sources.next conError) = s :=
      step_callback_of_ne conError (by simp [phaseOf_next])
    have hcleanup : step server s (.cleanup s.sources.next) = s :=
      step_cleanup_of_ne (by simp [phaseOf_next])
    simp only [Attempt.events, run_cons, run_nil, hreserve, step_complete_next, hcallback,
      hcleanup] at hafter
    rw [hafter]
    exact Or.inr ⟨rfl, rfl⟩
  · exact startup_rest inv pluginFails conError hphase hcount htree hclean.2.1 hafter

theorem fallbackFile_attempt (mount : String) (opens : Bool) (contentType : String)
    (pluginFails : Bool) {after : State}
    (hafter : after = run (step server) s
      ((Attempt.fallbackFile mount opens contentType pluginFails).events s.sources.next))
    (hclean : Guarded (step server) (CleansUp server) s
      ((Attempt.fallbackFile mount opens contentType pluginFails).events s.sources.next)) :
    Started after s.sources.next ∨ Restored s after := by
  have hunchanged : step server s (.fallbackFile mount opens contentType) = s →
      Started after s.sources.next ∨ Restored s after := by
    intro hsame
    simp only [Attempt.events, run_cons, run_nil, hsame, step_complete_next] at hafter
    rw [hafter]
    exact Or.inr ⟨rfl, rfl⟩
  by_cases hopen : mount.toList.head? = some '/' ∧ opens = true
  · have hreserve : step server s (.fallbackFile mount opens contentType) =
        sourceReserve mount (.fallback ⟨some contentType, false⟩) false s := if_pos hopen
    rcases sourceReserve_cases mount (.fallback ⟨some contentType, false⟩) false s with
      hused | ⟨hphase, hcount, htree⟩
    · exact hunchanged (hreserve.trans hused)
    · have hcompletes := hclean.2.1
      simp only [CleansUp, hreserve, hphase] at hcompletes
      simp only [Attempt.events, run_cons, run_nil, hreserve] at hafter
      left
      rw [hafter]
      simp only [step, hphase, sourceFallbackFile, complete_of_completes hcompletes]
      exact ⟨.running, phaseOf_goTo (by exact hphase) .running, rfl⟩
  · exact hunchanged (if_neg hopen)

theorem relay_attempt (id : ℕ) (connection : Option Parser) (pluginFails : Bool) {after : State}
    (hafter : after = step server s (.relayStart id connection pluginFails)) :
    Started after id ∨ Restored s after := by
  rw [hafter]
  by_cases hrelay : phaseOf s id = some .relay
  · simp only [step, if_pos hrelay, startRelayStream]
    cases connection with
    | none => exact Or.inr ⟨rfl, rfl⟩
    | some parser =>
      by_cases hcompletes : Completes server pluginFails parser s
      · simp only [complete_of_completes hcompletes]
        exact Or.inl ⟨.running, phaseOf_goTo (by exact hrelay) .running, rfl⟩
      · obtain ⟨error, herror⟩ := complete_of_not_completes hcompletes
        simp only [herror]
        exact Or.inr ⟨rfl, rfl⟩
  · simp only [step, if_neg hrelay]
    exact Or.inr ⟨rfl, rfl⟩

/-- An attempt ends with its source activated, or with counter and tree as before. -/
theorem attempt_all_or_nothing (inv : Inv server s) (attempt : Attempt)
    (hclean : Guarded (step server) (CleansUp server) s (attempt.events s.sources.next)) :
    Started (run (step server) s (attempt.events s.sources.next)) (attempt.target s.sources.next) ∨
      Restored s (run (step server) s (attempt.events s.sources.next)) := by
  cases attempt with
  | client mount request pluginFails conError =>
    exact client_attempt inv mount request pluginFails conError rfl hclean
  | fallbackFile mount opens contentType pluginFails =>
    exact fallbackFile_attempt mount opens contentType pluginFails rfl hclean
  | relay id connection pluginFails => exact relay_attempt id connection pluginFails rfl

/-- In every run in which neither of the two paths is taken that leave a source behind: the counter
is the number of activated sources and within the limit, the tree holds exactly the sources that
somebody has, and a further attempt either activates its source or changes neither counter nor
tree. -/
theorem source_activation (server : Server) (hlimit : 0 ≤ server.sourceLimit) (events : List Event)
    (hclean : Guarded (step server) (CleansUp server) start events) {s : State}
    (hs : s = run (step server) start events) :
    s.globalSources = activeSources s ∧ s.globalSources ≤ server.sourceLimit ∧
    (∀ id, id ∈ s.sourceTree ↔ ∃ source, s.sources.objects id = some source ∧
      source.phase ≠ .abandoned) ∧
    ∀ attempt : Attempt, Guarded (step server) (CleansUp server) s (attempt.events s.sources.next) →
      Started (run (step server) s (attempt.events s.sources.next))
        (attempt.target s.sources.next) ∨
        Restored s (run (step server) s (attempt.events s.sources.next)) := by
  have inv : Inv server s := by
    rw [hs]
    exact run_invariant_of_guarded (step server) (Inv server) (step_inv server) events
      (inv_start hlimit)
      hclean
  refine ⟨inv.count, inv.limit, ?_, fun attempt ↦ attempt_all_or_nothing inv attempt⟩
  intro id
  rw [inv.tree, Option.isSome_iff_exists]
  constructor
  · rintro ⟨source, hsource⟩
    exact ⟨source, hsource, inv.owned id source hsource⟩
  · rintro ⟨source, hsource, -⟩
    exact ⟨source, hsource⟩

def exampleServer : Server := ⟨2, (· = "chunked")⟩

def exampleRequest (transferEncoding : String) : SourceRequest :=
  ⟨⟨some "audio/ogg", true⟩, false, some transferEncoding⟩

theorem source_activation_chunked :
    (run (step exampleServer) start
      [.startup "/live" (exampleRequest "chunked"), .complete 0 false,
        .callback 0 false]).globalSources =
        activeSources (run (step exampleServer) start
          [.startup "/live" (exampleRequest "chunked"), .complete 0 false, .callback 0 false]) := by
  have h := source_activation exampleServer (by decide)
    [.startup "/live" (exampleRequest "chunked"), .complete 0 false, .callback 0 false]
    ⟨trivial, fun _ ↦ Or.inr (by decide +kernel), trivial, trivial⟩ rfl
  exact h.1

/-- After a `PUT` with an encoding that is not supported the counter counts a source that was not
started, and its mount stays reserved. -/
theorem source_left_behind :
    ¬∀ (server : Server) (attempt : Attempt), 0 ≤ server.sourceLimit →
      Started (run (step server) start (attempt.events 0)) (attempt.target 0) ∨
        Restored start (run (step server) start (attempt.events 0)) := by
  intro hall
  rcases hall exampleServer (.client "/live" (exampleRequest "gzip") false false) (by decide) with
    ⟨phase, hphase, hactive⟩ | hrestored
  · have habandoned : phaseOf (run (step exampleServer) start
        ((Attempt.client "/live" (exampleRequest "gzip") false false).events 0)) 0 =
          some .abandoned := by
      decide +kernel
    rw [← Option.some.inj (habandoned.symm.trans hphase)] at hactive
    exact absurd hactive (by decide)
  · exact absurd hrestored.1 (by decide +kernel)

end Icecast.Source.Activation
