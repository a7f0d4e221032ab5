import Icecast.Source.Mounts
import Icecast.Stats.Events

/-!
# The stats document

`_dump_stats_to_doc` (`stats.c`) goes through the mounts of the stats tree and looks each of them up
twice more, in the tree of all sources and in the configuration. It uses what it gets without a
check. The three tables belong to different threads: sources are reserved and freed at any time, the
stats tree follows when the events in its queue are processed, and the configuration can be read
again.

Two kinds of mount are in the stats tree without a source of their own: virtual ones, which
`source_recheck_mounts` (`source.c`) shows while their fallback is there, and those whose source has
gone before their stats.
-/

namespace Icecast.Stats.Dump

open Lib Lib.Machine Source.Mounts

/-- `ice_config_t` with what the stats of a mount are made of. -/
structure ServerConfig extends Config where
  hostname : String
  port : ℤ

/-- `applied` are the stats that `source_apply_mount` reports for a source. -/
structure Details where
  hasClient : Bool
  applied : List (String × Option String)
  listeners : ℕ
  hidden : Bool
  maxListeners : ℤ
  deriving DecidableEq

abbrev StatsSource := SourceState Details

structure State where
  stats : StatsState
  queue : List Event
  sources : List StatsSource
  config : ServerConfig
  crashed : Bool

def start (config : ServerConfig) : State := ⟨⟨.empty, .empty⟩, [], [], config, false⟩

/-! ## The document -/

/-- The pointer that is `NULL` when it is used. -/
inductive Fault where
  | nullSource
  | nullMount
  deriving DecidableEq

structure DumpedMount where
  mount : String
  values : List (String × String)
  settings : MountInfo

def dumpMount (s : State) (mount : String) (snode : SourceStats) : Except Fault DumpedMount :=
  match sourceFindMountRaw s.sources mount with
  | none => .error .nullSource
  | some _ =>
    match configFindMount s.config.toConfig mount with
    | none => .error .nullMount
    | some settings =>
      .ok ⟨mount, snode.statsTree.entries.map fun entry ↦ (entry.1, entry.2.value), settings⟩

/-- The mounts that are asked for; with `hidden` set, also those that are not public. -/
def listed (showMount : Option String) (hidden : Bool) (s : State) : List (String × SourceStats) :=
  s.stats.sourceTree.entries.filter fun entry ↦
    (hidden || !entry.2.hidden) && showMount.all (· = entry.1)

def dumpStatsToDoc (showMount : Option String) (hidden : Bool) (s : State) :
    Except Fault (List DumpedMount) :=
  (listed showMount hidden s).mapM fun entry ↦ dumpMount s entry.1 entry.2

/-- `stats_get_xml`; the listeners are added for a single mount that has been found. -/
def statsGetXml (showMount : Option String) (hidden : Bool) (s : State) :
    Except Fault (List DumpedMount) := do
  let doc ← dumpStatsToDoc showMount hidden s
  match showMount, doc with
  | some mount, _ :: _ =>
    if (sourceFindMountRaw s.sources mount).isNone then .error .nullSource else return doc
  | _, _ => return doc

/-! ## Who reports for a mount -/

/-- `source_update_settings` -/
def sourceUpdateSettings (config : ServerConfig) (source : StatsSource) : List Report :=
  let mount := some source.mount
  if source.running && !source.details.hasClient then [.eventHidden mount none true]
  else
    [.event mount (some "listenurl")
      (some ("http://" ++ config.hostname ++ ":" ++ toString config.port ++ source.mount))] ++
    source.details.applied.map (fun stat ↦ .event mount (some stat.1) stat.2) ++
    (if source.onDemand then
      [.event mount (some "on_demand") (some "1"),
        .event mount (some "listeners") (some (toString source.details.listeners))]
    else [.event mount (some "on_demand") none]) ++
    [.eventHidden mount none source.details.hidden,
      .event mount (some "max_listeners")
        (some (if source.details.maxListeners = -1 then "unlimited"
          else String.ofList ((toString source.details.maxListeners).toList.take 9)))]

/-- The stats of a mount that only its fallback stands for. -/
def virtualMount (config : ServerConfig) (name : String) (mount : MountInfo) : List Report :=
  [.eventHidden (some name) none mount.hidden,
    .event (some name) (some "listenurl")
      (some ("http://" ++ config.hostname ++ ":" ++ toString config.port ++ name)),
    .event (some name) (some "listeners") (some "0"),
    .event (some name) (some "max_listeners")
      (some (if mount.maxListeners < 0 then "unlimited" else toString mount.maxListeners))]

/-- What `source_recheck_mounts` reports for one `<mount>`. -/
def recheckMount (updateAll : Bool) (s : State) (mount : MountInfo) : List Report :=
  if mount.mounttype ≠ .normal then []
  else
    match mount.mountname with
    | none => [.event none none none]
    | some name =>
      match sourceFindMount s.config.toConfig s.sources name with
      | none => [.event (some name) none none]
      | some _ =>
        match sourceFindMountRaw s.sources name with
        | some source => sourceUpdateSettings s.config source
        | none => if updateAll then virtualMount s.config name mount else []

def queueReports (reports : List Report) (s : State) : State :=
  { s with queue := s.queue ++ reports.map Report.build }

/-- With `update_all`, mounts without a source are cleared from the stats tree first. -/
def sourceRecheckMounts (updateAll : Bool) (s : State) : State :=
  let s := if updateAll then
      { s with stats := statsClearVirtualMounts (s.sources.map (·.mount)) s.stats }
    else s
  queueReports (s.config.mounts.flatMap (recheckMount updateAll s)) s

/-! ## Steps -/

def statsThread (s : State) : State :=
  match s.queue with
  | [] => s
  | event :: queue =>
    match processEvent event s.stats with
    | none => { s with queue, crashed := true }
    | some (stats, _) => { s with stats, queue }

/-- `source_reserve` -/
def sourceReserve (mount : String) (details : Details) (s : State) : State :=
  if (sourceFindMountRaw s.sources mount).isSome then s
  else { s with sources := s.sources ++ [⟨mount, false, false, details⟩] }

/-- `source_free_source` -/
def sourceFreeSource (mount : String) (s : State) : State :=
  { s with sources := s.sources.filter (·.mount ≠ mount) }

def changeSource (mount : String) (running onDemand : Bool) (details : Details) (s : State) : State :=
  { s with
    sources := s.sources.map fun source ↦
      if source.mount = mount then ⟨mount, running, onDemand, details⟩ else source }

/-- Whoever reports a stat of a mount has the source that is reserved there; only the removal of
stats needs none. -/
def reportStat (report : Report) (s : State) : State :=
  match report.build.source with
  | none => queueReports [report] s
  | some mount =>
    if report.build.action = .remove ∨ (sourceFindMountRaw s.sources mount).isSome then
      queueReports [report] s
    else s

inductive Step where
  | reserve (mount : String) (details : Details)
  | change (mount : String) (running onDemand : Bool) (details : Details)
  | report (report : Report)
  | free (mount : String)
  | recheckMounts (updateAll : Bool)
  | statsThread
  | reload (config : ServerConfig)

def step (s : State) (action : Step) : State :=
  if s.crashed then s
  else
    match action with
    | .reserve mount details => sourceReserve mount details s
    | .change mount running onDemand details => changeSource mount running onDemand details s
    | .report report => reportStat report s
    | .free mount => sourceFreeSource mount s
    | .recheckMounts updateAll => sourceRecheckMounts updateAll s
    | .statsThread => statsThread s
    | .reload config => { s with config }

/-! ## Agreement of the tables -/

/-- There are no stats of the mount, and none are on their way. -/
def NoStats (s : State) (mount : String) : Prop :=
  (s.stats.sourceTree.find? mount).isNone ∧
    ∀ event ∈ s.queue, event.source = some mount → event.action = .remove

/-- A mount without a source of its own is not shown for its fallback. -/
def NoVirtualMounts (s : State) : Prop :=
  ∀ mount ∈ s.config.mounts, mount.mounttype = .normal → ∀ name ∈ mount.mountname,
    (sourceFindMount s.config.toConfig s.sources name).isSome →
      (sourceFindMountRaw s.sources name).isSome

/-- Sources are reserved for mounts that have settings, and keep them when the configuration is read
again; they are freed when their stats have gone; and there are no virtual mounts. -/
def Agreeing (s : State) : Step → Prop
  | .reserve mount _ => (configFindMount s.config.toConfig mount).isSome
  | .free mount => NoStats s mount
  | .recheckMounts updateAll => updateAll → NoVirtualMounts s
  | .reload config => ∀ source ∈ s.sources, (configFindMount config.toConfig source.mount).isSome
  | _ => True

instance (s : State) (mount : String) : Decidable (NoStats s mount) := by
  unfold NoStats
  infer_instance

instance (s : State) : Decidable (NoVirtualMounts s) := by
  unfold NoVirtualMounts
  infer_instance

instance (s : State) (action : Step) : Decidable (Agreeing s action) := by
  cases action <;> unfold Agreeing <;> infer_instance

/-- The mount has a source. -/
def Reserved (s : State) (mount : String) : Prop := (sourceFindMountRaw s.sources mount).isSome

structure Inv (s : State) : Prop where
  tree : ∀ mount, (s.stats.sourceTree.find? mount).isSome → Reserved s mount
  queue : ∀ event ∈ s.queue, ∀ mount, event.source = some mount → event.action ≠ .remove →
    Reserved s mount
  settings : ∀ source ∈ s.sources, (configFindMount s.config.toConfig source.mount).isSome

theorem reserved_of_mem {s : State} {source : StatsSource} (h : source ∈ s.sources) :
    Reserved s source.mount := by
  rw [Reserved, sourceFindMountRaw, List.find?_isSome]
  exact ⟨source, h, by simp⟩

/-! ## What the stats thread adds to the tree -/

theorem find?_processInSource {source mount : String} {snode : SourceStats} {event : Event}
    {stats : StatsState}
    (h : ((processInSource source snode event stats).1.sourceTree.find? mount).isSome) :
    mount = source ∨ (stats.sourceTree.find? mount).isSome := by
  have hset (snode : SourceStats)
      (h : ((stats.setSource source snode).sourceTree.find? mount).isSome) :
      mount = source ∨ (stats.sourceTree.find? mount).isSome := by
    rw [StatsState.setSource, OrderedMap.find?_insert] at h
    by_cases hmount : mount = source
    · exact Or.inl hmount
    · rw [if_neg hmount] at h
      exact Or.inr h
  unfold processInSource at h
  cases hname : event.name with
  | some name =>
    simp only [hname] at h
    split at h
    · split at h
      · exact Or.inr h
      · split at h
        · exact Or.inr h
        · exact hset _ h
    · split at h
      · exact hset _ h
      · exact hset _ h
  | none =>
    simp only [hname] at h
    split at h
    · exact hset _ h
    · rw [OrderedMap.find?_erase] at h
      split at h
      · cases h
      · exact Or.inr h
    · exact Or.inr h

/-- A mount gets into the tree by an event of its own that is not a removal. -/
theorem find?_processEvent {event event' : Event} {stats stats' : StatsState} {mount : String}
    (h : processEvent event stats = some (stats', event'))
    (hfound : (stats'.sourceTree.find? mount).isSome) :
    (stats.sourceTree.find? mount).isSome ∨
      event.source = some mount ∧ event.action ≠ .remove := by
  unfold processEvent at h
  cases hsource : event.source with
  | none =>
    simp only [hsource] at h
    left
    have hsame : stats'.sourceTree = stats.sourceTree := by
      unfold processGlobalEvent at h
      split at h
      · split at h
        · rw [← (Prod.mk.inj (Option.some.inj h)).1]
        · cases h
      · split at h
        · rw [← (Prod.mk.inj (Option.some.inj h)).1]
        · split at h
          · rw [← (Prod.mk.inj (Option.some.inj h)).1]
          · obtain ⟨value, -, hpair⟩ := Option.map_eq_some_iff.mp h
            rw [← (Prod.mk.inj hpair).1]
    rw [← hsame]
    exact hfound
  | some source =>
    simp only [hsource] at h
    have hstats : stats' = (processSourceEvent source event stats).1 := by
      rw [Option.some.inj h]
    rw [hstats] at hfound
    unfold processSourceEvent at hfound
    cases hsnode : stats.sourceTree.find? source with
    | some snode =>
      simp only [hsnode] at hfound
      rcases find?_processInSource hfound with rfl | hold
      · exact Or.inl (by rw [hsnode]; rfl)
      · exact Or.inl hold
    | none =>
      simp only [hsnode] at hfound
      split at hfound
      · exact Or.inl hfound
      · rename_i haction
        have hnew : mount = source ∨ (stats.sourceTree.find? mount).isSome := by
          rcases find?_processInSource hfound with heq | hset
          · exact Or.inl heq
          · rw [StatsState.setSource, OrderedMap.find?_insert] at hset
            by_cases hmount : mount = source
            · exact Or.inl hmount
            · rw [if_neg hmount] at hset
              exact Or.inr hset
        rcases hnew with rfl | hold
        · exact Or.inr ⟨rfl, haction⟩
        · exact Or.inl hold

/-! ## The steps -/

theorem Inv.statsThread {s : State} (h : Inv s) : Inv (statsThread s) := by
  unfold Dump.statsThread
  cases hqueue : s.queue with
  | nil => exact h
  | cons event queue =>
    have hrest : ∀ other ∈ queue, ∀ mount, other.source = some mount → other.action ≠ .remove →
        Reserved s mount := by
      intro other hother
      exact h.queue other (by simp [hqueue, hother])
    simp only
    cases hprocess : processEvent event s.stats with
    | none => exact ⟨h.tree, hrest, h.settings⟩
    | some result =>
      refine ⟨?_, hrest, h.settings⟩
      intro mount hfound
      rcases find?_processEvent hprocess hfound with hold | ⟨hsource, haction⟩
      · exact h.tree mount hold
      · exact h.queue event (by simp [hqueue]) mount hsource haction

/-- Reports for mounts that have a source, and removals, may be queued. -/
theorem Inv.queueReports {s : State} (h : Inv s) {reports : List Report}
    (hreports : ∀ report ∈ reports, ∀ mount, report.build.source = some mount →
      report.build.action ≠ .remove → Reserved s mount) : Inv (queueReports reports s) := by
  refine ⟨h.tree, ?_, h.settings⟩
  intro event hevent
  rcases List.mem_append.mp hevent with hold | hnew
  · exact h.queue event hold
  · obtain ⟨report, hreport, rfl⟩ := List.mem_map.mp hnew
    exact hreports report hreport

theorem Inv.reportStat {s : State} (h : Inv s) (report : Report) : Inv (reportStat report s) := by
  unfold Dump.reportStat
  cases hsource : report.build.source with
  | none =>
    apply h.queueReports
    intro other hother mount hmount
    rw [List.mem_singleton.mp hother, hsource] at hmount
    cases hmount
  | some mount =>
    simp only
    split
    · rename_i hallowed
      apply h.queueReports
      intro other hother mount' hmount haction
      rw [List.mem_singleton.mp hother] at hmount haction
      rw [hsource] at hmount
      rw [← Option.some.inj hmount]
      exact hallowed.resolve_left haction
    · exact h

theorem sourceUpdateSettings_source {config : ServerConfig} {source : StatsSource} {report : Report}
    (h : report ∈ sourceUpdateSettings config source) :
    report.build.source = some source.mount := by
  unfold sourceUpdateSettings at h
  simp only at h
  split at h
  · rw [List.mem_singleton.mp h]
    rfl
  · simp only [List.mem_append, List.mem_map] at h
    rcases h with ((h | ⟨stat, -, rfl⟩) | h) | h
    · rw [List.mem_singleton.mp h]
      rfl
    · rfl
    · split at h
      · simp only [List.mem_cons, List.not_mem_nil, or_false] at h
        rcases h with rfl | rfl <;> rfl
      · rw [List.mem_singleton.mp h]
        rfl
    · simp only [List.mem_cons, List.not_mem_nil, or_false] at h
      rcases h with rfl | rfl <;> rfl

/-- Without virtual mounts, what is reported in a recheck is about sources, or is a removal. -/
theorem recheckMount_reserved {s : State} {updateAll : Bool} {mount : MountInfo}
    (hmount : mount ∈ s.config.mounts) (hvirtual : updateAll → NoVirtualMounts s)
    {report : Report} (hreport : report ∈ recheckMount updateAll s mount) {name : String}
    (hsource : report.build.source = some name) (haction : report.build.action ≠ .remove) :
    Reserved s name := by
  unfold recheckMount at hreport
  split at hreport
  · cases hreport
  · rename_i htype
    split at hreport
    · rw [List.mem_singleton.mp hreport] at hsource
      cases hsource
    · rename_i mountname hname
      split at hreport
      · rw [List.mem_singleton.mp hreport] at haction
        exact absurd rfl haction
      · rename_i available havailable
        split at hreport
        · rename_i source hraw
          rw [sourceUpdateSettings_source hreport] at hsource
          rw [← Option.some.inj hsource]
          exact reserved_of_mem (sourceFindMountRaw_mem hraw).1
        · rename_i hraw
          split at hreport
          · rename_i hall
            have hown := hvirtual hall mount hmount (not_not.mp htype) mountname hname
              (by rw [havailable]; rfl)
            rw [hraw] at hown
            cases hown
          · cases hreport

theorem Inv.recheckAll {s : State} (h : Inv s) {updateAll : Bool}
    (hvirtual : updateAll → NoVirtualMounts s) :
    Inv (Dump.queueReports (s.config.mounts.flatMap (recheckMount updateAll s)) s) := by
  apply h.queueReports
  intro report hreport name hsource haction
  obtain ⟨mount, hmount, hin⟩ := List.mem_flatMap.mp hreport
  exact recheckMount_reserved hmount hvirtual hin hsource haction

theorem Inv.sourceRecheckMounts {s : State} (h : Inv s) {updateAll : Bool}
    (hvirtual : updateAll → NoVirtualMounts s) : Inv (sourceRecheckMounts updateAll s) := by
  cases updateAll with
  | false => exact h.recheckAll hvirtual
  | true =>
    have hcleared :
        Inv { s with stats := statsClearVirtualMounts (s.sources.map (·.mount)) s.stats } := by
      refine ⟨?_, h.queue, h.settings⟩
      intro mount hfound
      rw [statsClearVirtualMounts, OrderedMap.find?_keep] at hfound
      split at hfound
      · exact h.tree mount hfound
      · cases hfound
    exact hcleared.recheckAll hvirtual

theorem Inv.sourceReserve {s : State} (h : Inv s) {mount : String} (details : Details)
    (hsettings : (configFindMount s.config.toConfig mount).isSome) :
    Inv (sourceReserve mount details s) := by
  unfold Dump.sourceReserve
  split
  · exact h
  · have hmore (other : String) (hother : Reserved s other) : Reserved
        { s with sources := s.sources ++ [⟨mount, false, false, details⟩] } other := by
      rw [Reserved, sourceFindMountRaw, List.find?_append]
      rw [Reserved, sourceFindMountRaw] at hother
      rw [Option.isSome_or, hother]
      rfl
    refine ⟨?_, ?_, ?_⟩
    · intro other hfound
      exact hmore other (h.tree other hfound)
    · intro event hevent other hsource haction
      exact hmore other (h.queue event hevent other hsource haction)
    · intro source hsource
      rcases List.mem_append.mp hsource with hold | hnew
      · exact h.settings source hold
      · rw [List.mem_singleton.mp hnew]
        exact hsettings

theorem Inv.changeSource {s : State} (h : Inv s) (mount : String) (running onDemand : Bool)
    (details : Details) : Inv (changeSource mount running onDemand details s) := by
  have hkept (other : String) (hother : Reserved s other) :
      Reserved (Dump.changeSource mount running onDemand details s) other := by
    rw [Reserved, sourceFindMountRaw, List.find?_isSome] at hother
    obtain ⟨source, hsource, hmount⟩ := hother
    rw [Reserved, sourceFindMountRaw, List.find?_isSome]
    refine ⟨_, List.mem_map_of_mem hsource, ?_⟩
    split
    · rename_i hsame
      rwa [hsame] at hmount
    · exact hmount
  refine ⟨?_, ?_, ?_⟩
  · intro other hfound
    exact hkept other (h.tree other hfound)
  · intro event hevent other hsource haction
    exact hkept other (h.queue event hevent other hsource haction)
  · intro source hsource
    obtain ⟨old, hold, rfl⟩ := List.mem_map.mp hsource
    have hsettings := h.settings old hold
    split
    · rename_i hsame
      rwa [hsame] at hsettings
    · exact hsettings

theorem Inv.sourceFreeSource {s : State} (h : Inv s) {mount : String} (hnone : NoStats s mount) :
    Inv (sourceFreeSource mount s) := by
  have hother (other : String) (hne : other ≠ mount) (hreserved : Reserved s other) :
      Reserved (Dump.sourceFreeSource mount s) other := by
    rw [Reserved, sourceFindMountRaw, List.find?_isSome] at hreserved
    obtain ⟨source, hsource, hmount⟩ := hreserved
    rw [Reserved, sourceFindMountRaw, List.find?_isSome]
    refine ⟨source, List.mem_filter.mpr ⟨hsource, ?_⟩, hmount⟩
    simp only [decide_eq_true_eq] at hmount ⊢
    rw [hmount]
    exact hne
  refine ⟨?_, ?_, ?_⟩
  · intro other hfound
    refine hother other ?_ (h.tree other hfound)
    rintro rfl
    change (s.stats.sourceTree.find? other).isSome at hfound
    rw [Option.isNone_iff_eq_none.mp hnone.1] at hfound
    cases hfound
  · intro event hevent other hsource haction
    refine hother other ?_ (h.queue event hevent other hsource haction)
    rintro rfl
    exact haction (hnone.2 event hevent hsource)
  · intro source hsource
    exact h.settings source (List.mem_filter.mp hsource).1

theorem step_inv (s : State) (action : Step) (h : Inv s) (hagreeing : Agreeing s action) :
    Inv (step s action) := by
  unfold step
  split
  · exact h
  · cases action with
    | reserve mount details => exact h.sourceReserve details hagreeing
    | change mount running onDemand details => exact h.changeSource mount running onDemand details
    | report report => exact h.reportStat report
    | free mount => exact h.sourceFreeSource hagreeing
    | recheckMounts updateAll => exact h.sourceRecheckMounts hagreeing
    | statsThread => exact h.statsThread
    | reload config => exact ⟨h.tree, h.queue, hagreeing⟩

theorem inv_start (config : ServerConfig) : Inv (start config) := ⟨nofun, nofun, nofun⟩

/-! ## The result -/

/-- The document can be built, whatever is asked for. -/
def DumpSafe (s : State) : Prop :=
  ∀ showMount hidden, ∃ doc, statsGetXml showMount hidden s = .ok doc

theorem Inv.dumpMount {s : State} (h : Inv s) {mount : String} {snode : SourceStats}
    (hmem : (mount, snode) ∈ s.stats.sourceTree.entries) :
    ∃ doc, dumpMount s mount snode = .ok doc := by
  have hreserved := h.tree mount (by rw [OrderedMap.mem_entries_iff.mp hmem]; rfl)
  obtain ⟨source, hsource⟩ := Option.isSome_iff_exists.mp hreserved
  obtain ⟨hin, hmount⟩ := sourceFindMountRaw_mem hsource
  have hfound := h.settings source hin
  rw [hmount] at hfound
  obtain ⟨settings, hsettings⟩ := Option.isSome_iff_exists.mp hfound
  refine ⟨⟨mount, snode.statsTree.entries.map fun entry ↦ (entry.1, entry.2.value), settings⟩, ?_⟩
  simp only [Dump.dumpMount, hsource, hsettings]

theorem mapM_ok {α β ε : Type*} {f : α → Except ε β} {list : List α}
    (h : ∀ a ∈ list, ∃ b, f a = .ok b) : ∃ result, list.mapM f = .ok result := by
  induction list with
  | nil => exact ⟨[], rfl⟩
  | cons a list ih =>
    obtain ⟨b, hb⟩ := h a List.mem_cons_self
    obtain ⟨result, hresult⟩ := ih fun other hother ↦ h other (List.mem_cons_of_mem a hother)
    refine ⟨b :: result, ?_⟩
    rw [List.mapM_cons, hb, hresult]
    rfl

theorem Inv.dumpSafe {s : State} (h : Inv s) : DumpSafe s := by
  intro showMount hidden
  obtain ⟨doc, hdoc⟩ : ∃ doc, dumpStatsToDoc showMount hidden s = .ok doc := by
    apply mapM_ok
    intro entry hentry
    exact h.dumpMount (List.mem_filter.mp hentry).1
  refine ⟨doc, ?_⟩
  rw [statsGetXml, hdoc]
  cases showMount with
  | none => rfl
  | some mount =>
    cases doc with
    | nil => rfl
    | cons first rest =>
      -- something has been dumped, which can only be the mount that was asked for
      have hreserved : Reserved s mount := by
        cases hlisted : listed (some mount) hidden s with
        | nil =>
          rw [dumpStatsToDoc, hlisted] at hdoc
          cases hdoc
        | cons entry others =>
          have hentry : entry ∈ listed (some mount) hidden s := by
            rw [hlisted]
            exact List.mem_cons_self
          obtain ⟨hin, hshown⟩ := List.mem_filter.mp hentry
          have hmount : mount = entry.1 := by
            have hboth := (Bool.and_eq_true_iff.mp hshown).2
            simpa using hboth
          rw [hmount]
          exact h.tree entry.1 (by rw [OrderedMap.mem_entries_iff.mp hin]; rfl)
      have hfound : (sourceFindMountRaw s.sources mount).isNone = false := by
        rw [Option.isNone_eq_false_iff]
        exact hreserved
      change (if (sourceFindMountRaw s.sources mount).isNone then _ else _) = _
      rw [hfound]
      rfl

/-- In every state of a run whose steps keep the tables in agreement, the stats document finds its
objects. -/
theorem stats_dump_finds_objects (config : ServerConfig) (actions : List Step)
    (hagreeing : Guarded step Agreeing (start config) actions) :
    DumpSafe (run step (start config) actions) :=
  (run_invariant_of_guarded step Inv step_inv actions (inv_start config) hagreeing).dumpSafe

/-- A configuration with one mount, which falls back to another one. -/
def oneMount : ServerConfig where
  mounts := [⟨.normal, some "/live", some "/fallback", false, -1⟩]
  fnmatch _ _ := false
  hostname := "localhost"
  port := 8000

def plainDetails : Details := ⟨true, [], 0, false, -1⟩

/-- A source comes to its configured mount and goes again. -/
theorem stats_dump_finds_objects_live :
    DumpSafe (run step (start oneMount) [.reserve "/live" plainDetails,
      .change "/live" true false plainDetails, .recheckMounts true, .statsThread, .statsThread,
      .statsThread, .statsThread, .report (.event (some "/live") none none), .statsThread,
      .free "/live"]) :=
  stats_dump_finds_objects oneMount _ (by decide)

/-- A source at a mount that is not in the configuration, and a mount that is shown for its fallback:
in both cases the document cannot be built. -/
theorem stats_dump_null :
    statsGetXml none false (run step (start oneMount) [.reserve "/other" plainDetails,
      .report (.event (some "/other") (some "listeners") (some "0")), .statsThread]) =
        .error .nullMount ∧
    statsGetXml none false (run step (start oneMount) [.reserve "/fallback" plainDetails,
      .change "/fallback" true false plainDetails, .recheckMounts true, .statsThread,
      .statsThread]) = .error .nullSource ∧
    ¬∀ config actions, DumpSafe (run step (start config) actions) := by
  have hother : statsGetXml none false (run step (start oneMount) [.reserve "/other" plainDetails,
      .report (.event (some "/other") (some "listeners") (some "0")), .statsThread]) =
        .error .nullMount := by rfl
  refine ⟨hother, by rfl, ?_⟩
  intro hall
  obtain ⟨doc, hdoc⟩ := hall oneMount _ none false
  rw [hother] at hdoc
  cases hdoc

end Icecast.Stats.Dump
