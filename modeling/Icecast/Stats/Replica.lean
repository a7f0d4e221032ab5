import Icecast.Stats.Events

/-!
# Replicas of the statistics

A stats client that works all events it is told of into a table of its own should have the server's
values. It has, as long as every event says what it did: amounts that are added to or subtracted from
an entry are passed on as they are, hiding looks like a change of a value, and showing a mount again
looks like its removal. Lines that are not sent, and mounts that are cleared without an event, are
missed altogether.
-/

namespace Icecast.Stats

open Lib Lib.Machine

/-- The values that are known, by mount (or none for the global ones) and name. -/
abbrev Replica := Option String → String → Option String

/-- The values in the server's trees. -/
def lookup (stats : StatsState) : Replica
  | none, name => (stats.globalTree.find? name).map (·.value)
  | some source, name =>
    (stats.sourceTree.find? source).bind fun snode ↦ (snode.statsTree.find? name).map (·.value)

/-- An event with a name sets or removes a value, one with neither name nor value removes a mount. -/
def applyCopy (replica : Replica) (copy : Copy) : Replica := fun source name ↦
  match copy.name, copy.value with
  | some changed, value =>
    if source = copy.source ∧ name = changed then value else replica source name
  | none, none => if source = copy.source then none else replica source name
  | none, some _ => replica source name

/-- A table with one value changed. -/
def Replica.put (replica : Replica) (source : Option String) (name : String)
    (value : Option String) : Replica := fun mount other ↦
  if mount = source ∧ other = name then value else replica mount other

theorem applyCopy_of_name {copy : Copy} {name : String} (h : copy.name = some name)
    (replica : Replica) : applyCopy replica copy = replica.put copy.source name copy.value := by
  funext source other
  simp only [applyCopy, h, Replica.put]

def replay (copies : List Copy) : Replica := copies.foldl applyCopy fun _ _ ↦ none

theorem replay_append (copies : List Copy) (copy : Copy) :
    replay (copies ++ [copy]) = applyCopy (replay copies) copy := by
  rw [replay, List.foldl_append]
  rfl

/-! ## The snapshot -/

/-- A list of events that only set values leaves the values of some of them, and nothing else. -/
theorem foldl_applyCopy_sets {copies : List Copy} (source : Option String) (name : String)
    (hsets : ∀ copy ∈ copies, copy.name.isSome ∧ copy.value.isSome) (replica : Replica) :
    (∃ value, copies.foldl applyCopy replica source name = some value ∧
      ⟨source, some name, some value⟩ ∈ copies) ∨
    (copies.foldl applyCopy replica source name = replica source name ∧
      ∀ value, ⟨source, some name, some value⟩ ∉ copies) := by
  induction copies generalizing replica with
  | nil => exact Or.inr ⟨rfl, fun value ↦ List.not_mem_nil⟩
  | cons copy copies ih =>
    obtain ⟨hname, hvalue⟩ := hsets copy List.mem_cons_self
    obtain ⟨changed, hchanged⟩ := Option.isSome_iff_exists.mp hname
    obtain ⟨new, hnew⟩ := Option.isSome_iff_exists.mp hvalue
    have hcopy : copy = ⟨copy.source, some changed, some new⟩ := by
      rw [← hchanged, ← hnew]
    rcases ih (fun other hother ↦ hsets other (List.mem_cons_of_mem copy hother))
      (applyCopy replica copy) with ⟨value, hfold, hmem⟩ | ⟨hfold, hnone⟩
    · exact Or.inl ⟨value, hfold, List.mem_cons_of_mem copy hmem⟩
    · rw [List.foldl_cons, hfold]
      by_cases hmatch : source = copy.source ∧ name = changed
      · refine Or.inl ⟨new, ?_, ?_⟩
        · simp only [applyCopy, hchanged, hnew, if_pos hmatch]
        · rw [hmatch.1, hmatch.2, ← hcopy]
          exact List.mem_cons_self
      · refine Or.inr ⟨?_, ?_⟩
        · simp only [applyCopy, hchanged, hnew, if_neg hmatch]
        · intro value hmem
          rcases List.mem_cons.mp hmem with hhead | htail
          · rw [hcopy] at hhead
            have hfields := Copy.mk.inj hhead
            exact hmatch ⟨hfields.1, Option.some.inj hfields.2.1⟩
          · exact hnone value htail

theorem mem_snapshot_iff {stats : StatsState} {source : Option String} {name value : String} :
    ⟨source, some name, some value⟩ ∈ snapshot stats ↔ lookup stats source name = some value := by
  have hnode (tree : OrderedMap String Node) (node : Node) :
      (name, node) ∈ tree.entries ↔ tree.find? name = some node := OrderedMap.mem_entries_iff
  cases source with
  | none => simp [snapshot, makeEventFromNode, lookup, hnode]
  | some mount =>
    have hsnode (snode : SourceStats) :
        (mount, snode) ∈ stats.sourceTree.entries ↔
          stats.sourceTree.find? mount = some snode := OrderedMap.mem_entries_iff
    simp only [snapshot, makeEventFromNode, lookup, List.mem_append, List.mem_map, List.mem_flatMap,
      Option.bind_eq_some_iff, Option.map_eq_some_iff, Copy.mk.injEq]
    constructor
    · rintro (⟨entry, -, hsource, -⟩ | ⟨entry, hentry, node, hmem, hsource, hname, hvalue⟩)
      · cases hsource
      · obtain rfl := Option.some.inj hsource
        obtain rfl := Option.some.inj hname
        exact ⟨entry.2, (hsnode _).mp hentry, node.2, (hnode _ _).mp hmem, Option.some.inj hvalue⟩
    · rintro ⟨snode, hfound, node, hmem, hvalue⟩
      exact Or.inr ⟨(mount, snode), (hsnode _).mpr hfound, (name, node), (hnode _ _).mpr hmem, rfl,
        rfl, congrArg some hvalue⟩

theorem snapshot_sets {stats : StatsState} : ∀ copy ∈ snapshot stats,
    copy.name.isSome ∧ copy.value.isSome := by
  intro copy hcopy
  simp only [snapshot, List.mem_append, List.mem_map, List.mem_flatMap] at hcopy
  rcases hcopy with ⟨entry, -, rfl⟩ | ⟨entry, -, node, -, rfl⟩
  · exact ⟨rfl, rfl⟩
  · exact ⟨rfl, rfl⟩

/-- A new client has the server's values. -/
theorem replay_snapshot (stats : StatsState) : replay (snapshot stats) = lookup stats := by
  funext source name
  rcases foldl_applyCopy_sets source name snapshot_sets
    (fun _ _ ↦ none) with ⟨value, hfold, hmem⟩ | ⟨hfold, hnone⟩
  · rw [mem_snapshot_iff] at hmem
    rw [hmem]
    exact hfold
  · rw [replay, hfold]
    cases hlookup : lookup stats source name with
    | none => rfl
    | some value => exact absurd (mem_snapshot_iff.mpr hlookup) (hnone value)

/-! ## Events that say what they did -/

/-- What the functions that build events make sure of. -/
structure WellFormed (event : Event) : Prop where
  set : event.action = .set → event.value.isSome
  remove : event.action = .remove → event.value = none
  count : event.action = .inc ∨ event.action = .dec → event.value = none
  named : event.name = none → event.action = .set ∨ event.action = .remove ∨ event.action = .hidden

theorem Report.build_wellFormed (report : Report) : WellFormed report.build := by
  cases report with
  | event source name value =>
    cases value with
    | none => exact ⟨nofun, fun _ ↦ rfl, nofun, fun _ ↦ Or.inr (Or.inl rfl)⟩
    | some value => exact ⟨fun _ ↦ rfl, nofun, nofun, fun _ ↦ Or.inl rfl⟩
  | eventHidden source name hidden => exact ⟨nofun, nofun, nofun, fun _ ↦ Or.inr (Or.inr rfl)⟩
  | eventInc source name => exact ⟨nofun, nofun, fun _ ↦ rfl, nofun⟩
  | eventDec source name => exact ⟨nofun, nofun, fun _ ↦ rfl, nofun⟩
  | eventAdd source name value => exact ⟨nofun, nofun, nofun, nofun⟩
  | eventSub source name value => exact ⟨nofun, nofun, nofun, nofun⟩

/-- The mount has no values. -/
def mountEmpty (stats : StatsState) (source : String) : Prop :=
  ∀ snode ∈ stats.sourceTree.find? source, snode.statsTree.entries = []

/-- An amount or a hidden flag is for an entry that is not there yet, and a mount is only shown again
when it has no values. -/
def Faithful (stats : StatsState) (event : Event) : Prop :=
  match event.action, event.name with
  | .add, some name => lookup stats event.source name = none
  | .sub, some name => lookup stats event.source name = none
  | .hidden, some name => lookup stats event.source name = none
  | .hidden, none => event.value.isSome ∨ ∀ source ∈ event.source, mountEmpty stats source
  | _, _ => True

/-- An entry that is changed gets the value that the event has afterwards. -/
theorem modifyNodeEvent_value {event : Event} (hformed : WellFormed event)
    (hremove : event.action ≠ .remove) (hadd : event.action ≠ .add) (hsub : event.action ≠ .sub)
    (hhidden : event.action ≠ .hidden) (node : Node) :
    some (modifyNodeEvent node event).1.value = (modifyNodeEvent node event).2.value := by
  unfold modifyNodeEvent
  cases haction : event.action with
  | set =>
    obtain ⟨value, hvalue⟩ := Option.isSome_iff_exists.mp (hformed.set haction)
    simp [hvalue]
  | inc => simp [hformed.count (Or.inl haction)]
  | dec => simp [hformed.count (Or.inr haction)]
  | add => exact absurd haction hadd
  | sub => exact absurd haction hsub
  | remove => exact absurd haction hremove
  | hidden => exact absurd haction hhidden

theorem modifyNodeEvent_name (node : Node) (event : Event) :
    (modifyNodeEvent node event).2.name = event.name ∧
      (modifyNodeEvent node event).2.source = event.source := by
  unfold modifyNodeEvent
  split <;> exact ⟨rfl, rfl⟩

theorem Faithful.absent {stats : StatsState} {event : Event} {name : String} (h : Faithful stats event)
    (hname : event.name = some name)
    (haction : event.action = .add ∨ event.action = .sub ∨ event.action = .hidden) :
    lookup stats event.source name = none := by
  unfold Faithful at h
  rcases haction with haction | haction | haction <;>
    simpa only [haction, hname] using h

theorem Faithful.mountEmpty {stats : StatsState} {event : Event} {mount : String}
    (h : Faithful stats event) (haction : event.action = .hidden) (hname : event.name = none)
    (hvalue : event.value = none) (hsource : event.source = some mount) (name : String) :
    lookup stats (some mount) name = none := by
  unfold Faithful at h
  simp only [haction, hname, hvalue, hsource, Option.isSome_none, Bool.false_eq_true,
    false_or] at h
  have hempty := h mount rfl
  cases hfound : stats.sourceTree.find? mount with
  | none => simp only [lookup, hfound, Option.bind_none]
  | some snode =>
    have hnone := OrderedMap.find?_of_entries_nil name (hempty snode hfound)
    simp only [lookup, hfound, Option.bind_some, hnone, Option.map_none]

/-! ## Changes of the trees -/

theorem lookup_globalTree_insert (stats : StatsState) (name : String) (node : Node) :
    lookup { stats with globalTree := stats.globalTree.insert name node } =
      (lookup stats).put none name (some node.value) := by
  funext source other
  cases source with
  | none =>
    simp only [lookup, OrderedMap.find?_insert, Replica.put, true_and]
    split <;> rfl
  | some mount => simp [lookup, Replica.put]

theorem lookup_globalTree_erase (stats : StatsState) (name : String) :
    lookup { stats with globalTree := stats.globalTree.erase name } =
      (lookup stats).put none name none := by
  funext source other
  cases source with
  | none =>
    simp only [lookup, OrderedMap.find?_erase, Replica.put, true_and]
    split <;> rfl
  | some mount => simp [lookup, Replica.put]

theorem lookup_setSource (stats : StatsState) (mount : String) (snode : SourceStats) :
    lookup (stats.setSource mount snode) = fun source name ↦
      if source = some mount then (snode.statsTree.find? name).map (·.value)
      else lookup stats source name := by
  funext source name
  cases source with
  | none => rfl
  | some other =>
    simp only [lookup, StatsState.setSource, OrderedMap.find?_insert, Option.some.injEq]
    split <;> rfl

/-- The node that stands for a mount has its values. -/
def Represents (stats : StatsState) (mount : String) (snode : SourceStats) : Prop :=
  ∀ name, lookup stats (some mount) name = (snode.statsTree.find? name).map (·.value)

section Source

variable {stats : StatsState} {mount : String} {snode : SourceStats}

theorem lookup_setSource_insert (h : Represents stats mount snode) (name : String) (node : Node)
    (hidden : Bool) :
    lookup (stats.setSource mount ⟨snode.statsTree.insert name node, hidden⟩) =
      (lookup stats).put (some mount) name (some node.value) := by
  rw [lookup_setSource]
  funext source other
  simp only [Replica.put, OrderedMap.find?_insert]
  by_cases hsource : source = some mount
  · by_cases hother : other = name
    · simp [hsource, hother]
    · simp [hsource, hother, h other]
  · simp [hsource]

theorem lookup_setSource_erase (h : Represents stats mount snode) (name : String) (hidden : Bool) :
    lookup (stats.setSource mount ⟨snode.statsTree.erase name, hidden⟩) =
      (lookup stats).put (some mount) name none := by
  rw [lookup_setSource]
  funext source other
  simp only [Replica.put, OrderedMap.find?_erase]
  by_cases hsource : source = some mount
  · by_cases hother : other = name
    · simp [hsource, hother]
    · simp [hsource, hother, h other]
  · simp [hsource]

theorem put_of_absent {replica : Replica} {source : Option String} {name : String}
    (h : replica source name = none) : replica.put source name none = replica := by
  funext other changed
  unfold Replica.put
  split
  · rename_i hmatch
    rw [hmatch.1, hmatch.2, h]
  · rfl

/-- An event about a name of a mount. -/
theorem processInSource_named {event : Event} {name : String}
    (hrepresents : Represents stats mount snode) (hsource : event.source = some mount)
    (hname : event.name = some name) (hformed : WellFormed event)
    (hfaithful : event.action = .add ∨ event.action = .sub ∨ event.action = .hidden →
      lookup stats (some mount) name = none) :
    lookup (processInSource mount snode event stats).1 =
      applyCopy (lookup stats) (copyEvent (processInSource mount snode event stats).2) := by
  have hcopy : applyCopy (lookup stats) (copyEvent event) =
      (lookup stats).put (some mount) name event.value := by
    rw [applyCopy_of_name hname, ← hsource]
    rfl
  unfold processInSource
  simp only [hname]
  cases hnode : snode.statsTree.find? name with
  | none =>
    have habsent : lookup stats (some mount) name = none := by
      rw [hrepresents, hnode, Option.map_none]
    simp only
    split
    · -- nothing to remove
      rename_i hremove
      rw [hcopy, hformed.remove hremove, put_of_absent habsent]
    · cases hvalue : event.value with
      | none => rw [hcopy, hvalue, put_of_absent habsent]
      | some value =>
        rw [hcopy, hvalue]
        exact lookup_setSource_insert hrepresents name ⟨value, snode.hidden⟩ snode.hidden
  | some node =>
    have hpresent : lookup stats (some mount) name ≠ none := by
      rw [hrepresents, hnode]
      simp
    simp only
    split
    · rename_i hremove
      rw [hcopy, hformed.remove hremove]
      exact lookup_setSource_erase hrepresents name snode.hidden
    · rename_i hremove
      -- the other actions on an entry that is there are not faithful
      have hvalue := modifyNodeEvent_value hformed hremove
        (fun hadd ↦ hpresent (hfaithful (Or.inl hadd)))
        (fun hsub ↦ hpresent (hfaithful (Or.inr (Or.inl hsub))))
        (fun hhidden ↦ hpresent (hfaithful (Or.inr (Or.inr hhidden)))) node
      obtain ⟨hname', hsource'⟩ := modifyNodeEvent_name node event
      rw [applyCopy_of_name (hname'.trans hname)]
      change _ = (lookup stats).put (modifyNodeEvent node event).2.source name
        (modifyNodeEvent node event).2.value
      rw [hsource', hsource, ← hvalue]
      exact lookup_setSource_insert hrepresents name _ snode.hidden

/-- An event about a whole mount. -/
theorem processInSource_unnamed {event : Event} (hrepresents : Represents stats mount snode)
    (hsource : event.source = some mount) (hname : event.name = none) (hformed : WellFormed event)
    (hfaithful : event.action = .hidden → event.value = none →
      ∀ name, lookup stats (some mount) name = none) :
    lookup (processInSource mount snode event stats).1 =
      applyCopy (lookup stats) (copyEvent (processInSource mount snode event stats).2) := by
  have hkept (hvalue : event.value.isSome) :
      applyCopy (lookup stats) (copyEvent event) = lookup stats := by
    obtain ⟨value, hvalue⟩ := Option.isSome_iff_exists.mp hvalue
    funext source name
    simp only [applyCopy, copyEvent, hname, hvalue]
  have hcleared (hvalue : event.value = none) : applyCopy (lookup stats) (copyEvent event) =
      fun source name ↦ if source = some mount then none else lookup stats source name := by
    funext source name
    simp only [applyCopy, copyEvent, hname, hvalue, hsource]
  unfold processInSource
  simp only [hname]
  rcases hformed.named hname with haction | haction | haction
  · simp only [haction]
    exact (hkept (hformed.set haction)).symm
  · simp only [haction]
    rw [hcleared (hformed.remove haction)]
    funext source name
    cases source with
    | none => rfl
    | some other =>
      simp only [lookup, OrderedMap.find?_erase, Option.some.injEq]
      split <;> rfl
  · simp only [haction]
    -- the flags change, the values do not
    have hsame : lookup (stats.setSource mount
        ⟨snode.statsTree.mapValues ({ · with hidden := event.value.isSome }),
          event.value.isSome⟩) = lookup stats := by
      rw [lookup_setSource]
      funext source name
      by_cases hmount : source = some mount
      · rw [if_pos hmount, hmount, hrepresents, OrderedMap.find?_mapValues, Option.map_map]
        rfl
      · rw [if_neg hmount]
    rw [hsame]
    cases hvalue : event.value with
    | some value => exact (hkept (by rw [hvalue]; rfl)).symm
    | none =>
      rw [hcleared hvalue]
      funext source name
      by_cases hmount : source = some mount
      · rw [if_pos hmount, hmount, hfaithful haction hvalue name]
      · rw [if_neg hmount]

end Source

/-! ## Every event -/

theorem processSourceEvent_replays {stats : StatsState} {mount : String} {event : Event}
    (hsource : event.source = some mount) (hformed : WellFormed event)
    (hfaithful : Faithful stats event) :
    lookup (processSourceEvent mount event stats).1 =
      applyCopy (lookup stats) (copyEvent (processSourceEvent mount event stats).2) := by
  -- the same for the node that is found and for one that is added
  have hin (stats' : StatsState) (snode : SourceStats) (hsame : lookup stats' = lookup stats)
      (hrepresents : Represents stats' mount snode) :
      lookup (processInSource mount snode event stats').1 =
        applyCopy (lookup stats) (copyEvent (processInSource mount snode event stats').2) := by
    rw [← hsame]
    cases hname : event.name with
    | some name =>
      apply processInSource_named hrepresents hsource hname hformed
      intro haction
      rw [hsame, ← hsource]
      exact hfaithful.absent hname haction
    | none =>
      apply processInSource_unnamed hrepresents hsource hname hformed
      intro haction hvalue name
      rw [hsame]
      exact hfaithful.mountEmpty haction hname hvalue hsource name
  unfold processSourceEvent
  cases hfound : stats.sourceTree.find? mount with
  | some snode =>
    apply hin stats snode rfl
    intro name
    simp only [lookup, hfound, Option.bind_some]
  | none =>
    have habsent (name : String) : lookup stats (some mount) name = none := by
      simp only [lookup, hfound, Option.bind_none]
    simp only
    split
    · rename_i hremove
      cases hname : event.name with
      | some name =>
        rw [applyCopy_of_name hname]
        change lookup stats = (lookup stats).put event.source name event.value
        rw [hformed.remove hremove, hsource, put_of_absent (habsent name)]
      | none =>
        funext source name
        simp only [applyCopy, copyEvent, hname, hformed.remove hremove, hsource]
        split
        · rename_i hmount
          rw [hmount, habsent]
        · rfl
    · apply hin
      · rw [lookup_setSource]
        funext source name
        by_cases hmount : source = some mount
        · rw [if_pos hmount, hmount, habsent]
          rfl
        · rw [if_neg hmount]
      · intro name
        rw [lookup_setSource]
        exact if_pos rfl

theorem processGlobalEvent_replays {stats stats' : StatsState} {event event' : Event}
    (hsource : event.source = none) (hformed : WellFormed event) (hfaithful : Faithful stats event)
    (h : processGlobalEvent event stats = some (stats', event')) :
    lookup stats' = applyCopy (lookup stats) (copyEvent event') := by
  unfold processGlobalEvent at h
  cases hname : event.name with
  | none =>
    simp only [hname] at h
    split at h
    · rename_i hempty
      obtain ⟨rfl, rfl⟩ := Prod.mk.inj (Option.some.inj h)
      have hnone (name : String) : lookup stats none name = none := by
        have hentries : stats.globalTree.entries = [] := by simpa using hempty.2
        rw [lookup, OrderedMap.find?_of_entries_nil name hentries, Option.map_none]
      funext source name
      simp only [applyCopy, copyEvent, hname, hformed.remove hempty.1, hsource]
      split
      · rename_i hglobal
        rw [hglobal, hnone]
      · rfl
    · cases h
  | some name =>
    have hcopy : applyCopy (lookup stats) (copyEvent event) =
        (lookup stats).put none name event.value := by
      rw [applyCopy_of_name hname, ← hsource]
      rfl
    simp only [hname] at h
    split at h
    · rename_i hremove
      obtain ⟨rfl, rfl⟩ := Prod.mk.inj (Option.some.inj h)
      rw [hcopy, hformed.remove hremove, lookup_globalTree_erase]
    · rename_i hremove
      split at h
      · rename_i node hnode
        have hpresent : lookup stats event.source name ≠ none := by
          rw [hsource]
          simp [lookup, hnode]
        obtain ⟨rfl, rfl⟩ := Prod.mk.inj (Option.some.inj h)
        have hvalue := modifyNodeEvent_value hformed hremove
          (fun hadd ↦ hpresent (hfaithful.absent hname (Or.inl hadd)))
          (fun hsub ↦ hpresent (hfaithful.absent hname (Or.inr (Or.inl hsub))))
          (fun hhidden ↦ hpresent (hfaithful.absent hname (Or.inr (Or.inr hhidden)))) node
        obtain ⟨hname', hsource'⟩ := modifyNodeEvent_name node event
        rw [applyCopy_of_name (hname'.trans hname), lookup_globalTree_insert]
        change _ = (lookup stats).put (modifyNodeEvent node event).2.source name
          (modifyNodeEvent node event).2.value
        rw [hsource', hsource, ← hvalue]
      · obtain ⟨value, hvalue, hpair⟩ := Option.map_eq_some_iff.mp h
        obtain ⟨rfl, rfl⟩ := Prod.mk.inj hpair
        rw [hcopy, hvalue, lookup_globalTree_insert]

/-- Whoever applies the copy of a faithful event to the values before it has the values after it. -/
theorem processEvent_replays {stats stats' : StatsState} {event event' : Event}
    (hformed : WellFormed event) (hfaithful : Faithful stats event)
    (h : processEvent event stats = some (stats', event')) :
    lookup stats' = applyCopy (lookup stats) (copyEvent event') := by
  unfold processEvent at h
  cases hsource : event.source with
  | none =>
    simp only [hsource] at h
    exact processGlobalEvent_replays hsource hformed hfaithful h
  | some mount =>
    simp only [hsource] at h
    have hpair := Prod.mk.inj (Option.some.inj h)
    rw [← hpair.1, ← hpair.2]
    exact processSourceEvent_replays hsource hformed hfaithful

/-! ## Runs -/

/-- The client has been given what makes up the server's values, and has each of these events once,
sent or still in its queue. -/
def Exact (stats : StatsState) (listener : Listener) : Prop :=
  replay listener.given = lookup stats ∧ listener.received ++ listener.queue = listener.given

def Replicas (s : State) : Prop :=
  ∀ id listener, s.listeners.objects id = some listener → Exact s.stats listener

/-- Events are faithful, lines are short enough and are taken whole or not at all, and no mount with
values is cleared. -/
def Reported (s : State) : Step → Prop
  | .statsThread => ∀ event ∈ s.queue.head?, Faithful s.stats event
  | .sendEvent id sent => ∀ listener ∈ s.listeners.objects id, ∀ copy ∈ listener.queue.head?,
      lineLength copy < 200 ∧ sent ≠ .partly
  | .clearVirtualMounts reserved =>
    ∀ entry ∈ s.stats.sourceTree.entries, entry.1 ∈ reserved ∨ entry.2.statsTree.entries = []
  | _ => True

instance (stats : StatsState) (source : String) : Decidable (mountEmpty stats source) := by
  unfold mountEmpty
  infer_instance

instance (stats : StatsState) (event : Event) : Decidable (Faithful stats event) := by
  unfold Faithful
  split <;> infer_instance

instance (s : State) (action : Step) : Decidable (Reported s action) := by
  cases action <;> unfold Reported <;> infer_instance

def Inv (s : State) : Prop := (∀ event ∈ s.queue, WellFormed event) ∧ Replicas s

theorem Exact.push {stats stats' : StatsState} {listener : Listener} {copy : Copy}
    (h : Exact stats listener) (hcopy : lookup stats' = applyCopy (lookup stats) copy) :
    Exact stats' (listener.push copy) := by
  constructor
  · calc replay (listener.given ++ [copy]) = applyCopy (replay listener.given) copy :=
          replay_append listener.given copy
      _ = lookup stats' := by rw [h.1, hcopy]
  · calc listener.received ++ (listener.queue ++ [copy])
        = listener.received ++ listener.queue ++ [copy] := (List.append_assoc _ _ _).symm
      _ = listener.given ++ [copy] := by rw [h.2]

theorem Inv.statsThread {s : State} (h : Inv s) (hreported : Reported s .statsThread) :
    Inv (statsThread s) := by
  unfold Stats.statsThread
  cases hqueue : s.queue with
  | nil => exact h
  | cons event queue =>
    have hformed : WellFormed event := h.1 event (by simp [hqueue])
    have hrest : ∀ other ∈ queue, WellFormed other := by
      intro other hother
      exact h.1 other (by simp [hqueue, hother])
    simp only
    cases hprocess : processEvent event s.stats with
    | none => exact ⟨hrest, h.2⟩
    | some result =>
      refine ⟨hrest, ?_⟩
      intro id listener hlistener
      obtain ⟨old, hold, rfl⟩ := Option.map_eq_some_iff.mp hlistener
      apply (h.2 id old hold).push
      apply processEvent_replays hformed (hreported event (by simp [hqueue])) hprocess

theorem Inv.registerListener {s : State} (h : Inv s) : Inv (registerListener s) := by
  refine ⟨h.1, fun id listener hlistener ↦ ?_⟩
  apply Heap.forall_alloc h.2 _ hlistener
  exact ⟨replay_snapshot s.stats, rfl⟩

theorem Inv.sendEvent {s : State} (h : Inv s) {id : ℕ} {sent : Sent}
    (hreported : Reported s (.sendEvent id sent)) : Inv (sendEvent id sent s) := by
  unfold Stats.sendEvent
  cases hlistener : s.listeners.objects id with
  | none => exact h
  | some listener =>
    cases hqueue : listener.queue with
    | nil =>
      simp only [hqueue]
      exact h
    | cons copy queue =>
      obtain ⟨hshort, hwhole⟩ := hreported listener hlistener copy (by simp [hqueue])
      simp only [hqueue]
      rw [if_neg (Nat.not_le_of_lt hshort)]
      cases sent with
      | whole =>
        refine ⟨h.1, fun other found hfound ↦ ?_⟩
        apply Heap.forall_modify h.2 _ hfound
        intro value hvalue
        rw [hlistener] at hvalue
        obtain rfl := Option.some.inj hvalue
        obtain ⟨hreplay, hall⟩ := h.2 id listener hlistener
        refine ⟨hreplay, ?_⟩
        rw [← hall, hqueue]
        simp
      | partly => exact absurd rfl hwhole
      | failed => exact ⟨h.1, fun other found hfound ↦ Heap.forall_free h.2 hfound⟩

theorem lookup_clearVirtualMounts {stats : StatsState} {reserved : List String}
    (h : ∀ entry ∈ stats.sourceTree.entries, entry.1 ∈ reserved ∨ entry.2.statsTree.entries = []) :
    lookup (statsClearVirtualMounts reserved stats) = lookup stats := by
  funext source name
  cases source with
  | none => rfl
  | some mount =>
    simp only [lookup, statsClearVirtualMounts, OrderedMap.find?_keep]
    by_cases hmount : mount ∈ reserved
    · simp [hmount]
    · simp only [hmount, decide_false, Bool.false_eq_true, if_false, Option.bind_none]
      cases hfound : stats.sourceTree.find? mount with
      | none => rfl
      | some snode =>
        have hempty := (h _ (OrderedMap.mem_entries_iff.mpr hfound)).resolve_left hmount
        simp only [Option.bind_some, OrderedMap.find?_of_entries_nil name hempty, Option.map_none]

theorem step_inv (s : State) (action : Step) (h : Inv s) (hreported : Reported s action) :
    Inv (step s action) := by
  unfold step
  split
  · exact h
  · cases action with
    | report report =>
      refine ⟨?_, h.2⟩
      intro event hevent
      rcases List.mem_append.mp hevent with hold | hnew
      · exact h.1 event hold
      · rw [List.mem_singleton.mp hnew]
        exact report.build_wellFormed
    | statsThread => exact h.statsThread hreported
    | register => exact h.registerListener
    | sendEvent id sent => exact h.sendEvent hreported
    | clearVirtualMounts reserved =>
      refine ⟨h.1, fun id listener hlistener ↦ ?_⟩
      rw [Exact, lookup_clearVirtualMounts hreported]
      exact h.2 id listener hlistener

theorem inv_start : Inv start := ⟨nofun, nofun⟩

/-! ## The result -/

/-- In every state of a run in which all changes are reported, every stats client is an exact
replica. -/
theorem stats_replicas (actions : List Step) (hreported : Guarded step Reported start actions) :
    Replicas (run step start actions) :=
  (run_invariant_of_guarded step Inv step_inv actions inv_start hreported).2

/-- A client that registers between the beginning and the end of a source. -/
def sourceVisit : List Step :=
  [.report (.event (some "/live") (some "listeners") (some "0")), .statsThread, .register,
    .report (.eventInc (some "/live") "listeners"), .statsThread, .sendEvent 0 .whole,
    .report (.event (some "/live") none none), .statsThread, .sendEvent 0 .whole]

theorem stats_replicas_sourceVisit : Replicas (run step start sourceVisit) :=
  stats_replicas sourceVisit (by decide)

/-- Two of five listeners leave. -/
def listenersLeave : List Step :=
  [.report (.event (some "/live") (some "listeners") (some "5")), .statsThread, .register,
    .report (.eventSub (some "/live") "listeners" 2), .statsThread]

/-- The server has 3 listeners then, the client 2. -/
theorem stats_replica_differs :
    lookup (run step start listenersLeave).stats (some "/live") "listeners" = some "3" ∧
      ((run step start listenersLeave).listeners.objects 0).map
        (fun listener ↦ replay listener.given (some "/live") "listeners") = some (some "2") ∧
      ¬∀ actions, Replicas (run step start actions) := by
  have hserver : lookup (run step start listenersLeave).stats (some "/live") "listeners" =
      some "3" := by decide
  have hclient : ((run step start listenersLeave).listeners.objects 0).map
      (fun listener ↦ replay listener.given (some "/live") "listeners") = some (some "2") := by
    decide
  refine ⟨hserver, hclient, ?_⟩
  intro hall
  obtain ⟨listener, hlistener, hreplay⟩ := Option.map_eq_some_iff.mp hclient
  rw [(hall listenersLeave 0 listener hlistener).1, hserver] at hreplay
  exact absurd hreplay (by decide)

end Icecast.Stats
