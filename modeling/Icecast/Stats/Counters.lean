import Icecast.Stats.Replica

/-!
# Statistics that are counted

Some statistics are counted up and down by events (`stats_event_inc` and the like in `stats.c`). Their
values are kept as texts: the thread reads the number, changes it and prints it again. Most of that is
done with 32 bits, and there is room for 15 characters.

What the counters should be is defined beside the server, from the events as they were reported. The
server has the same values as long as every number fits, and nothing is counted up or down that is not
there yet.
-/

namespace Icecast.Stats

open Lib Lib.Decimal Lib.Machine

/-! ## Numbers as texts -/

/-- Numbers of at most 15 characters are printed as a whole. -/
theorem readNumber_printNumber {number : ℤ} (hlower : -10 ^ 14 < number) (hupper : number < 10 ^ 15) :
    readNumber (printNumber number) = number := by
  have hlength : (toString number).toList.length ≤ 15 := by
    rw [Int.toString_eq_repr, Int.repr_eq_if]
    split
    · rw [String.length_toList, Nat.length_repr_le_iff (by decide)]
      omega
    · have hdigits : (-number).toNat.repr.length ≤ 14 := by
        rw [Nat.length_repr_le_iff (by decide)]
        omega
      rw [String.length_toList, String.length_append]
      exact Nat.add_le_add_left hdigits 1
  rw [printNumber, List.take_of_length_le hlength, String.ofList_toList, readNumber_toString]

theorem atoi_of_readNumber {text : String} (hlower : -2 ^ 31 ≤ readNumber text)
    (hupper : readNumber text < 2 ^ 31) : atoi text = readNumber text := by
  have hkept : atoll text = readNumber text := by
    rw [atoll]
    omega
  rw [atoi, hkept, toInt_of_le_of_lt hlower hupper]

/-! ## One event -/

/-- What an event makes of the value of an entry. -/
def newValue (event : Event) : Option String → Option String
  | none => if event.action = .remove then none else event.value
  | some text =>
    match event.action with
    | .remove => none
    | .hidden => some text
    | .set => some (event.value.getD "")
    | _ => some (printNumber (newNumber text event))

theorem newValue_some_modify {event : Event} (hremove : event.action ≠ .remove) (node : Node) :
    newValue event (some node.value) = some (modifyNodeEvent node event).1.value := by
  unfold newValue modifyNodeEvent
  cases haction : event.action with
  | remove => exact absurd haction hremove
  | _ => rfl

section Source

variable {stats : StatsState} {mount : String} {snode : SourceStats} {event : Event}

theorem lookup_processInSource_named (hrepresents : Represents stats mount snode) {name : String}
    (hname : event.name = some name) :
    lookup (processInSource mount snode event stats).1 = (lookup stats).put (some mount) name
      (newValue event (lookup stats (some mount) name)) := by
  unfold processInSource
  rw [hrepresents name]
  simp only [hname]
  cases hnode : snode.statsTree.find? name with
  | none =>
    have habsent : lookup stats (some mount) name = none := by
      rw [hrepresents, hnode, Option.map_none]
    simp only [Option.map_none, newValue]
    split
    · rw [put_of_absent habsent]
    · cases event.value with
      | none => rw [put_of_absent habsent]
      | some value =>
        exact lookup_setSource_insert hrepresents name ⟨value, snode.hidden⟩ snode.hidden
  | some node =>
    simp only [Option.map_some]
    split
    · rename_i hremove
      simp only [newValue, hremove]
      exact lookup_setSource_erase hrepresents name snode.hidden
    · rename_i hremove
      rw [newValue_some_modify hremove]
      exact lookup_setSource_insert hrepresents name _ snode.hidden

/-- An event about a whole mount changes values only if it removes the mount. -/
theorem lookup_processInSource_unnamed (hrepresents : Represents stats mount snode)
    (hname : event.name = none) :
    lookup (processInSource mount snode event stats).1 =
      if event.action = .remove then
        fun source name ↦ if source = some mount then none else lookup stats source name
      else lookup stats := by
  unfold processInSource
  simp only [hname]
  cases haction : event.action with
  | remove =>
    rw [if_pos rfl]
    funext source name
    cases source with
    | none => rfl
    | some other =>
      simp only [lookup, OrderedMap.find?_erase, Option.some.injEq]
      split <;> rfl
  | hidden =>
    rw [if_neg (by rintro ⟨⟩)]
    dsimp only
    rw [lookup_setSource]
    funext source name
    by_cases hmount : source = some mount
    · rw [if_pos hmount, hmount, hrepresents, OrderedMap.find?_mapValues, Option.map_map]
      rfl
    · rw [if_neg hmount]
  | _ => rfl

/-- A mount that is not there yet is added without values. -/
theorem processSourceEvent_eq (mount : String) (event : Event) (stats : StatsState) :
    ∃ stats' snode, lookup stats' = lookup stats ∧ Represents stats' mount snode ∧
      (processSourceEvent mount event stats = processInSource mount snode event stats' ∨
        processSourceEvent mount event stats = (stats, event) ∧ event.action = .remove ∧
          ∀ name, lookup stats (some mount) name = none) := by
  unfold processSourceEvent
  cases hfound : stats.sourceTree.find? mount with
  | some snode =>
    refine ⟨stats, snode, rfl, ?_, .inl rfl⟩
    intro name
    simp only [lookup, hfound, Option.bind_some]
  | none =>
    have habsent (name : String) : lookup stats (some mount) name = none := by
      simp only [lookup, hfound, Option.bind_none]
    let snode : SourceStats := ⟨.empty, event.action = .hidden⟩
    refine ⟨stats.setSource mount snode, snode, ?_, ?_, ?_⟩
    · rw [lookup_setSource]
      funext source name
      by_cases hmount : source = some mount
      · rw [if_pos hmount, hmount, habsent]
        rfl
      · rw [if_neg hmount]
    · intro name
      rw [lookup_setSource]
      exact if_pos rfl
    · by_cases hremove : event.action = .remove
      · exact .inr ⟨if_pos hremove, hremove, habsent⟩
      · exact .inl (if_neg hremove)

theorem lookup_processSourceEvent_named {name : String} (hname : event.name = some name) :
    lookup (processSourceEvent mount event stats).1 = (lookup stats).put (some mount) name
      (newValue event (lookup stats (some mount) name)) := by
  obtain ⟨stats', snode, hsame, hrepresents, hprocess | ⟨hprocess, hremove, habsent⟩⟩ :=
    processSourceEvent_eq mount event stats
  · rw [hprocess, lookup_processInSource_named hrepresents hname, hsame]
  · rw [hprocess, habsent name, newValue, if_pos hremove, put_of_absent (habsent name)]

theorem lookup_processSourceEvent_unnamed (hname : event.name = none) :
    lookup (processSourceEvent mount event stats).1 =
      if event.action = .remove then
        fun source name ↦ if source = some mount then none else lookup stats source name
      else lookup stats := by
  obtain ⟨stats', snode, hsame, hrepresents, hprocess | ⟨hprocess, hremove, habsent⟩⟩ :=
    processSourceEvent_eq mount event stats
  · rw [hprocess, lookup_processInSource_unnamed hrepresents hname, hsame]
  · rw [hprocess, if_pos hremove]
    funext source name
    split
    · rename_i hmount
      rw [hmount, habsent]
    · rfl

end Source

/-- A global event with a name is processed, unless the entry is missing and there is no value for
it. -/
theorem processGlobalEvent_named {stats : StatsState} {event : Event} {name : String}
    (hname : event.name = some name)
    (hvalue : event.action = .remove ∨ (lookup stats none name).isSome ∨ event.value.isSome) :
    ∃ stats' event', processGlobalEvent event stats = some (stats', event') ∧
      lookup stats' =
        (lookup stats).put none name (newValue event (lookup stats none name)) := by
  unfold processGlobalEvent
  simp only [hname]
  have hlookup : lookup stats none name = (stats.globalTree.find? name).map (·.value) := rfl
  by_cases hremove : event.action = .remove
  · refine ⟨_, _, if_pos hremove, ?_⟩
    have hnew : newValue event (lookup stats none name) = none := by
      cases lookup stats none name <;> simp [newValue, hremove]
    rw [hnew]
    exact lookup_globalTree_erase stats name
  · rw [if_neg hremove]
    cases hnode : stats.globalTree.find? name with
    | some node =>
      refine ⟨_, _, rfl, ?_⟩
      rw [hlookup, hnode, Option.map_some, newValue_some_modify hremove]
      exact lookup_globalTree_insert stats name _
    | none =>
      rw [hlookup, hnode] at hvalue
      obtain ⟨value, hsome⟩ := Option.isSome_iff_exists.mp
        ((hvalue.resolve_left hremove).resolve_left (by simp))
      refine ⟨{ stats with globalTree := stats.globalTree.insert name ⟨value, false⟩ }, event, ?_, ?_⟩
      · rw [hsome]
        rfl
      · rw [hlookup, hnode, Option.map_none, newValue, if_neg hremove, hsome]
        exact lookup_globalTree_insert stats name ⟨value, false⟩

/-! ## What the counters should be -/

/-- Exact values by mount (or none for the global ones) and name. -/
abbrev Counters := Option String → String → ℤ

def Counters.put (counters : Counters) (source : Option String) (name : String) (value : ℤ) :
    Counters := fun mount other ↦
  if mount = source ∧ other = name then value else counters mount other

/-- What a report should do to the counters. An entry that is removed counts as zero. -/
def Report.count (report : Report) (counters : Counters) : Counters :=
  match report with
  | .event source (some name) value => counters.put source name ((value.map readNumber).getD 0)
  | .event source none none => fun mount name ↦ if mount = source then 0 else counters mount name
  | .event _ none (some _) => counters
  | .eventHidden .. => counters
  | .eventInc source name => counters.put source name (counters source name + 1)
  | .eventDec source name => counters.put source name (counters source name - 1)
  | .eventAdd source name value => counters.put source name (counters source name + value)
  | .eventSub source name value => counters.put source name (counters source name - value)

/-- The number in an entry; a missing one counts as zero. -/
def number (value : Option String) : ℤ := (value.map readNumber).getD 0

/-- The counters that the server has. -/
def stored (stats : StatsState) : Counters := fun source name ↦ number (lookup stats source name)

theorem number_put (replica : Replica) (source : Option String) (name : String)
    (value : Option String) :
    (fun mount other ↦ number (replica.put source name value mount other)) =
      Counters.put (fun mount other ↦ number (replica mount other)) source name (number value) := by
  funext mount other
  unfold Replica.put Counters.put
  split <;> rfl

/-- Nothing is changed. -/
theorem Counters.put_self (counters : Counters) (source : Option String) (name : String) :
    counters.put source name (counters source name) = counters := by
  funext mount other
  unfold Counters.put
  split
  · rename_i hmatch
    rw [hmatch.1, hmatch.2]
  · rfl

/-! ## Events that count right -/

/-- The entry that is to be counted up or down is there, and the numbers fit: into 32 bits for all but
subtractions, and into 15 characters for these. -/
def Countable (stats : StatsState) : Report → Prop
  | .event source name _ => source.isSome ∨ name.isSome
  | .eventHidden source none _ => source.isSome
  | .eventHidden source (some name) hidden =>
    source.isSome ∨ hidden = true ∨ (lookup stats source name).isSome
  | .eventInc source name =>
    ∃ text ∈ lookup stats source name, -2 ^ 31 ≤ readNumber text ∧ readNumber text + 1 < 2 ^ 31
  | .eventDec source name =>
    ∃ text ∈ lookup stats source name, -2 ^ 31 ≤ readNumber text - 1 ∧ readNumber text < 2 ^ 31
  | .eventAdd source name value =>
    (∀ text ∈ lookup stats source name,
      -2 ^ 31 ≤ readNumber text ∧ value < 2 ^ 31 ∧ readNumber text + value < 2 ^ 31) ∧
    (lookup stats source name = none → value < 10 ^ 15)
  | .eventSub source name value =>
    (∀ text ∈ lookup stats source name, value < 10 ^ 15 ∧ -10 ^ 14 < readNumber text - value ∧
      readNumber text - value < 10 ^ 15) ∧
    (lookup stats source name = none → value = 0)

instance Countable.decidable (stats : StatsState) : (report : Report) → Decidable (Countable stats report)
  | .event source name _ => inferInstanceAs (Decidable (source.isSome ∨ name.isSome))
  | .eventHidden source none _ => inferInstanceAs (Decidable (source.isSome = true))
  | .eventHidden source (some name) hidden =>
    inferInstanceAs (Decidable (source.isSome ∨ hidden = true ∨ (lookup stats source name).isSome))
  | .eventInc source name => inferInstanceAs (Decidable (∃ text ∈ lookup stats source name, _))
  | .eventDec source name => inferInstanceAs (Decidable (∃ text ∈ lookup stats source name, _))
  | .eventAdd source name _ =>
    inferInstanceAs (Decidable ((∀ text ∈ lookup stats source name, _) ∧ (_ → _)))
  | .eventSub source name _ =>
    inferInstanceAs (Decidable ((∀ text ∈ lookup stats source name, _) ∧ (_ → _)))

theorem number_some (text : String) : number (some text) = readNumber text := rfl

/-- The number that is counted in 32 bits and printed. -/
theorem number_printNumber_toInt {value : ℤ} (hlower : -2 ^ 31 ≤ value) (hupper : value < 2 ^ 31) :
    number (some (printNumber (toInt value))) = value := by
  rw [number_some, toInt_of_le_of_lt hlower hupper]
  exact readNumber_printNumber (by omega) (by omega)

/-- The amount of a report, as the event has it. -/
theorem readNumber_amount {value : ℕ} (h : value < 10 ^ 15) : readNumber (printNumber value) = value :=
  readNumber_printNumber (by omega) (by omega)

section Entry

variable {stats : StatsState} {source : Option String} {name : String} {report : Report}

theorem number_none : number none = 0 := rfl

theorem newValue_add (text : String) (value : ℕ) :
    newValue (Report.eventAdd source name value).build (some text) =
      some (printNumber (newNumber text (Report.eventAdd source name value).build)) := rfl

theorem newValue_sub (text : String) (value : ℕ) :
    newValue (Report.eventSub source name value).build (some text) =
      some (printNumber (newNumber text (Report.eventSub source name value).build)) := rfl

theorem stored_of_lookup {value : Option String} (h : lookup stats source name = value) :
    stored stats source name = number value := by
  rw [stored, h]

theorem newValue_none (hremove : report.build.action ≠ .remove) :
    newValue report.build none = report.build.value := if_neg hremove

theorem number_newValue_add {value : ℕ} (h : Countable stats (.eventAdd source name value)) :
    number (newValue (Report.eventAdd source name value).build (lookup stats source name)) =
      stored stats source name + value := by
  obtain ⟨hpresent, habsent⟩ := h
  cases hlookup : lookup stats source name with
  | none =>
    have hvalue : (Report.eventAdd source name value).build.value = some (printNumber value) := rfl
    rw [stored_of_lookup hlookup, newValue_none (by simp [Report.build]), hvalue, number_some,
      number_none, zero_add, readNumber_amount (habsent hlookup)]
  | some text =>
    obtain ⟨hlower, hvalue, hupper⟩ := hpresent text hlookup
    have hamount : readNumber (printNumber value) = value := readNumber_amount (by omega)
    have hnumber : newNumber text (Report.eventAdd source name value).build =
        toInt (readNumber text + value) := by
      simp only [newNumber, Report.build, Option.getD_some]
      rw [atoi_of_readNumber (by omega) (by omega), atoi_of_readNumber (by omega) (by omega), hamount]
    rw [stored_of_lookup hlookup, newValue_add, hnumber, number_printNumber_toInt (by omega) hupper,
      number_some]

theorem number_newValue_sub {value : ℕ} (h : Countable stats (.eventSub source name value)) :
    number (newValue (Report.eventSub source name value).build (lookup stats source name)) =
      stored stats source name - value := by
  obtain ⟨hpresent, habsent⟩ := h
  cases hlookup : lookup stats source name with
  | none =>
    have hvalue : (Report.eventSub source name value).build.value = some (printNumber value) := rfl
    rw [stored_of_lookup hlookup, newValue_none (by simp [Report.build]), hvalue, number_some,
      number_none, habsent hlookup]
    decide
  | some text =>
    obtain ⟨hvalue, hlower, hupper⟩ := hpresent text hlookup
    have hamount : readNumber (printNumber value) = value := readNumber_amount hvalue
    have hfirst : atoll text = readNumber text := by
      rw [atoll]
      omega
    have hsecond : atoll (printNumber value) = value := by
      rw [atoll, hamount]
      omega
    have hdifference : (readNumber text - (value : ℤ)).bmod (2 ^ 64) = readNumber text - value := by
      rw [Int.bmod_def]
      split <;> omega
    have hnumber : newNumber text (Report.eventSub source name value).build = readNumber text - value := by
      simp only [newNumber, Report.build, Option.getD_some]
      rw [hfirst, hsecond, hdifference]
    rw [stored_of_lookup hlookup, newValue_sub, hnumber, number_some, number_some,
      readNumber_printNumber hlower hupper]

/-- The number that a report about an entry leaves there. -/
theorem number_newValue (hsource : report.build.source = source)
    (hname : report.build.name = some name) (h : Countable stats report) :
    number (newValue report.build (lookup stats source name)) =
      report.count (stored stats) source name := by
  cases report with
  | event source' name' value =>
    obtain rfl : source' = source := hsource
    obtain rfl : name' = some name := hname
    simp only [Report.count, Counters.put, and_self, if_true]
    cases value <;> cases lookup stats source' name <;> rfl
  | eventHidden source' name' hidden =>
    obtain rfl : source' = source := hsource
    obtain rfl : name' = some name := hname
    cases hlookup : lookup stats source' name with
    | none =>
      rw [Report.count, stored_of_lookup hlookup, newValue_none (by simp [Report.build])]
      cases hidden <;> rfl
    | some text =>
      rw [Report.count, stored_of_lookup hlookup]
      rfl
  | eventInc source' name' =>
    obtain rfl : source' = source := hsource
    obtain rfl : name' = name := Option.some.inj hname
    obtain ⟨text, hlookup, hlower, hupper⟩ := h
    simp only [Report.count, Counters.put, and_self, if_true]
    rw [Option.mem_def.mp hlookup, stored_of_lookup hlookup]
    change number (some (printNumber (toInt (atoi text + 1)))) = readNumber text + 1
    rw [atoi_of_readNumber hlower (by omega), number_printNumber_toInt (by omega) hupper]
  | eventDec source' name' =>
    obtain rfl : source' = source := hsource
    obtain rfl : name' = name := Option.some.inj hname
    obtain ⟨text, hlookup, hlower, hupper⟩ := h
    simp only [Report.count, Counters.put, and_self, if_true]
    rw [Option.mem_def.mp hlookup, stored_of_lookup hlookup]
    change number (some (printNumber (toInt (atoi text - 1)))) = readNumber text - 1
    rw [atoi_of_readNumber (by omega) hupper, number_printNumber_toInt hlower (by omega)]
  | eventAdd source' name' value =>
    obtain rfl : source' = source := hsource
    obtain rfl : name' = name := Option.some.inj hname
    simp only [Report.count, Counters.put, and_self, if_true]
    exact number_newValue_add h
  | eventSub source' name' value =>
    obtain rfl : source' = source := hsource
    obtain rfl : name' = name := Option.some.inj hname
    simp only [Report.count, Counters.put, and_self, if_true]
    exact number_newValue_sub h

end Entry

/-- A report about an entry changes nothing else. -/
theorem Report.count_eq_put {report : Report} {source : Option String} {name : String}
    (hsource : report.build.source = source) (hname : report.build.name = some name)
    (counters : Counters) :
    report.count counters = counters.put source name (report.count counters source name) := by
  cases report with
  | event source' name' value =>
    obtain rfl : source' = source := hsource
    obtain rfl : name' = some name := hname
    simp [Report.count, Counters.put]
  | eventHidden source' name' hidden =>
    exact (Counters.put_self counters source name).symm
  | eventInc source' name' | eventDec source' name' | eventAdd source' name' value
  | eventSub source' name' value =>
    obtain rfl : source' = source := hsource
    obtain rfl : name' = name := Option.some.inj hname
    simp [Report.count, Counters.put]

theorem stored_of_put {stats stats' : StatsState} {report : Report} {source : Option String}
    {name : String} (hsource : report.build.source = source) (hname : report.build.name = some name)
    (hcountable : Countable stats report)
    (h : lookup stats' = (lookup stats).put source name
      (newValue report.build (lookup stats source name))) :
    stored stats' = report.count (stored stats) := by
  rw [report.count_eq_put hsource hname, ← number_newValue hsource hname hcountable]
  unfold stored
  rw [h]
  exact number_put (lookup stats) source name _

/-- A report about a whole mount. -/
theorem stored_of_unnamed {stats stats' : StatsState} {report : Report} {mount : String}
    (hsource : report.build.source = some mount) (hname : report.build.name = none)
    (h : lookup stats' = if report.build.action = .remove then
        fun source name ↦ if source = some mount then none else lookup stats source name
      else lookup stats) :
    stored stats' = report.count (stored stats) := by
  unfold stored
  rw [h]
  cases report with
  | event source name value =>
    obtain rfl : source = some mount := hsource
    obtain rfl : name = none := hname
    cases value with
    | none =>
      funext source name
      simp only [Report.build, buildEvent, Option.isSome_none, Bool.false_eq_true, if_false, if_true,
        Report.count]
      split <;> rfl
    | some value => rfl
  | eventHidden source name hidden => rfl
  | _ => exact absurd hname nofun

/-- A global report that counts right has a name, and a value where one is needed. -/
theorem Countable.global {stats : StatsState} {report : Report} (h : Countable stats report)
    (hsource : report.build.source = none) :
    ∃ name, report.build.name = some name ∧ (report.build.action = .remove ∨
      (lookup stats none name).isSome ∨ report.build.value.isSome) := by
  cases report with
  | event source name value =>
    obtain rfl : source = none := hsource
    obtain ⟨name, rfl⟩ := Option.isSome_iff_exists.mp (h.resolve_left (by simp))
    cases value with
    | none => exact ⟨name, rfl, .inl rfl⟩
    | some value => exact ⟨name, rfl, .inr (.inr rfl)⟩
  | eventHidden source name hidden =>
    obtain rfl : source = none := hsource
    cases name with
    | none => exact absurd h (by simp [Countable])
    | some name =>
      refine ⟨name, rfl, .inr ?_⟩
      rcases h.resolve_left (by simp) with rfl | hpresent
      · exact .inr rfl
      · exact .inl hpresent
  | eventInc source name | eventDec source name =>
    obtain rfl : source = none := hsource
    obtain ⟨text, hlookup, -⟩ := h
    exact ⟨name, rfl, .inr (.inl (Option.isSome_of_mem hlookup))⟩
  | eventAdd source name value | eventSub source name value => exact ⟨name, rfl, .inr (.inr rfl)⟩

/-- Every report that counts right is worked into the trees as it should. -/
theorem processEvent_counts {stats : StatsState} {report : Report} (h : Countable stats report) :
    ∃ stats' event', processEvent report.build stats = some (stats', event') ∧
      stored stats' = report.count (stored stats) := by
  unfold processEvent
  cases hsource : report.build.source with
  | some mount =>
    refine ⟨_, _, rfl, ?_⟩
    cases hname : report.build.name with
    | some name => exact stored_of_put hsource hname h (lookup_processSourceEvent_named hname)
    | none => exact stored_of_unnamed hsource hname (lookup_processSourceEvent_unnamed hname)
  | none =>
    obtain ⟨name, hname, hvalue⟩ := h.global hsource
    obtain ⟨stats', event', hprocess, hlookup⟩ := processGlobalEvent_named hname hvalue
    exact ⟨stats', event', hprocess, stored_of_put hsource hname h hlookup⟩

/-! ## Runs -/

/-- The server with the reports that are in its queue, and the counters as they should be after those
that have been processed. -/
structure Tracked where
  state : State
  reports : List Report
  counters : Counters

def Tracked.start : Tracked := ⟨Stats.start, [], fun _ _ ↦ 0⟩

def track (t : Tracked) (action : Step) : Tracked :=
  let state := step t.state action
  match action with
  | .report report => ⟨state, t.reports ++ [report], t.counters⟩
  | .statsThread =>
    match t.reports with
    | [] => ⟨state, [], t.counters⟩
    | report :: reports => ⟨state, reports, report.count t.counters⟩
  | .register => ⟨state, t.reports, t.counters⟩
  | .sendEvent _ _ => ⟨state, t.reports, t.counters⟩
  | .clearVirtualMounts reserved =>
    ⟨state, t.reports, fun source name ↦
      if source.all (· ∈ reserved) then t.counters source name else 0⟩

/-- The next report counts right when the thread comes to it. -/
def CountsRight (t : Tracked) (action : Step) : Prop :=
  action = .statsThread → ∀ report ∈ t.reports.head?, Countable t.state.stats report

instance CountsRight.decidable (t : Tracked) (action : Step) : Decidable (CountsRight t action) :=
  inferInstanceAs (Decidable (_ → ∀ report ∈ t.reports.head?, Countable t.state.stats report))

theorem track_state (t : Tracked) (action : Step) : (track t action).state = step t.state action := by
  unfold track
  cases action with
  | statsThread => cases t.reports <;> rfl
  | _ => rfl

theorem run_track_state (actions : List Step) (t : Tracked) :
    (run track t actions).state = run step t.state actions := by
  induction actions generalizing t with
  | nil => rfl
  | cons action actions ih => rw [run_cons, ih, track_state, run_cons]

structure Tracked.Exact (t : Tracked) : Prop where
  alive : t.state.crashed = false
  queue : t.state.queue = t.reports.map Report.build
  counters : stored t.state.stats = t.counters

theorem Tracked.Exact.statsThread {t : Tracked} (h : t.Exact) (hright : CountsRight t .statsThread) :
    (track t .statsThread).Exact := by
  obtain ⟨halive, hqueue, hcounters⟩ := h
  have hstep : step t.state .statsThread = Stats.statsThread t.state := if_neg (by simp [halive])
  unfold track
  rw [hstep, Stats.statsThread]
  cases hreports : t.reports with
  | nil =>
    rw [hreports, List.map_nil] at hqueue
    simp only [hqueue]
    exact ⟨halive, hqueue, hcounters⟩
  | cons report reports =>
    rw [hreports, List.map_cons] at hqueue
    obtain ⟨stats', event', hprocess, hstored⟩ :=
      processEvent_counts (hright rfl report (by rw [hreports]; rfl))
    simp only [hqueue, hprocess]
    exact ⟨halive, rfl, by rw [hstored, hcounters]⟩

theorem sendEvent_stats (id : ℕ) (sent : Sent) (s : State) :
    (sendEvent id sent s).stats = s.stats ∧ (sendEvent id sent s).queue = s.queue ∧
      (sendEvent id sent s).crashed = s.crashed := by
  unfold sendEvent
  split
  · exact ⟨rfl, rfl, rfl⟩
  · split
    · exact ⟨rfl, rfl, rfl⟩
    · split
      · exact ⟨rfl, rfl, rfl⟩
      · cases sent <;> exact ⟨rfl, rfl, rfl⟩

theorem stored_clearVirtualMounts (reserved : List String) (stats : StatsState) :
    stored (statsClearVirtualMounts reserved stats) = fun source name ↦
      if source.all (· ∈ reserved) then stored stats source name else 0 := by
  funext source name
  cases source with
  | none => rfl
  | some mount =>
    simp only [stored, lookup, statsClearVirtualMounts, OrderedMap.find?_keep, Option.all_some]
    split <;> rfl

theorem Tracked.Exact.track {t : Tracked} (h : t.Exact) {action : Step}
    (hright : CountsRight t action) : (track t action).Exact := by
  cases action with
  | statsThread => exact h.statsThread hright
  | report report =>
    have hstep : step t.state (.report report) =
        { t.state with queue := t.state.queue ++ [report.build] } := if_neg (by simp [h.alive])
    refine ⟨?_, ?_, ?_⟩
    · rw [Stats.track, hstep]
      exact h.alive
    · rw [Stats.track, hstep, h.queue, List.map_append]
      rfl
    · rw [Stats.track, hstep]
      exact h.counters
  | register =>
    have hstep : step t.state .register = registerListener t.state := if_neg (by simp [h.alive])
    rw [Stats.track, hstep]
    exact ⟨h.alive, h.queue, h.counters⟩
  | sendEvent id sent =>
    have hstep : step t.state (.sendEvent id sent) = Stats.sendEvent id sent t.state :=
      if_neg (by simp [h.alive])
    obtain ⟨hstats, hqueue, hcrashed⟩ := sendEvent_stats id sent t.state
    rw [Stats.track, hstep]
    exact ⟨hcrashed.trans h.alive, hqueue.trans h.queue, hstats ▸ h.counters⟩
  | clearVirtualMounts reserved =>
    have hstep : step t.state (.clearVirtualMounts reserved) =
        { t.state with stats := statsClearVirtualMounts reserved t.state.stats } :=
      if_neg (by simp [h.alive])
    rw [Stats.track, hstep]
    refine ⟨h.alive, h.queue, ?_⟩
    dsimp only
    rw [stored_clearVirtualMounts, h.counters]

theorem stored_start : stored start.stats = fun _ _ ↦ 0 := by
  funext source name
  cases source <;> rfl

theorem exact_run_track (actions : List Step) (h : Guarded track CountsRight .start actions) :
    (run track .start actions).Exact :=
  run_invariant_of_guarded track Tracked.Exact (fun _ _ inv hright ↦ inv.track hright) actions
    ⟨rfl, rfl, stored_start⟩ h

/-- In every run in which every report counts right when it is processed, all counters of the server
have the values that they should have, after any number of steps. -/
theorem stats_counters_exact (actions : List Step) (h : Guarded track CountsRight .start actions) :
    (run step start actions).crashed = false ∧
      stored (run step start actions).stats = (run track .start actions).counters := by
  have hexact := exact_run_track actions h
  have hstate : (run track .start actions).state = run step start actions :=
    run_track_state actions .start
  rw [← hstate]
  exact ⟨hexact.alive, hexact.counters⟩

/-- A listener comes and two go, on a mount and globally. -/
def countedVisit : List Step :=
  [.report (.event (some "/live") (some "listeners") (some "0")), .statsThread,
    .report (.eventInc (some "/live") "listeners"), .report (.eventAdd none "listeners" 3),
    .statsThread, .statsThread, .report (.eventSub none "listeners" 2), .statsThread]

theorem stats_counters_exact_countedVisit :
    (run step start countedVisit).crashed = false ∧
      stored (run step start countedVisit).stats = (run track .start countedVisit).counters := by
  exact stats_counters_exact countedVisit (by decide)

/-- A first increment on a mount is lost, and one beyond 32 bits makes the number negative. -/
theorem stats_counters_differ :
    stored (run step start
        [.report (.eventInc (some "/live") "listeners"), .statsThread]).stats (some "/live")
      "listeners" = 0 ∧
    (run track .start [.report (.eventInc (some "/live") "listeners"), .statsThread]).counters
      (some "/live") "listeners" = 1 ∧
    stored (run step start
        [.report (.event none (some "kbytes") (some "3000000000")), .statsThread,
          .report (.eventInc none "kbytes"), .statsThread]).stats none "kbytes" = -1294967295 ∧
    ¬ ∀ actions, stored (run step start actions).stats = (run track .start actions).counters := by
  have hlost : stored (run step start
      [.report (.eventInc (some "/live") "listeners"), .statsThread]).stats (some "/live")
    "listeners" = 0 := by decide
  have hexact : (run track .start
      [.report (.eventInc (some "/live") "listeners"), .statsThread]).counters (some "/live")
    "listeners" = 1 := by decide
  refine ⟨hlost, hexact, by decide, ?_⟩
  intro hall
  have hsame := congrFun (congrFun (hall
    [.report (.eventInc (some "/live") "listeners"), .statsThread]) (some "/live")) "listeners"
  rw [hlost, hexact] at hsame
  exact absurd hsame (by decide)

end Icecast.Stats
