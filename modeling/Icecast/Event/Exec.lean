import Icecast.Lib.Checked
import Mathlib.Data.List.Induction

/-!
# Programs that are run for events

The options of an event of type `exec` are read twice (`event_exec.c`): first for the program and the number
of its further arguments, and then, with the argument vector allocated, for these arguments. The first cells
of the vector are kept for what every run of the program sets itself.
-/

namespace Icecast.Event.Exec

open Lib.Checked

/-! ## Options and allocations -/

structure ConfigOption where
  type : Option String
  name : Option String
  value : Option String

/-- Where memory is asked for: for the structure, for the name of the program by an option with a number,
for the vector, and for the argument of an option. -/
inductive Site where
  | self
  | executable (option : ℕ)
  | argv
  | argument (option : ℕ)

abbrev Alloc := Site → Bool

/-- A copy, or `NULL`. -/
def strdup (alloc : Alloc) (site : Site) (text : String) : Option String :=
  if alloc site then some text else none

/-- Reading through `NULL`, or outside of the vector. -/
inductive Fault where
  | nullArgv
  | outside
  deriving DecidableEq

/-! ## The state of an event -/

/-- `ARGVTYPE_DFAULT` is `legacy`. -/
inductive ArgvType where
  | noDefaults
  | onlyUri
  | uriAndTrigger
  | legacy

def argvtype2offset : ArgvType → ℕ
  | .noDefaults => 1
  | .onlyUri => 2
  | .uriAndTrigger => 3
  | .legacy => 2

def str2argvtype (str : Option String) : ArgvType :=
  if str = some "default" then .legacy
  else if str = some "no_defaults" then .noDefaults
  else if str = some "uri" then .onlyUri
  else if str = some "uri_and_trigger" then .uriAndTrigger
  else .legacy

/-- `event_exec_t` -/
structure EventExec where
  executable : Option String
  argvtype : ArgvType
  argv : Option (List (Option String))

/-- The pointers before the first `NULL`. -/
def pointers : List (Option String) → Except Fault (List String)
  | [] => .error .outside
  | none :: _ => .ok []
  | some pointer :: cells => do
    let rest ← pointers cells
    return pointer :: rest

def loadArgv (self : EventExec) : Except Fault (List (Option String)) :=
  match self.argv with
  | none => .error .nullArgv
  | some argv => .ok argv

/-- The arguments that are freed: the loop reads the vector from its offset on, up to a `NULL`. -/
def eventExecFree (self : EventExec) : Except Fault (List String) := do
  let argv ← loadArgv self
  pointers (argv.drop (argvtype2offset self.argvtype))

/-! ## Construction -/

/-- What the first loop does for an option. -/
def readOption (alloc : Alloc) (self : EventExec × ℕ) (option : ConfigOption × ℕ) : EventExec × ℕ :=
  match option.1.name with
  | some name =>
    if name = "executable" then
      ({ self.1 with executable := option.1.value.bind (strdup alloc (.executable option.2)) }, self.2)
    else if name = "default_arguments" then
      ({ self.1 with argvtype := str2argvtype option.1.value }, self.2)
    else self
  | none => if option.1.type = some "argument" then (self.1, self.2 + 1) else self

def readOptions (alloc : Alloc) (options : List ConfigOption) : EventExec × ℕ :=
  options.zipIdx.foldl (readOption alloc) (⟨none, .legacy, none⟩, 0)

/-- The second loop, which ends at a copy that fails. -/
def storeArguments (alloc : Alloc) : List (ConfigOption × ℕ) → List (Option String) → ℕ →
    Except Fault (Bool × List (Option String) × ℕ)
  | [], argv, argc => .ok (true, argv, argc)
  | option :: options, argv, argc =>
    if option.1.type = some "argument" then
      match option.1.value with
      | some value => do
        let copy := strdup alloc (.argument option.2) value
        let argv ← store .outside argv argc copy
        if copy.isNone then return (false, argv, argc) else storeArguments alloc options argv (argc + 1)
      | none => storeArguments alloc options argv argc
    else storeArguments alloc options argv argc

def secondPass (alloc : Alloc) (options : List ConfigOption) :
    Except Fault (Bool × List (Option String) × ℕ) :=
  let (self, extraArgc) := readOptions alloc options
  storeArguments alloc options.zipIdx (List.replicate (argvtype2offset self.argvtype + extraArgc + 1) none)
    (argvtype2offset self.argvtype)

/-- There is no result if -1 is returned. -/
def eventGetExec (alloc : Alloc) (options : List ConfigOption) : Except Fault (Option EventExec) :=
  if alloc .self then
    let (self, _) := readOptions alloc options
    if self.executable.isNone then do
      let _ ← eventExecFree self
      return none
    else if alloc .argv then do
      let (done, argv, _) ← secondPass alloc options
      let self := { self with argv := some argv }
      if done then return some self
      else
        let _ ← eventExecFree self
        return none
    else do
      let _ ← eventExecFree self
      return none
  else .ok none

/-! ## Use -/

structure EventData where
  uri : Option String
  trigger : Option String

/-- The cells that the program is given, from the pointer on that is returned. -/
def setupArgv (self : EventExec) (event : EventData) : Except Fault (List (Option String)) := do
  let argv ← loadArgv self
  let argv ← store .outside argv 0 self.executable
  match self.argvtype with
  | .noDefaults => return argv
  | .uriAndTrigger =>
    let argv ← store .outside argv 2 (some (event.trigger.getD ""))
    store .outside argv 1 (some (event.uri.getD ""))
  | .onlyUri => store .outside argv 1 (some (event.uri.getD ""))
  | .legacy =>
    match event.uri with
    | some uri => store .outside argv 1 (some uri)
    | none =>
      let argv ← store .outside argv 1 self.executable
      return argv.drop 1

/-- What the program finds in its argument vector. -/
def arguments (self : EventExec) (event : EventData) : Except Fault (List String) := do
  let cells ← setupArgv self event
  pointers cells

/-! ## What is expected -/

structure Safe (alloc : Alloc) (options : List ConfigOption) : Prop where
  stored : alloc .self → (readOptions alloc options).1.executable.isSome → alloc .argv →
    ∃ done argv argc, secondPass alloc options = .ok (done, argv, argc) ∧
      argc ≤ argvtype2offset (readOptions alloc options).1.argvtype + (readOptions alloc options).2
  exits : ∃ result, eventGetExec alloc options = .ok result
  used : ∀ self, eventGetExec alloc options = .ok (some self) →
    (∀ event, ∃ given, arguments self event = .ok given) ∧ ∃ freed, eventExecFree self = .ok freed

/-- The last option for the program has a value and is copied. -/
def GivesExecutable (alloc : Alloc) (options : List ConfigOption) : Prop :=
  ∃ option ∈ (options.zipIdx.filter (·.1.name = some "executable")).getLast?,
    ∃ value ∈ option.1.value, alloc (.executable option.2)

/-- Options that are counted are those without a name. -/
def counted (options : List ConfigOption) : ℕ :=
  options.countP fun option ↦ option.name.isNone && option.type = some "argument"

/-- Options that are copied are those with a value, up to the first copy that fails. -/
def valuesOf (options : List (ConfigOption × ℕ)) : List (String × ℕ) :=
  options.filterMap fun option ↦
    if option.1.type = some "argument" then option.1.value.map (·, option.2) else none

def copies (alloc : Alloc) (options : List (ConfigOption × ℕ)) : List String :=
  ((valuesOf options).takeWhile (alloc <| .argument ·.2)).map Prod.fst

variable {alloc : Alloc} {options : List ConfigOption} {pairs : List (ConfigOption × ℕ)}

/-! ## The first pass -/

theorem readOption_argv (self : EventExec × ℕ) (option : ConfigOption × ℕ) :
    (readOption alloc self option).1.argv = self.1.argv := by
  unfold readOption
  split
  · split_ifs
    · rfl
    · rfl
    · rfl
  · split_ifs
    · rfl
    · rfl

theorem readOptions_argv (alloc : Alloc) (options : List ConfigOption) :
    (readOptions alloc options).1.argv = none := by
  have hfold : ∀ (pairs : List (ConfigOption × ℕ)) (self : EventExec × ℕ),
      (pairs.foldl (readOption alloc) self).1.argv = self.1.argv := by
    intro pairs
    induction pairs with
    | nil => exact fun _ ↦ rfl
    | cons option pairs ih => exact fun self ↦ (ih _).trans (readOption_argv self option)
  exact hfold _ _

theorem readOption_count (self : EventExec × ℕ) (option : ConfigOption × ℕ) :
    (readOption alloc self option).2 =
      self.2 + if option.1.name.isNone && option.1.type = some "argument" then 1 else 0 := by
  unfold readOption
  split
  · rename_i name hname
    split_ifs <;> simp_all
  · rename_i hname
    split_ifs <;> simp_all

theorem counted_cons (option : ConfigOption) (options : List ConfigOption) : counted (option :: options) =
    counted options + if option.name.isNone && option.type = some "argument" then 1 else 0 :=
  List.countP_cons

theorem readOptions_count (alloc : Alloc) (options : List ConfigOption) :
    (readOptions alloc options).2 = counted options := by
  have hfold : ∀ (pairs : List (ConfigOption × ℕ)) (self : EventExec × ℕ),
      (pairs.foldl (readOption alloc) self).2 = self.2 + counted (pairs.map Prod.fst) := by
    intro pairs
    induction pairs with
    | nil => exact fun _ ↦ rfl
    | cons option pairs ih =>
      intro self
      rw [List.foldl_cons, ih, readOption_count, List.map_cons, counted_cons]
      omega
  calc (readOptions alloc options).2 = 0 + counted (options.zipIdx.map Prod.fst) := hfold _ _
    _ = counted options := by rw [List.zipIdx_map_fst, Nat.zero_add]

/-- Only the last option for the program counts. -/
theorem readOptions_executable (alloc : Alloc) (options : List ConfigOption) :
    (readOptions alloc options).1.executable =
      (options.zipIdx.filter (·.1.name = some "executable")).getLast?.bind fun option ↦
        option.1.value.bind (strdup alloc (.executable option.2)) := by
  unfold readOptions
  induction options.zipIdx using List.reverseRecOn with
  | nil => rfl
  | append_singleton pairs option ih =>
    rw [List.foldl_append, List.foldl_cons, List.foldl_nil, List.filter_append]
    by_cases hname : option.1.name = some "executable"
    · rw [List.filter_cons_of_pos (by simpa using hname), List.filter_nil, List.getLast?_concat]
      simp [readOption, hname]
    · rw [List.filter_cons_of_neg (by simpa using hname), List.filter_nil, List.append_nil, ← ih]
      unfold readOption
      split
      · rename_i name heq
        have hne : name ≠ "executable" := fun h ↦ hname (h ▸ heq)
        rw [if_neg hne]
        split_ifs
        · rfl
        · rfl
      · split_ifs
        · rfl
        · rfl

theorem givesExecutable_iff :
    GivesExecutable alloc options ↔ (readOptions alloc options).1.executable.isSome := by
  rw [readOptions_executable, GivesExecutable]
  cases (options.zipIdx.filter (·.1.name = some "executable")).getLast? with
  | none => simp
  | some option =>
    cases hvalue : option.1.value with
    | none => simp [hvalue]
    | some value =>
      cases hcopy : alloc (.executable option.2) with
      | false => simp [hvalue, strdup, hcopy]
      | true => simp [hvalue, strdup, hcopy]

/-! ## The second pass -/

/-- No copy fails. -/
def allCopied (alloc : Alloc) (pairs : List (ConfigOption × ℕ)) : Bool :=
  (valuesOf pairs).all (alloc <| .argument ·.2)

section Values

variable {option : ConfigOption × ℕ} {value : String × ℕ}

theorem valuesOf_skip (h : option.1.type = some "argument" → option.1.value = none) :
    valuesOf (option :: pairs) = valuesOf pairs := by
  by_cases htype : option.1.type = some "argument"
  · simp [valuesOf, htype, h htype]
  · simp [valuesOf, htype]

theorem copies_congr (alloc : Alloc) {pairs' : List (ConfigOption × ℕ)}
    (h : valuesOf pairs' = valuesOf pairs) :
    copies alloc pairs' = copies alloc pairs ∧ allCopied alloc pairs' = allCopied alloc pairs := by
  rw [copies, allCopied, h]
  exact ⟨rfl, rfl⟩

theorem copies_cons (h : valuesOf (option :: pairs) = value :: valuesOf pairs)
    (hcopy : alloc (.argument value.2)) :
    copies alloc (option :: pairs) = value.1 :: copies alloc pairs ∧
      allCopied alloc (option :: pairs) = allCopied alloc pairs := by
  simp [copies, allCopied, h, hcopy]

theorem copies_failed (h : valuesOf (option :: pairs) = value :: valuesOf pairs)
    (hcopy : ¬ alloc (.argument value.2)) :
    copies alloc (option :: pairs) = [] ∧ allCopied alloc (option :: pairs) = false := by
  simp [copies, allCopied, h, hcopy]

end Values

theorem store_front {front : List (Option String)} {k : ℕ} (copy : Option String) :
    store Fault.outside (front ++ List.replicate (k + 1) none) front.length copy =
      .ok (front ++ [copy] ++ List.replicate k none) := by
  rw [store_of_lt (by simp)]
  simp [List.replicate_succ]

theorem store_full {front : List (Option String)} (copy : Option String) :
    store Fault.outside (front ++ List.replicate 0 none) front.length copy = .error .outside := by
  simp [store]

/-- The second loop is inside of the vector if and only if every copy, and the `NULL` of one that fails,
finds a cell. -/
theorem storeArguments_eq (alloc : Alloc) (pairs : List (ConfigOption × ℕ)) (front : List (Option String))
    (k : ℕ) :
    storeArguments alloc pairs (front ++ List.replicate k none) front.length =
      if (copies alloc pairs).length < k ∨ allCopied alloc pairs ∧ (copies alloc pairs).length = k then
        .ok (allCopied alloc pairs, front ++ (copies alloc pairs).map some ++
          List.replicate (k - (copies alloc pairs).length) none, front.length + (copies alloc pairs).length)
      else .error .outside := by
  induction pairs generalizing front k with
  | nil =>
    rw [if_pos (by simp [allCopied, copies, valuesOf]; omega)]
    simp [storeArguments, allCopied, copies, valuesOf]
  | cons option pairs ih =>
    rw [storeArguments]
    by_cases htype : option.1.type = some "argument"
    · rw [if_pos htype]
      cases hvalue : option.1.value with
      | none =>
        have hskip : valuesOf (option :: pairs) = valuesOf pairs := valuesOf_skip fun _ ↦ hvalue
        obtain ⟨hcopies, hall⟩ := copies_congr alloc hskip
        dsimp only
        rw [ih, hcopies, hall]
      | some value =>
        have hvalues : valuesOf (option :: pairs) = (value, option.2) :: valuesOf pairs := by
          simp [valuesOf, htype, hvalue]
        dsimp only
        by_cases hcopy : alloc (.argument option.2) = true
        · obtain ⟨hcopies, hall⟩ := copies_cons hvalues hcopy
          rw [strdup, if_pos hcopy, hcopies, hall]
          cases k with
          | zero => rw [store_full, error_bind, if_neg (by simp)]
          | succ k =>
            have hrest := ih (front ++ [some value]) k
            rw [List.length_append, List.length_singleton] at hrest
            rw [store_front, ok_bind, Option.isNone_some, if_neg Bool.false_ne_true, hrest]
            simp [Nat.add_assoc, Nat.add_comm 1]
        · obtain ⟨hcopies, hall⟩ := copies_failed hvalues hcopy
          rw [strdup, if_neg hcopy, hcopies, hall]
          cases k with
          | zero => rw [store_full, error_bind, if_neg (by simp)]
          | succ k =>
            rw [store_front, ok_bind, Option.isNone_none, if_pos rfl, if_pos (Or.inl (by simp))]
            simp [List.replicate_succ, pure, Except.pure]
    · have hskip : valuesOf (option :: pairs) = valuesOf pairs := valuesOf_skip fun h ↦ absurd h htype
      obtain ⟨hcopies, hall⟩ := copies_congr alloc hskip
      rw [if_neg htype, ih, hcopies, hall]

/-! ## Reading the vector -/

theorem pointers_append (texts : List String) (cells : List (Option String)) :
    pointers (texts.map some ++ cells) = (texts ++ ·) <$> pointers cells := by
  induction texts with
  | nil => simp
  | cons text texts ih =>
    rw [List.map_cons, List.cons_append, pointers, ih]
    cases pointers cells with
    | error fault => rfl
    | ok rest => rfl

/-- The vector behind the second pass. -/
def vector (argvtype : ArgvType) (texts : List String) (room : ℕ) : List (Option String) :=
  List.replicate (argvtype2offset argvtype) none ++ texts.map some ++ List.replicate room none

theorem drop_vector (argvtype : ArgvType) (texts : List String) (room : ℕ) :
    (vector argvtype texts room).drop (argvtype2offset argvtype) =
      texts.map some ++ List.replicate room none := by
  rw [vector, List.append_assoc]
  exact List.drop_left' List.length_replicate

theorem eventExecFree_vector (executable : Option String) (argvtype : ArgvType) (texts : List String)
    (room : ℕ) : eventExecFree ⟨executable, argvtype, some (vector argvtype texts room)⟩ =
      if room = 0 then .error .outside else .ok texts := by
  calc eventExecFree ⟨executable, argvtype, some (vector argvtype texts room)⟩
      = pointers (texts.map some ++ List.replicate room none) := congrArg pointers (drop_vector _ _ _)
    _ = (texts ++ ·) <$> pointers (List.replicate room none) := pointers_append _ _
    _ = if room = 0 then .error .outside else .ok texts := by
        cases room with
        | zero => rfl
        | succ room => simp [List.replicate_succ, pointers]

/-- What the program is given in front of its further arguments. -/
def defaultArguments (executable : String) (argvtype : ArgvType) (event : EventData) : List String :=
  match argvtype, event.uri with
  | .noDefaults, _ => [executable]
  | .onlyUri, uri => [executable, uri.getD ""]
  | .uriAndTrigger, uri => [executable, uri.getD "", event.trigger.getD ""]
  | .legacy, some uri => [executable, uri]
  | .legacy, none => [executable]

theorem arguments_vector (executable : String) (argvtype : ArgvType) (texts : List String) (room : ℕ)
    (event : EventData) :
    arguments ⟨some executable, argvtype, some (vector argvtype texts (room + 1))⟩ event =
      .ok (defaultArguments executable argvtype event ++ texts) := by
  have hend : pointers (texts.map some ++ List.replicate (room + 1) none) = .ok texts := by
    rw [pointers_append, List.replicate_succ]
    simp [pointers]
  rw [vector, List.append_assoc]
  generalize texts.map some ++ List.replicate (room + 1) none = cells at hend ⊢
  unfold arguments setupArgv loadArgv store defaultArguments
  cases argvtype with
  | noDefaults => simp [argvtype2offset, pointers, hend]
  | onlyUri => simp [argvtype2offset, pointers, hend]
  | uriAndTrigger => simp [argvtype2offset, pointers, hend]
  | legacy =>
    cases huri : event.uri with
    | none => simp [argvtype2offset, pointers, hend]
    | some uri => simp [argvtype2offset, pointers, hend]

/-! ## The construction as a whole -/

theorem secondPass_eq (alloc : Alloc) (options : List ConfigOption) : secondPass alloc options =
    if (copies alloc options.zipIdx).length < counted options + 1 ∨
        allCopied alloc options.zipIdx ∧ (copies alloc options.zipIdx).length = counted options + 1 then
      .ok (allCopied alloc options.zipIdx,
        vector (readOptions alloc options).1.argvtype (copies alloc options.zipIdx)
          (counted options + 1 - (copies alloc options.zipIdx).length),
        argvtype2offset (readOptions alloc options).1.argvtype + (copies alloc options.zipIdx).length)
    else .error .outside := by
  have hrun := storeArguments_eq alloc options.zipIdx
    (List.replicate (argvtype2offset (readOptions alloc options).1.argvtype) none) (counted options + 1)
  rw [List.replicate_append_replicate, List.length_replicate] at hrun
  rw [secondPass]
  dsimp only
  rw [readOptions_count]
  exact hrun

/-- There is no vector that could be freed. -/
theorem eventExecFree_readOptions (alloc : Alloc) (options : List ConfigOption) :
    eventExecFree (readOptions alloc options).1 = .error .nullArgv := by
  rw [eventExecFree, loadArgv, readOptions_argv]
  rfl

theorem eventGetExec_noSelf (hself : ¬ alloc .self) : eventGetExec alloc options = .ok none := if_neg hself

theorem eventGetExec_noExecutable (hself : alloc .self)
    (hexecutable : (readOptions alloc options).1.executable = none) :
    eventGetExec alloc options = .error .nullArgv := by
  rw [eventGetExec, if_pos hself]
  dsimp only
  rw [hexecutable, Option.isNone_none, if_pos rfl, eventExecFree_readOptions]
  rfl

theorem eventGetExec_noArgv (hself : alloc .self)
    (hexecutable : (readOptions alloc options).1.executable.isSome) (hargv : ¬ alloc .argv) :
    eventGetExec alloc options = .error .nullArgv := by
  rw [eventGetExec, if_pos hself]
  dsimp only
  rw [Option.isNone_eq_false_iff.mpr hexecutable, if_neg Bool.false_ne_true, if_neg hargv,
    eventExecFree_readOptions]
  rfl

/-- The run behind an allocated vector. -/
theorem eventGetExec_of_secondPass (hself : alloc .self)
    (hexecutable : (readOptions alloc options).1.executable.isSome) (hargv : alloc .argv)
    {done : Bool} {argv : List (Option String)} {argc : ℕ}
    (hpass : secondPass alloc options = .ok (done, argv, argc)) :
    eventGetExec alloc options =
      if done then .ok (some { (readOptions alloc options).1 with argv := some argv })
      else (fun _ ↦ none) <$> eventExecFree { (readOptions alloc options).1 with argv := some argv } := by
  rw [eventGetExec, if_pos hself]
  dsimp only
  rw [Option.isNone_eq_false_iff.mpr hexecutable, if_neg Bool.false_ne_true, if_pos hargv, hpass, ok_bind]
  cases done with
  | true => rfl
  | false => rfl

/-- Enough was counted: every run stays inside of the vector, and a `NULL` ends it. -/
theorem safe_of_le (hself : alloc .self) (hexecutable : (readOptions alloc options).1.executable.isSome)
    (hargv : alloc .argv) (hle : (copies alloc options.zipIdx).length ≤ counted options) :
    Safe alloc options := by
  obtain ⟨room, hroom⟩ := Nat.exists_eq_add_of_le hle
  obtain ⟨executable, hname⟩ := Option.isSome_iff_exists.mp hexecutable
  have hleft : counted options + 1 - (copies alloc options.zipIdx).length = room + 1 := by omega
  have hpass := secondPass_eq alloc options
  rw [if_pos (Or.inl (Nat.lt_succ_of_le hle)), hleft] at hpass
  have hrun := eventGetExec_of_secondPass hself hexecutable hargv hpass
  have hfreed : eventExecFree
      { (readOptions alloc options).1 with
        argv := some (vector (readOptions alloc options).1.argvtype (copies alloc options.zipIdx)
          (room + 1)) } = .ok (copies alloc options.zipIdx) := eventExecFree_vector _ _ _ _
  constructor
  · intro _ _ _
    refine ⟨_, _, _, hpass, ?_⟩
    rw [readOptions_count]
    exact Nat.add_le_add_left hle _
  · rw [hrun]
    split_ifs
    · exact ⟨_, rfl⟩
    · rw [hfreed]
      exact ⟨none, rfl⟩
  · intro self hresult
    rw [hrun] at hresult
    split_ifs at hresult
    · rw [← Option.some.inj (Except.ok.inj hresult)]
      refine ⟨fun event ↦ ?_, _, hfreed⟩
      have harguments := arguments_vector executable (readOptions alloc options).1.argvtype
        (copies alloc options.zipIdx) room event
      rw [← hname] at harguments
      exact ⟨_, harguments⟩
    · rw [hfreed] at hresult
      cases hresult

/-- What has been stored was counted if the second pass stays inside of the vector. -/
theorem le_of_safe (h : Safe alloc options) (hself : alloc .self)
    (hexecutable : (readOptions alloc options).1.executable.isSome) (hargv : alloc .argv) :
    (copies alloc options.zipIdx).length ≤ counted options := by
  obtain ⟨done, argv, argc, hpass, hle⟩ := h.stored hself hexecutable hargv
  rw [secondPass_eq, readOptions_count] at *
  split_ifs at hpass
  cases hpass
  exact Nat.le_of_add_le_add_left hle

/-- The vector is safe if and only if the structure cannot be allocated at all, or the options give a
program, the vector can be allocated, and no more arguments are copied than were counted. -/
theorem event_exec_safe_iff (alloc : Alloc) (options : List ConfigOption) :
    Safe alloc options ↔ (alloc .self → GivesExecutable alloc options ∧ alloc .argv ∧
      (copies alloc options.zipIdx).length ≤ counted options) := by
  rw [givesExecutable_iff]
  by_cases hself : alloc .self
  · constructor
    · intro h _
      have hexecutable : (readOptions alloc options).1.executable.isSome := by
        by_contra hnone
        obtain ⟨result, hrun⟩ := h.exits
        rw [eventGetExec_noExecutable hself (Option.not_isSome_iff_eq_none.mp hnone)] at hrun
        cases hrun
      have hargv : alloc .argv := by
        by_contra hnone
        obtain ⟨result, hrun⟩ := h.exits
        rw [eventGetExec_noArgv hself hexecutable hnone] at hrun
        cases hrun
      exact ⟨hexecutable, hargv, le_of_safe h hself hexecutable hargv⟩
    · intro h
      obtain ⟨hexecutable, hargv, hle⟩ := h hself
      exact safe_of_le hself hexecutable hargv hle
  · have hrun : eventGetExec alloc options = .ok none := eventGetExec_noSelf hself
    have hused : ∀ self, eventGetExec alloc options ≠ .ok (some self) := by
      intro self hresult
      rw [hrun] at hresult
      cases hresult
    apply iff_of_true
    · exact ⟨fun h ↦ absurd h hself, ⟨none, hrun⟩, fun self hresult ↦ absurd hresult (hused self)⟩
    · exact fun h ↦ absurd h hself

/-- Without options, the vector that is freed does not exist. -/
theorem event_exec_no_options : ¬ ∀ alloc options, Safe alloc options := by
  intro h
  obtain ⟨result, hrun⟩ := (h (fun _ ↦ true) []).exits
  cases hrun

/-- An option with a name that is an argument as well is not counted, and takes the place of the `NULL`. -/
example : secondPass (fun _ ↦ true) [⟨some "argument", some "executable", some "/bin/true"⟩] =
    .ok (true, [none, none, some "/bin/true"], 3) := by decide

end Icecast.Event.Exec
