import Icecast.Lib.Decimal
import Icecast.Lib.Highest
import Icecast.Lib.Machine
import Icecast.Lib.Slots
import Mathlib.Logic.Function.Basic

/-!
# The stylesheet cache

The last three stylesheets are kept, each with the modification time of its file and the time at which it
was loaded (`xslt.c`). Which entry is given up is found by `evict_cache_entry`: its variable is called
`oldest`, and it looks for the largest time.
-/

namespace Icecast.Xslt.StylesheetCache

open Lib.Decimal Lib.Highest Lib.Machine Lib.Slots

/-! ## The cache -/

abbrev Name := List UInt8

/-- What a file was parsed to, given by the file and the modification time it had at that moment. -/
structure Stylesheet where
  filename : Name
  mtime : ℤ

/-- `stylesheet_cache_t` -/
structure Slot where
  filename : Option Name
  lastModified : ℤ
  cacheAge : ℤ
  stylesheet : Option Stylesheet

def cacheSize : ℕ := 3

structure Cache where
  slots : List Slot
  size : slots.length = cacheSize

def Cache.set (cache : Cache) (i : ℕ) (slot : Slot) : Cache where
  slots := cache.slots.set i slot
  size := by rw [List.length_set, cache.size]

/-- All slots are zero. -/
def xsltInitialize : Cache := ⟨List.replicate cacheSize ⟨none, 0, 0, none⟩, List.length_replicate⟩

/-- A call of `xslt_get_stylesheet`: the name, the modification time unless `stat` fails, the modification
time when the file is parsed unless that fails, whether `strdup` has memory, and the time. -/
structure Lookup where
  fn : Name
  stat : Option ℤ
  parsed : Option ℤ
  copied : Bool
  now : ℤ

/-- `xsltParseStylesheetFile` -/
def Lookup.sheet (lookup : Lookup) : Option Stylesheet := lookup.parsed.map (⟨lookup.fn, ·⟩)

/-- What a slot holds once it was filled. -/
def Lookup.entry (lookup : Lookup) (mtime : ℤ) : Slot :=
  ⟨if lookup.copied then some lookup.fn else none, mtime, lookup.now, lookup.sheet⟩

/-- The loop of `evict_cache_entry`; `age` is an `int`, the times are not. -/
def oldestFrom (i : ℕ) (age : ℤ) (oldest : ℕ) : List Slot → ℕ
  | [] => oldest
  | slot :: rest =>
    if age < slot.cacheAge then oldestFrom (i + 1) (toInt slot.cacheAge) i rest
    else oldestFrom (i + 1) age oldest rest

def evictCacheEntry (cache : Cache) : ℕ := oldestFrom 0 0 0 cache.slots

/-- The slot of the name, or the last one that is empty. -/
inductive Found where
  | hit (i : ℕ) (slot : Slot)
  | miss (empty : Option ℕ)

/-- The loop of `xslt_get_stylesheet`. -/
def find (fn : Name) (i : ℕ) (empty : Option ℕ) : List Slot → Found
  | [] => .miss empty
  | slot :: rest =>
    match slot.filename with
    | some name => if fn = name then .hit i slot else find fn (i + 1) empty rest
    | none => find fn (i + 1) (some i) rest

def xsltGetStylesheet (cache : Cache) (lookup : Lookup) : Option Stylesheet × Cache :=
  match lookup.stat with
  | none => (none, cache)
  | some mtime =>
    match find lookup.fn 0 none cache.slots with
    | .hit i slot =>
      if slot.lastModified < mtime then
        let slot := { slot with
          lastModified := mtime
          stylesheet := lookup.sheet
          cacheAge := lookup.now }
        (slot.stylesheet, cache.set i slot)
      else (slot.stylesheet, cache)
    | .miss empty =>
      let i := empty.getD (evictCacheEntry cache)
      (lookup.sheet, cache.set i (lookup.entry mtime))

/-! ## What it is for -/

def Cache.names (cache : Cache) : List Name := keysOf Slot.filename cache.slots

/-- Which of the times that were seen for a name count: those since its entry was made, or all. -/
inductive Since where
  | entry
  | ever
deriving DecidableEq

/-- The cache, and the modification times that `stat` has found for each name. -/
structure State where
  cache : Cache
  seen : Name → List ℤ

def start : State := ⟨xsltInitialize, fun _ ↦ []⟩

def Cache.holds (cache : Cache) (fn : Name) : Bool :=
  cache.slots.any fun slot ↦ slot.filename = some fn

/-- The times of the name once another one was found. -/
def State.see (since : Since) (state : State) (fn : Name) (mtime : ℤ) : List ℤ :=
  if since = .entry ∧ ¬ state.cache.holds fn then [mtime] else state.seen fn ++ [mtime]

def step (since : Since) (state : State) (lookup : Lookup) : State where
  cache := (xsltGetStylesheet state.cache lookup).2
  seen :=
    match lookup.stat with
    | none => state.seen
    | some mtime => Function.update state.seen lookup.fn (state.see since lookup.fn mtime)

/-- An entry whose name is no longer held has the smallest time. -/
def LeastVictim (before after : Cache) : Prop :=
  ∀ victim ∈ before.slots, ∀ name ∈ victim.filename, name ∉ after.names →
    ∀ other ∈ before.slots, victim.cacheAge ≤ other.cacheAge

/-- The stylesheet that is returned was parsed from the file when its time was the newest one seen. -/
def ReturnsNewest (since : Since) (state : State) (lookup : Lookup) : Prop :=
  ∀ sheet ∈ (xsltGetStylesheet state.cache lookup).1, sheet.filename = lookup.fn ∧
    ∀ mtime ∈ (step since state lookup).seen lookup.fn, mtime ≤ sheet.mtime

/-- A lookup leaves one entry for each name, returns the newest stylesheet, and gives up the entry that was
loaded first. -/
structure Sound (since : Since) (state : State) (lookup : Lookup) : Prop where
  single : (step since state lookup).cache.names.Nodup
  newest : ReturnsNewest since state lookup
  victim : LeastVictim state.cache (step since state lookup).cache

/-! ## When it does that -/

/-- What the scan has kept behind the first entry. -/
def firstAge (first : ℤ) : ℤ := if 0 < first then toInt first else 0

/-- The times at which an entry with the smallest one is given up: they are all the same, or none is
positive and the first is the smallest. The other cases have times that do not fit into an `int`. -/
def AgesFit (first second third : ℤ) : Prop :=
  (first = second ∧ second = third) ∨
    (second ≤ 0 ∧ third ≤ 0 ∧ first ≤ second ∧ first ≤ third) ∨
    (0 < first ∧ toInt first < second ∧ second ≤ first ∧ second = third ∧ toInt second = second) ∨
    (firstAge first < second ∧ toInt second < third ∧ third ≤ first ∧ third ≤ second)

/-- The file is parsed: no entry is of the time that was found, or newer. -/
def Reads (cache : Cache) (lookup : Lookup) (mtime : ℤ) : Prop :=
  ∀ slot ∈ cache.slots, slot.filename = some lookup.fn → slot.lastModified < mtime

/-- A full cache without the name has such times. -/
def EvictsSmallest (cache : Cache) (lookup : Lookup) : Prop :=
  lookup.stat.isSome → lookup.fn ∉ cache.names → none ∉ cache.slots.map Slot.filename →
    ∀ x y z, cache.slots = [x, y, z] → AgesFit x.cacheAge y.cacheAge z.cacheAge

/-- A file that is parsed is not older than when it was looked at, and if all times count, not older than it
has ever been. -/
def ParsesNewest (since : Since) (state : State) (lookup : Lookup) : Prop :=
  ∀ mtime ∈ lookup.stat, ∀ parsed ∈ lookup.parsed, Reads state.cache lookup mtime →
    mtime ≤ parsed ∧ (since = .ever → ∀ earlier ∈ state.seen lookup.fn, earlier ≤ parsed)

/-- Both of these. -/
structure Good (since : Since) (state : State) (lookup : Lookup) : Prop where
  victim : EvictsSmallest state.cache lookup
  newest : ParsesNewest since state lookup

/-! ## The two loops -/

variable {fn name : Name} {i j : ℕ} {empty : Option ℕ} {slot : Slot} {slots front back : List Slot}

theorem find_cons_of_none (h : slot.filename = none) :
    find fn i empty (slot :: slots) = find fn (i + 1) (some i) slots := by
  rw [find, h]

theorem find_cons_of_some (h : slot.filename = some name) :
    find fn i empty (slot :: slots) =
      if fn = name then .hit i slot else find fn (i + 1) empty slots := by
  rw [find, h]

theorem find_hit (h : find fn i empty slots = .hit j slot) :
    slot.filename = some fn ∧ ∃ front back, slots = front ++ slot :: back ∧ j = i + front.length := by
  induction slots generalizing i empty with
  | nil => cases h
  | cons head rest ih =>
    have hrest (empty : Option ℕ) (h : find fn (i + 1) empty rest = .hit j slot) :
        slot.filename = some fn ∧
          ∃ front back, head :: rest = front ++ slot :: back ∧ j = i + front.length := by
      obtain ⟨hname, front, back, hslots, hj⟩ := ih h
      refine ⟨hname, head :: front, back, by rw [hslots, List.cons_append], ?_⟩
      rw [hj, List.length_cons]
      omega
    cases hfilename : head.filename with
    | none =>
      rw [find_cons_of_none hfilename] at h
      exact hrest _ h
    | some name =>
      rw [find_cons_of_some hfilename] at h
      split_ifs at h with hsame
      · injection h with hi hslot
        subst hi hslot hsame
        exact ⟨hfilename, [], rest, rfl, rfl⟩
      · exact hrest _ h

/-- A miss is a name that no slot has; the last empty slot is remembered. -/
theorem find_miss {last : Option ℕ} (h : find fn i empty slots = .miss last) :
    fn ∉ keysOf Slot.filename slots ∧
      ((last = empty ∧ none ∉ slots.map Slot.filename) ∨
        ∃ slot front back, slots = front ++ slot :: back ∧ slot.filename = none ∧
          last = some (i + front.length)) := by
  induction slots generalizing i empty with
  | nil =>
    injection h with hlast
    exact ⟨List.not_mem_nil, .inl ⟨hlast.symm, List.not_mem_nil⟩⟩
  | cons head rest ih =>
    have hbehind {last : Option ℕ} (h : ∃ slot front back, rest = front ++ slot :: back ∧
        slot.filename = none ∧ last = some (i + 1 + front.length)) :
        ∃ slot front back, head :: rest = front ++ slot :: back ∧ slot.filename = none ∧
          last = some (i + front.length) := by
      obtain ⟨slot, front, back, hrest, hnone, hlast⟩ := h
      refine ⟨slot, head :: front, back, by rw [hrest, List.cons_append], hnone, ?_⟩
      rw [hlast, List.length_cons, Nat.add_right_comm, Nat.add_assoc]
    cases hfilename : head.filename with
    | none =>
      rw [find_cons_of_none hfilename] at h
      obtain ⟨hnames, hempty⟩ := ih h
      refine ⟨by rwa [keysOf, List.filterMap_cons_none hfilename], .inr ?_⟩
      rcases hempty with ⟨hlast, -⟩ | hlater
      · exact ⟨head, [], rest, rfl, hfilename, hlast⟩
      · exact hbehind hlater
    | some name =>
      rw [find_cons_of_some hfilename] at h
      split_ifs at h with hother
      obtain ⟨hnames, hempty⟩ := ih h
      constructor
      · rw [keysOf, List.filterMap_cons_some hfilename, List.mem_cons, not_or]
        exact ⟨hother, hnames⟩
      · apply hempty.imp _ hbehind
        rintro ⟨hlast, hfull⟩
        refine ⟨hlast, ?_⟩
        rw [List.map_cons, List.mem_cons, not_or, hfilename]
        exact ⟨Option.some_ne_none name ∘ Eq.symm, hfull⟩

/-- The entry that is given up is one of those looked at. -/
theorem oldestFrom_lt {age : ℤ} {oldest : ℕ} (h : oldest < i + slots.length) :
    oldestFrom i age oldest slots < i + slots.length := by
  induction slots generalizing i age oldest with
  | nil => exact h
  | cons head rest ih =>
    rw [List.length_cons] at h ⊢
    rw [oldestFrom]
    have hnext : i + 1 + rest.length = i + (rest.length + 1) := by omega
    rw [← hnext] at h ⊢
    split_ifs
    · exact ih (by omega)
    · exact ih h

theorem evictCacheEntry_lt (cache : Cache) : evictCacheEntry cache < cache.slots.length := by
  have hpositive : 0 < 0 + cache.slots.length := by
    rw [cache.size]
    decide
  calc
    evictCacheEntry cache = oldestFrom 0 0 0 cache.slots := rfl
    _ < 0 + cache.slots.length := oldestFrom_lt hpositive
    _ = cache.slots.length := Nat.zero_add _

/-! ## The scan for the victim

For times that an `int` can hold it stops at the first entry of the largest one, which was loaded last. -/

/-- The times are positive, and until 2038. -/
def TimesFit (slots : List Slot) : Prop := ∀ slot ∈ slots, 0 < slot.cacheAge ∧ slot.cacheAge < 2 ^ 31

/-- The loop keeps what it has, unless a later time is larger. -/
theorem oldestFrom_cases (h : TimesFit slots) (age : ℤ) (oldest : ℕ) :
    (oldestFrom i age oldest slots = oldest ∧ ∀ slot ∈ slots, slot.cacheAge ≤ age) ∨
      ∃ victim front back, slots = front ++ victim :: back ∧ age < victim.cacheAge ∧
        oldestFrom i age oldest slots = i + front.length ∧
        (∀ other ∈ front, other.cacheAge < victim.cacheAge) ∧
        ∀ other ∈ back, other.cacheAge ≤ victim.cacheAge := by
  induction slots generalizing i age oldest with
  | nil => exact .inl ⟨rfl, fun _ hmem ↦ absurd hmem List.not_mem_nil⟩
  | cons head rest ih =>
    rw [TimesFit, List.forall_mem_cons] at h
    rw [oldestFrom]
    split_ifs with hlarger
    · rw [toInt_of_le_of_lt (by omega) h.1.2]
      rcases ih h.2 head.cacheAge i with ⟨hi, hrest⟩ |
        ⟨victim, front, back, rfl, hlt, hfound, hfront, hback⟩
      · exact .inr ⟨head, [], rest, rfl, hlarger, hi, fun _ hmem ↦ absurd hmem List.not_mem_nil, hrest⟩
      · refine .inr ⟨victim, head :: front, back, rfl, hlarger.trans hlt, ?_, ?_, hback⟩
        · rw [hfound, List.length_cons]
          omega
        · exact List.forall_mem_cons.mpr ⟨hlt, hfront⟩
    · have hle : head.cacheAge ≤ age := Int.not_lt.mp hlarger
      rcases ih h.2 age oldest with ⟨hkept, hrest⟩ |
        ⟨victim, front, back, rfl, hlt, hfound, hfront, hback⟩
      · exact .inl ⟨hkept, List.forall_mem_cons.mpr ⟨hle, hrest⟩⟩
      · refine .inr ⟨victim, head :: front, back, rfl, hlt, ?_, ?_, hback⟩
        · rw [hfound, List.length_cons]
          omega
        · exact List.forall_mem_cons.mpr ⟨hle.trans_lt hlt, hfront⟩

theorem isFirstHighest_victim {cache : Cache} (h : TimesFit cache.slots) :
    ∃ victim, cache.slots[evictCacheEntry cache]? = some victim ∧
      IsFirstHighest Slot.cacheAge cache.slots victim := by
  rcases oldestFrom_cases (i := 0) h 0 0 with ⟨-, hall⟩ |
    ⟨victim, front, back, hslots, -, hi, hfront, hback⟩
  · have hslot := List.getElem_mem (evictCacheEntry_lt cache)
    exact absurd (h _ hslot).1 (Int.not_lt.mpr (hall _ hslot))
  · refine ⟨victim, ?_, front, back, hslots, hfront, hback⟩
    rw [evictCacheEntry, hi, Nat.zero_add, hslots, getElem?_append_cons]

/-- The victim has the smallest time only if all are the same. -/
theorem victim_smallest_iff_of_fits {cache : Cache} {victim : Slot} (h : TimesFit cache.slots)
    (hvictim : cache.slots[evictCacheEntry cache]? = some victim) :
    (∀ other ∈ cache.slots, victim.cacheAge ≤ other.cacheAge) ↔
      ∀ other ∈ cache.slots, other.cacheAge = victim.cacheAge := by
  obtain ⟨found, hfound, hhighest⟩ := isFirstHighest_victim h
  obtain rfl := Option.some.inj (hvictim.symm.trans hfound)
  have hlargest := (isFirstHighest_iff.mp hhighest).2
  constructor
  · intro hsmallest other hother
    exact le_antisymm (hlargest other hother) (hsmallest other hother)
  · intro hsame other hother
    exact (hsame other hother).ge

theorem oldestFrom_three (x y z : Slot) : oldestFrom 0 0 0 [x, y, z] =
    if firstAge x.cacheAge < y.cacheAge then if toInt y.cacheAge < z.cacheAge then 2 else 1
    else if firstAge x.cacheAge < z.cacheAge then 2 else 0 := by
  by_cases hfirst : 0 < x.cacheAge
  · simp only [oldestFrom, firstAge, if_pos hfirst, Nat.zero_add]
  · simp only [oldestFrom, firstAge, if_neg hfirst, Nat.zero_add]

theorem firstAge_cases (first : ℤ) : (0 < first ∧ firstAge first = toInt first ∧ toInt first ≤ first) ∨
    (first ≤ 0 ∧ firstAge first = 0) := by
  by_cases hfirst : 0 < first
  · exact .inl ⟨hfirst, if_pos hfirst, toInt_le (by omega)⟩
  · exact .inr ⟨Int.not_lt.mp hfirst, if_neg hfirst⟩

/-- For other times, the scan finds an entry with the smallest one exactly for those of `AgesFit`. -/
theorem victim_smallest_iff {x y z victim : Slot}
    (h : [x, y, z][oldestFrom 0 0 0 [x, y, z]]? = some victim) :
    (∀ other ∈ [x, y, z], victim.cacheAge ≤ other.cacheAge) ↔
      AgesFit x.cacheAge y.cacheAge z.cacheAge := by
  have hfirst := firstAge_cases x.cacheAge
  rw [oldestFrom_three] at h
  simp only [List.forall_mem_cons, List.not_mem_nil, false_imp_iff, implies_true, and_true]
  split_ifs at h with hy hz hz
  · obtain rfl : z = victim := Option.some.inj h
    constructor
    · rintro ⟨hzx, hzy, -⟩
      exact .inr (.inr (.inr ⟨hy, hz, hzx, hzy⟩))
    · rintro (hages | hages | hages | hages) <;> omega
  · obtain rfl : y = victim := Option.some.inj h
    have hlow := le_toInt x.cacheAge
    constructor
    · rintro ⟨hyx, -, hyz⟩
      have hkept : 0 < x.cacheAge ∧ firstAge x.cacheAge = toInt x.cacheAge := by omega
      rw [hkept.2] at hy
      have hle : toInt y.cacheAge ≤ y.cacheAge := toInt_le (by omega)
      exact .inr (.inr (.inl ⟨hkept.1, hy, hyx, by omega, by omega⟩))
    · have hle : -2 ^ 31 ≤ y.cacheAge → toInt y.cacheAge ≤ y.cacheAge := toInt_le
      rintro (hages | hages | hages | hages) <;> omega
  · obtain rfl : z = victim := Option.some.inj h
    constructor
    · intro hsmallest
      omega
    · rintro (hages | hages | hages | hages) <;> omega
  · obtain rfl : x = victim := Option.some.inj h
    constructor
    · rintro ⟨-, hxy, hxz⟩
      by_cases hequal : x.cacheAge = y.cacheAge ∧ y.cacheAge = z.cacheAge
      · exact .inl hequal
      · exact .inr (.inl ⟨by omega, by omega, hxy, hxz⟩)
    · rintro (hages | hages | hages | hages) <;> omega

/-! ## What a lookup can do -/

/-- Nothing, hand out a kept stylesheet, parse the file of an entry again, or make an entry in an empty slot
or in the place of the victim. -/
inductive Outcome (cache : Cache) (lookup : Lookup) : Option Stylesheet × Cache → Prop where
  | missing (hstat : lookup.stat = none) : Outcome cache lookup (none, cache)
  | kept {mtime : ℤ} {slot : Slot} (hstat : lookup.stat = some mtime) (hslot : slot ∈ cache.slots)
      (hname : slot.filename = some lookup.fn) (hold : mtime ≤ slot.lastModified) :
      Outcome cache lookup (slot.stylesheet, cache)
  | refreshed {mtime : ℤ} {slot : Slot} {front back : List Slot} {after : Cache}
      (hstat : lookup.stat = some mtime) (hbefore : cache.slots = front ++ slot :: back)
      (hname : slot.filename = some lookup.fn) (hnew : slot.lastModified < mtime)
      (hafter : after.slots = front ++ ⟨some lookup.fn, mtime, lookup.now, lookup.sheet⟩ :: back) :
      Outcome cache lookup (lookup.sheet, after)
  | loaded {mtime : ℤ} {slot : Slot} {front back : List Slot} {after : Cache}
      (hstat : lookup.stat = some mtime) (hbefore : cache.slots = front ++ slot :: back)
      (hmiss : lookup.fn ∉ cache.names)
      (hplace : slot.filename = none ∨
        none ∉ cache.slots.map Slot.filename ∧ front.length = evictCacheEntry cache)
      (hafter : after.slots = front ++ lookup.entry mtime :: back) :
      Outcome cache lookup (lookup.sheet, after)

theorem set_slots {cache : Cache} (h : cache.slots = front ++ slot :: back) (new : Slot) :
    (cache.set front.length new).slots = front ++ new :: back := by
  calc
    (cache.set front.length new).slots = (front ++ slot :: back).set front.length new := by rw [← h]; rfl
    _ = front ++ new :: back := set_append_cons front slot back new

theorem eq_fn_of_mem_entry {lookup : Lookup} {mtime : ℤ} (h : name ∈ (lookup.entry mtime).filename) :
    name = lookup.fn := by
  rw [Lookup.entry, Option.mem_def, Option.ite_none_right_eq_some] at h
  exact (Option.some.inj h.2).symm

theorem xsltGetStylesheet_outcome (cache : Cache) (lookup : Lookup) :
    Outcome cache lookup (xsltGetStylesheet cache lookup) := by
  unfold xsltGetStylesheet
  cases hstat : lookup.stat with
  | none => exact .missing hstat
  | some mtime =>
    dsimp only
    cases hfind : find lookup.fn 0 none cache.slots with
    | hit i slot =>
      obtain ⟨hname, front, back, hbefore, hi⟩ := find_hit hfind
      rw [Nat.zero_add] at hi
      dsimp only
      split_ifs with hnew
      · rw [hi]
        apply Outcome.refreshed hstat hbefore hname hnew
        rw [set_slots hbefore, hname]
      · exact .kept hstat (mem_of_eq_append_cons hbefore) hname (Int.not_lt.mp hnew)
    | miss empty =>
      obtain ⟨hmiss, ⟨rfl, hfull⟩ | ⟨slot, front, back, hbefore, hnone, rfl⟩⟩ := find_miss hfind
      · obtain ⟨slot, front, back, hbefore, hlength⟩ :=
          exists_eq_append_cons (evictCacheEntry_lt cache)
        apply Outcome.loaded hstat hbefore hmiss (.inr ⟨hfull, hlength⟩)
        rw [Option.getD_none, ← hlength, set_slots hbefore]
      · apply Outcome.loaded hstat hbefore hmiss (.inl hnone)
        rw [Option.getD_some, Nat.zero_add, set_slots hbefore]

/-! ## One entry for each name -/

/-- What is written has a name that no other slot has. -/
theorem Outcome.single {cache : Cache} {lookup : Lookup} {result : Option Stylesheet × Cache}
    (h : Outcome cache lookup result) (hsingle : cache.names.Nodup) : result.2.names.Nodup := by
  cases h with
  | missing => exact hsingle
  | kept => exact hsingle
  | refreshed hstat hbefore hname hnew hafter =>
    rw [Cache.names, hbefore, nodup_keysOf_append_cons, hname] at hsingle
    rwa [Cache.names, hafter, nodup_keysOf_append_cons]
  | loaded hstat hbefore hmiss hplace hafter =>
    rw [Cache.names, hbefore] at hsingle hmiss
    rw [Cache.names, hafter, nodup_keysOf_append_cons]
    refine ⟨(nodup_keysOf_append_cons.mp hsingle).1, fun name hname hmem ↦ ?_⟩
    rw [eq_fn_of_mem_entry hname] at hmem
    exact hmiss (mem_keysOf_append_cons.mpr (.inr hmem))

/-! ## The victim -/

theorem leastVictim_of_subset {before after : Cache} (h : ∀ name ∈ before.names, name ∈ after.names) :
    LeastVictim before after := by
  intro victim hvictim name hname hgone
  exact absurd (h name (mem_keysOf_of_mem hvictim hname)) hgone

/-- The entry that another name is written over is the only one that is given up. -/
theorem leastVictim_iff_of_evicted {before after : Cache} {new : Slot} (hsingle : before.names.Nodup)
    (hbefore : before.slots = front ++ slot :: back) (hafter : after.slots = front ++ new :: back)
    (hname : slot.filename = some name) (hgone : ∀ other ∈ new.filename, other ∉ before.names) :
    LeastVictim before after ↔ ∀ other ∈ before.slots, slot.cacheAge ≤ other.cacheAge := by
  have hslot : slot ∈ before.slots := mem_of_eq_append_cons hbefore
  have hheld : name ∈ before.names := mem_keysOf_of_mem hslot hname
  constructor
  · intro h
    apply h slot hslot name hname
    rw [Cache.names, hafter, mem_keysOf_append_cons, not_or]
    rw [Cache.names, hbefore, nodup_keysOf_append_cons] at hsingle
    exact ⟨fun hnew ↦ hgone name hnew hheld, hsingle.2 name hname⟩
  · intro h victim hvictim other hother hnot
    rw [Cache.names, hafter, mem_keysOf_append_cons, not_or] at hnot
    have hsame : other = name := by
      have hmem : other ∈ before.names := mem_keysOf_of_mem hvictim hother
      rw [Cache.names, hbefore, mem_keysOf_append_cons, hname] at hmem
      exact (Option.some.inj (hmem.resolve_right hnot.2)).symm
    rw [eq_of_key_eq hsingle hslot hname hvictim (hsame ▸ hother)]
    exact h

theorem exists_slots (cache : Cache) : ∃ x y z, cache.slots = [x, y, z] :=
  List.length_eq_three.mp cache.size

theorem Outcome.leastVictim_iff {cache : Cache} {lookup : Lookup} {result : Option Stylesheet × Cache}
    (h : Outcome cache lookup result) (hsingle : cache.names.Nodup) :
    LeastVictim cache result.2 ↔ EvictsSmallest cache lookup := by
  cases h with
  | missing hstat =>
    refine iff_of_true (leastVictim_of_subset fun _ hmem ↦ hmem) fun hsome ↦ ?_
    rw [hstat] at hsome
    cases hsome
  | kept hstat hslot hname hold =>
    exact iff_of_true (leastVictim_of_subset fun _ hmem ↦ hmem)
      fun _ hmiss ↦ absurd (mem_keysOf_of_mem hslot hname) hmiss
  | refreshed hstat hbefore hname hnew hafter =>
    apply iff_of_true
    · apply leastVictim_of_subset
      intro name hmem
      rw [Cache.names, hbefore, mem_keysOf_append_cons, hname] at hmem
      rwa [Cache.names, hafter, mem_keysOf_append_cons]
    · intro _ hmiss
      rw [Cache.names, hbefore, mem_keysOf_append_cons, not_or] at hmiss
      exact absurd hname hmiss.1
  | @loaded mtime slot _ _ _ hstat hbefore hmiss hplace hafter =>
    have hslot : slot ∈ cache.slots := mem_of_eq_append_cons hbefore
    rcases hplace with hnone | ⟨hfull, hvictim⟩
    · apply iff_of_true
      · apply leastVictim_of_subset
        intro name hmem
        rw [Cache.names, hbefore, mem_keysOf_append_cons, hnone] at hmem
        rw [Cache.names, hafter, mem_keysOf_append_cons]
        exact .inr (hmem.resolve_left (Option.some_ne_none name ∘ Eq.symm))
      · intro _ _ hfull
        exact absurd (List.mem_map.mpr ⟨slot, hslot, hnone⟩) hfull
    · obtain ⟨x, y, z, hslots⟩ := exists_slots cache
      have hheld : ∃ name, slot.filename = some name := by
        apply Option.ne_none_iff_exists'.mp
        intro hnone
        exact hfull (List.mem_map.mpr ⟨slot, hslot, hnone⟩)
      obtain ⟨name, hname⟩ := hheld
      have hgone : ∀ other ∈ (lookup.entry mtime).filename, other ∉ cache.names := by
        intro other hother
        rwa [eq_fn_of_mem_entry hother]
      have hfound : [x, y, z][oldestFrom 0 0 0 [x, y, z]]? = some slot := by
        rw [evictCacheEntry] at hvictim
        rw [← hslots, ← hvictim, hbefore, getElem?_append_cons]
      rw [leastVictim_iff_of_evicted hsingle hbefore hafter hname hgone, hslots,
        victim_smallest_iff hfound]
      constructor
      · intro hages _ _ _ x' y' z' hsame
        rw [hslots] at hsame
        injection hsame with hx hrest
        injection hrest with hy hrest
        injection hrest with hz
        rwa [← hx, ← hy, ← hz]
      · intro hages
        exact hages (by rw [hstat]; rfl) hmiss hfull x y z hslots

/-! ## Times -/

variable {since : Since} {state : State} {lookup : Lookup} {mtime parsed : ℤ}

theorem step_seen_fn (hstat : lookup.stat = some mtime) :
    (step since state lookup).seen lookup.fn = state.see since lookup.fn mtime := by
  rw [step, hstat]
  exact Function.update_self ..

theorem step_seen_of_ne (hne : name ≠ lookup.fn) :
    (step since state lookup).seen name = state.seen name := by
  rw [step]
  cases lookup.stat with
  | none => rfl
  | some mtime => exact Function.update_of_ne hne ..

theorem step_seen_of_none (hstat : lookup.stat = none) : (step since state lookup).seen = state.seen := by
  rw [step, hstat]

theorem holds_iff {cache : Cache} : cache.holds fn ↔ fn ∈ cache.names := by
  rw [Cache.holds, List.any_eq_true, Cache.names, mem_keysOf]
  simp only [decide_eq_true_eq]

theorem mem_see_iff {other : ℤ} : other ∈ state.see since fn mtime ↔
    other = mtime ∨ ((since = .entry → fn ∈ state.cache.names) ∧ other ∈ state.seen fn) := by
  rw [State.see, ← holds_iff]
  split_ifs with hforgotten
  · have hnot : ¬ (since = .entry → state.cache.holds fn) := fun h ↦ hforgotten.2 (h hforgotten.1)
    rw [List.mem_singleton, or_iff_left]
    exact fun h ↦ hnot h.1
  · have hcount : since = .entry → state.cache.holds fn := by
      intro hentry
      by_contra hmiss
      exact hforgotten ⟨hentry, hmiss⟩
    rw [List.mem_append, List.mem_singleton, or_comm, and_iff_right hcount]

/-- What an entry says about its file, with the times seen for it. -/
structure Current (since : Since) (seen : List ℤ) (name : Name) (slot : Slot) : Prop where
  file : ∀ sheet ∈ slot.stylesheet, sheet.filename = name
  kept : ∀ sheet ∈ slot.stylesheet, slot.lastModified ≤ sheet.mtime
  newest : ∀ sheet ∈ slot.stylesheet, ∀ mtime ∈ seen, mtime ≤ sheet.mtime
  modified : since = .entry → ∀ mtime ∈ seen, mtime ≤ slot.lastModified

structure Invariant (since : Since) (state : State) : Prop where
  single : state.cache.names.Nodup
  current : ∀ slot ∈ state.cache.slots, ∀ name ∈ slot.filename,
    Current since (state.seen name) name slot

theorem invariant_start (since : Since) : Invariant since start where
  single := by
    rw [Cache.names, keysOf, List.filterMap_eq_nil_iff.mpr]
    · exact List.nodup_nil
    · intro slot hslot
      rw [List.eq_of_mem_replicate hslot]
  current := by
    intro slot hslot name hname
    rw [List.eq_of_mem_replicate hslot] at hname
    cases hname

/-- A file that is read is the newest one if and only if it is not older than when it was looked at and,
where all times count, not older than before. -/
theorem see_le_iff (h : Invariant since state) (hreads : Reads state.cache lookup mtime) :
    (∀ other ∈ state.see since lookup.fn mtime, other ≤ parsed) ↔
      mtime ≤ parsed ∧ (since = .ever → ∀ earlier ∈ state.seen lookup.fn, earlier ≤ parsed) := by
  constructor
  · intro hall
    refine ⟨hall mtime (mem_see_iff.mpr (.inl rfl)), fun hever earlier hearlier ↦ ?_⟩
    apply hall earlier (mem_see_iff.mpr (.inr ⟨fun hentry ↦ ?_, hearlier⟩))
    rw [hever] at hentry
    cases hentry
  · rintro ⟨hmtime, hearlier⟩ other hother
    rcases mem_see_iff.mp hother with rfl | ⟨hcount, hmem⟩
    · exact hmtime
    · cases since with
      | ever => exact hearlier rfl other hmem
      | entry =>
        obtain ⟨slot, hslot, hname⟩ := mem_keysOf.mp (hcount rfl)
        calc
          other ≤ slot.lastModified := (h.current slot hslot lookup.fn hname).modified rfl other hmem
          _ ≤ mtime := (hreads slot hslot hname).le
          _ ≤ parsed := hmtime

/-- A lookup returns the stylesheet of an entry that is not older, or what it reads. -/
theorem returned_cases (hstat : lookup.stat = some mtime) (hsingle : state.cache.names.Nodup) :
    (∃ slot ∈ state.cache.slots, slot.filename = some lookup.fn ∧ mtime ≤ slot.lastModified ∧
        xsltGetStylesheet state.cache lookup = (slot.stylesheet, state.cache)) ∨
      (Reads state.cache lookup mtime ∧ (xsltGetStylesheet state.cache lookup).1 = lookup.sheet) := by
  have houtcome := xsltGetStylesheet_outcome state.cache lookup
  generalize xsltGetStylesheet state.cache lookup = result at houtcome ⊢
  cases houtcome with
  | missing hnone =>
    rw [hstat] at hnone
    cases hnone
  | kept hsome hslot hname hold =>
    obtain rfl := Option.some.inj (hstat.symm.trans hsome)
    exact .inl ⟨_, hslot, hname, hold, rfl⟩
  | refreshed hsome hbefore hname hnew hafter =>
    obtain rfl := Option.some.inj (hstat.symm.trans hsome)
    refine .inr ⟨fun other hother hsame ↦ ?_, rfl⟩
    rwa [eq_of_key_eq hsingle (mem_of_eq_append_cons hbefore) hname hother hsame]
  | loaded hsome hbefore hmiss hplace hafter =>
    exact .inr ⟨fun other hother hsame ↦ absurd (mem_keysOf_of_mem hother hsame) hmiss, rfl⟩

theorem mem_sheet {sheet : Stylesheet} :
    sheet ∈ lookup.sheet ↔ ∃ parsed ∈ lookup.parsed, sheet = ⟨lookup.fn, parsed⟩ := by
  rw [Lookup.sheet, Option.mem_map]
  apply exists_congr
  intro parsed
  rw [eq_comm (a := sheet)]

/-- A kept stylesheet is the newest one; one that is read is it on the condition of `see_le_iff`. -/
theorem returnsNewest_iff (h : Invariant since state) :
    ReturnsNewest since state lookup ↔ ParsesNewest since state lookup := by
  unfold ReturnsNewest ParsesNewest
  cases hstat : lookup.stat with
  | none =>
    apply iff_of_true
    · intro sheet hsheet
      rw [xsltGetStylesheet, hstat] at hsheet
      cases hsheet
    · intro mtime hmtime
      cases hmtime
  | some mtime =>
    rw [step_seen_fn hstat]
    rcases returned_cases hstat h.single with ⟨slot, hslot, hname, hold, hresult⟩ | ⟨hreads, hresult⟩
    · apply iff_of_true
      · intro sheet hsheet
        rw [hresult] at hsheet
        have hcurrent := h.current slot hslot lookup.fn hname
        refine ⟨hcurrent.file sheet hsheet, fun other hother ↦ ?_⟩
        rcases mem_see_iff.mp hother with rfl | ⟨-, hmem⟩
        · exact hold.trans (hcurrent.kept sheet hsheet)
        · exact hcurrent.newest sheet hsheet other hmem
      · intro other hother parsed _ hreads
        obtain rfl := Option.some.inj hother
        exact absurd hold (Int.not_le.mpr (hreads slot hslot hname))
    · rw [hresult]
      constructor
      · intro hall other hother parsed hparsed _
        obtain rfl := Option.some.inj hother
        exact (see_le_iff h hreads).mp (hall _ (mem_sheet.mpr ⟨parsed, hparsed, rfl⟩)).2
      · intro hall sheet hsheet
        obtain ⟨parsed, hparsed, rfl⟩ := mem_sheet.mp hsheet
        exact ⟨rfl, (see_le_iff h hreads).mpr (hall mtime rfl parsed hparsed hreads)⟩

theorem single_step (h : Invariant since state) : (step since state lookup).cache.names.Nodup :=
  (xsltGetStylesheet_outcome state.cache lookup).single h.single

/-- One lookup does what it is for exactly then. -/
theorem sound_iff_good (h : Invariant since state) :
    Sound since state lookup ↔ Good since state lookup := by
  have hvictim := (xsltGetStylesheet_outcome state.cache lookup).leastVictim_iff h.single
  constructor
  · intro hsound
    exact ⟨hvictim.mp hsound.victim, (returnsNewest_iff h).mp hsound.newest⟩
  · intro hgood
    exact ⟨single_step h, (returnsNewest_iff h).mpr hgood.newest, hvictim.mpr hgood.victim⟩

/-! ## Every sequence of lookups -/

/-- An entry that is not written is as current as before: nothing newer was seen. -/
theorem Current.step_of_kept {slot : Slot} (h : Current since (state.seen name) name slot)
    (hold : name = lookup.fn → ∀ mtime ∈ lookup.stat, mtime ≤ slot.lastModified) :
    Current since ((step since state lookup).seen name) name slot := by
  have hseen : ∀ mtime ∈ (step since state lookup).seen name,
      mtime ≤ slot.lastModified ∨ mtime ∈ state.seen name := by
    intro mtime hmtime
    by_cases hname : name = lookup.fn
    · cases hstat : lookup.stat with
      | none =>
        rw [step_seen_of_none hstat] at hmtime
        exact .inr hmtime
      | some found =>
        rw [hname, step_seen_fn hstat] at hmtime
        rcases mem_see_iff.mp hmtime with rfl | ⟨-, hmem⟩
        · exact .inl (hold hname mtime hstat)
        · exact .inr (hname ▸ hmem)
    · rw [step_seen_of_ne hname] at hmtime
      exact .inr hmtime
  refine ⟨h.file, h.kept, fun sheet hsheet mtime hmtime ↦ ?_, fun hentry mtime hmtime ↦ ?_⟩
  · rcases hseen mtime hmtime with hle | hmem
    · exact hle.trans (h.kept sheet hsheet)
    · exact h.newest sheet hsheet mtime hmem
  · rcases hseen mtime hmtime with hle | hmem
    · exact hle
    · exact h.modified hentry mtime hmem

/-- So is one that was written, if the file is read when it is the newest. -/
theorem Current.step_of_written {slot : Slot} (h : Invariant since state)
    (hnewest : ParsesNewest since state lookup) (hstat : lookup.stat = some mtime)
    (hreads : Reads state.cache lookup mtime) (hmtime : slot.lastModified = mtime)
    (hsheet : slot.stylesheet = lookup.sheet) :
    Current since ((step since state lookup).seen lookup.fn) lookup.fn slot := by
  have hparsed : ∀ sheet ∈ slot.stylesheet, ∃ parsed, sheet = ⟨lookup.fn, parsed⟩ ∧ mtime ≤ parsed ∧
      (since = .ever → ∀ earlier ∈ state.seen lookup.fn, earlier ≤ parsed) := by
    intro sheet hmem
    rw [hsheet] at hmem
    obtain ⟨parsed, hparsed, rfl⟩ := mem_sheet.mp hmem
    exact ⟨parsed, rfl, hnewest mtime hstat parsed hparsed hreads⟩
  rw [step_seen_fn hstat]
  constructor
  · intro sheet hmem
    obtain ⟨parsed, rfl, -⟩ := hparsed sheet hmem
    rfl
  · intro sheet hmem
    obtain ⟨parsed, rfl, hle, -⟩ := hparsed sheet hmem
    rwa [hmtime]
  · intro sheet hmem
    obtain ⟨parsed, rfl, hboth⟩ := hparsed sheet hmem
    exact (see_le_iff h hreads).mpr hboth
  · intro hentry
    rw [hmtime]
    apply (see_le_iff h hreads).mpr
    refine ⟨le_rfl, fun hever ↦ ?_⟩
    rw [hentry] at hever
    cases hever

/-- The other slots have other names, and are kept. -/
theorem Invariant.step_of_written {new : Slot} (h : Invariant since state)
    (hnewest : ParsesNewest since state lookup) (hstat : lookup.stat = some mtime)
    (hreads : Reads state.cache lookup mtime) (hbefore : state.cache.slots = front ++ slot :: back)
    (hothers : lookup.fn ∉ keysOf Slot.filename (front ++ back))
    (hname : ∀ name ∈ new.filename, name = lookup.fn)
    (hmtime : new.lastModified = mtime) (hsheet : new.stylesheet = lookup.sheet) :
    ∀ other ∈ front ++ new :: back, ∀ name ∈ other.filename,
      Current since ((StylesheetCache.step since state lookup).seen name) name other := by
  intro other hother name hsame
  rcases mem_append_cons_iff.mp hother with rfl | hmem
  · rw [hname name hsame]
    exact Current.step_of_written h hnewest hstat hreads hmtime hsheet
  · have hbehind : other ∈ state.cache.slots := by
      rw [hbefore]
      exact mem_append_cons_iff.mpr (.inr hmem)
    apply (h.current other hbehind name hsame).step_of_kept
    intro hfn
    exact absurd (mem_keysOf_of_mem hmem (hfn ▸ hsame)) hothers

/-- What one lookup preserves. -/
theorem Invariant.step (h : Invariant since state) (hnewest : ParsesNewest since state lookup) :
    Invariant since (step since state lookup) := by
  have houtcome := xsltGetStylesheet_outcome state.cache lookup
  refine ⟨single_step h, ?_⟩
  change ∀ slot ∈ (xsltGetStylesheet state.cache lookup).2.slots, _
  generalize xsltGetStylesheet state.cache lookup = result at houtcome
  cases houtcome with
  | missing hstat =>
    intro slot hslot name hname
    rw [step_seen_of_none hstat]
    exact h.current slot hslot name hname
  | kept hstat hslot hname hold =>
    intro other hother name hsame
    apply (h.current other hother name hsame).step_of_kept
    intro hfn mtime hmtime
    rw [hstat] at hmtime
    obtain rfl := Option.some.inj hmtime
    rwa [eq_of_key_eq h.single hslot hname hother (hfn ▸ hsame)]
  | refreshed hstat hbefore hname hnew hafter =>
    have hsingle := h.single
    rw [Cache.names, hbefore, nodup_keysOf_append_cons] at hsingle
    rw [hafter]
    apply h.step_of_written hnewest hstat _ hbefore (hsingle.2 _ hname) _ rfl rfl
    · intro other hother hsame
      rwa [eq_of_key_eq h.single (mem_of_eq_append_cons hbefore) hname hother hsame]
    · intro name hmem
      exact (Option.some.inj hmem).symm
  | loaded hstat hbefore hmiss hplace hafter =>
    have hothers := hmiss
    rw [Cache.names, hbefore, mem_keysOf_append_cons, not_or] at hothers
    rw [hafter]
    apply h.step_of_written hnewest hstat _ hbefore hothers.2 _ rfl rfl
    · intro other hother hsame
      exact absurd (mem_keysOf_of_mem hother hsame) hmiss
    · intro name hmem
      exact eq_fn_of_mem_entry hmem

/-- Whatever the victims are: names are single and stylesheets the newest if and only if no file is older
when it is parsed than what was seen of it. -/
theorem stylesheets_newest_iff (since : Since) (lookups : List Lookup) :
    Guarded (step since) (fun state lookup ↦
        (step since state lookup).cache.names.Nodup ∧ ReturnsNewest since state lookup) start lookups ↔
      Guarded (step since) (ParsesNewest since) start lookups :=
  guarded_congr (step since) (Invariant since)
    (fun _ _ h ↦ (and_iff_right (single_step h)).trans (returnsNewest_iff h))
    (fun _ _ h hnewest ↦ h.step hnewest) lookups (invariant_start since)

/-- In every sequence of lookups each does what it is for if and only if the scan of a full cache stops at a
smallest time, and no file is older when it is parsed than what was seen of it. -/
theorem stylesheet_cache_iff (since : Since) (lookups : List Lookup) :
    Guarded (step since) (Sound since) start lookups ↔ Guarded (step since) (Good since) start lookups :=
  guarded_congr (step since) (Invariant since) (fun _ _ h ↦ sound_iff_good h)
    (fun _ _ h hgood ↦ h.step hgood.newest) lookups (invariant_start since)

/-- Four stylesheets that are loaded one after another: the third entry is given up, not the first. -/
theorem stylesheet_cache_evicts_newest :
    ¬ ∃ since, ∀ lookups, Guarded (step since) (Sound since) start lookups := by
  rintro ⟨since, h⟩
  have hguarded := h [⟨[97], some 10, some 10, true, 1000⟩, ⟨[98], some 10, some 10, true, 2000⟩,
    ⟨[99], some 10, some 10, true, 3000⟩, ⟨[100], some 10, some 10, true, 4000⟩]
  have hle : (3000 : ℤ) ≤ 1000 := hguarded.2.2.2.1.victim ⟨some [99], 10, 3000, some ⟨[99], 10⟩⟩
    List.mem_cons_self [99] rfl (by cases since <;> decide) ⟨some [97], 10, 1000, some ⟨[97], 10⟩⟩
    (List.mem_cons_of_mem _ (List.mem_cons_of_mem _ List.mem_cons_self))
  exact absurd hle (by decide)

end Icecast.Xslt.StylesheetCache
