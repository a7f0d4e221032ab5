import Mathlib.Data.List.Infix
import Mathlib.Data.List.TakeWhile
import Mathlib.Data.Nat.Notation

/-!
# Request URIs and the webroot

`util_normalise_uri` (`util.c`) decodes the percent escapes of a request URI and checks the result
with a small automaton before it is appended to the webroot. What a path names is said by resolving
it lexically: `.` and empty components stay where they are, `..` goes up, anything else goes down.

The automaton rejects a component of dots when it sees the separator behind it, so such a component
can only be the last one. A path that ends in `..` goes up once, which leaves the webroot if nothing
else stands before it.
-/

namespace Icecast.Util.Uri

abbrev Bytes := List UInt8

def percent : UInt8 := 37
def hash : UInt8 := 35
def dot : UInt8 := 46
def slash : UInt8 := 47
def backslash : UInt8 := 92

/-- The C string at the start of a buffer. -/
def cString (buffer : Bytes) : Bytes := buffer.takeWhile (· ≠ 0)

def hex (c : UInt8) : Option ℕ :=
  if 48 ≤ c ∧ c ≤ 57 then some (c.toNat - 48)
  else if 65 ≤ c ∧ c ≤ 70 then some (c.toNat - 65 + 10)
  else if 97 ≤ c ∧ c ≤ 102 then some (c.toNat - 97 + 10)
  else none

/-- The loop of `util_url_unescape`: everything from a `#` on is dropped. -/
def unescapeLoop : Bytes → Option Bytes
  | [] => some []
  | c :: rest =>
    if c = percent then
      match rest with
      | first :: second :: rest =>
        match hex first, hex second with
        | some high, some low => (unescapeLoop rest).map (UInt8.ofNat (high * 16 + low) :: ·)
        | _, _ => none
      | _ => none
    else if c = hash then some []
    else (unescapeLoop rest).map (c :: ·)

/-- A decoded NUL ends the string that is returned. -/
def utilUrlUnescape (src : Bytes) : Option Bytes := (unescapeLoop (cString src)).map cString

/-- `verify_path` from its two flags on: `dir` behind a separator, `indotseq` in a component that
began with a dot and has only had dots so far. -/
def verifyPath (dir indotseq : Bool) : Bytes → Bool
  | [] => true
  | c :: path =>
    if c = slash ∨ c = backslash then
      if indotseq then false else if dir then false else verifyPath true indotseq path
    else verifyPath false (if dir || indotseq then c = dot else indotseq) path

def utilNormaliseUri (uri : Bytes) : Option Bytes :=
  if uri.head? ≠ some slash then none
  else
    match utilUrlUnescape uri with
    | none => none
    | some path => if verifyPath false false path then some path else none

def utilGetPathFromNormalisedUri (webroot uri : Bytes) : Bytes := webroot ++ uri

def utilGetPathFromUri (webroot uri : Bytes) : Option Bytes :=
  (utilNormaliseUri uri).map (utilGetPathFromNormalisedUri webroot)

/-! ## Lexical resolution -/

def components (path : Bytes) : List Bytes := path.splitOn slash

/-- Follow components from the directories in `stack`, the innermost first. The result is `none`
when the path climbs above the directory it started with. -/
def resolve : List Bytes → List Bytes → Option (List Bytes)
  | stack, [] => some stack
  | stack, component :: rest =>
    if component = [] ∨ component = [dot] then resolve stack rest
    else if component = [dot, dot] then
      match stack with
      | [] => none
      | _ :: stack => resolve stack rest
    else resolve (component :: stack) rest

theorem resolve_append (stack first second : List Bytes) :
    resolve stack (first ++ second) = (resolve stack first).bind (resolve · second) := by
  induction first generalizing stack with
  | nil => rfl
  | cons component first ih =>
    rw [List.cons_append, resolve.eq_def, resolve.eq_def stack (component :: first)]
    dsimp only
    split
    · exact ih stack
    · split
      · cases stack with
        | nil => rfl
        | cons _ stack => exact ih stack
      · exact ih (component :: stack)

theorem components_append_slash {component : Bytes} (h : slash ∉ component) (path : Bytes) :
    components (component ++ slash :: path) = component :: components path :=
  List.splitOn_append_cons_self_of_not_mem h path

theorem components_of_no_slash {path : Bytes} (h : slash ∉ path) : components path = [path] :=
  List.splitOn_eq_singleton h

/-- Neither `.` nor `..` nor empty. -/
def Plain (component : Bytes) : Prop :=
  component ≠ [] ∧ component ≠ [dot] ∧ component ≠ [dot, dot]

theorem resolve_plain {component : Bytes} (h : Plain component) (stack rest : List Bytes) :
    resolve stack (component :: rest) = resolve (component :: stack) rest := by
  simp [resolve, h.1, h.2.1, h.2.2]

/-! ## The automaton -/

/-- The flags do not matter behind the next slash. -/
theorem verifyPath_behind_slash {dir indotseq : Bool} (component path : Bytes)
    (h : verifyPath dir indotseq (component ++ slash :: path) = true) :
    verifyPath true false path = true := by
  induction component generalizing dir indotseq with
  | nil => cases dir <;> cases indotseq <;> simp_all [verifyPath]
  | cons c component ih =>
    rw [List.cons_append, verifyPath] at h
    split at h
    · split at h
      · cases h
      · split at h
        · cases h
        · exact ih h
    · exact ih h

theorem plain_of_verifyPath {component path : Bytes}
    (h : verifyPath true false (component ++ slash :: path) = true) : Plain component := by
  refine ⟨?_, ?_, ?_⟩
  all_goals
    rintro rfl
    revert h
    simp [verifyPath, slash, dot, backslash]

/-- Behind a slash, an accepted path goes down from any directory unless it is just `..`. -/
theorem resolve_of_verifyPath (path : Bytes) (h : verifyPath true false path = true)
    (hup : path ≠ [dot, dot]) :
    ∃ below, ∀ stack, resolve stack (components path) = some (below ++ stack) := by
  by_cases hslash : slash ∈ path
  · obtain ⟨component, rest, hpath, hfirst⟩ := List.eq_append_cons_of_mem hslash
    have hshorter : rest.length < path.length := by
      rw [hpath, List.length_append, List.length_cons]
      omega
    rw [hpath] at h
    have hplain := plain_of_verifyPath h
    rw [hpath, components_append_slash hfirst]
    by_cases hrest : rest = [dot, dot]
    · refine ⟨[], fun stack ↦ ?_⟩
      rw [resolve_plain hplain, hrest]
      rfl
    · obtain ⟨below, hbelow⟩ :=
        resolve_of_verifyPath rest (verifyPath_behind_slash component rest h) hrest
      refine ⟨below ++ [component], fun stack ↦ ?_⟩
      rw [resolve_plain hplain, hbelow, List.append_assoc]
      rfl
  · rw [components_of_no_slash hslash]
    by_cases hstay : path = [] ∨ path = [dot]
    · exact ⟨[], fun stack ↦ by simp [resolve, hstay]⟩
    · exact ⟨[path], fun stack ↦ by simp [resolve, hstay, hup]⟩
termination_by path.length
decreasing_by exact hshorter

/-! ## Containment -/

/-- No prefix of the path climbs above the root, and behind a webroot the path names something
inside of it, wherever the webroot is resolved from. -/
def Contained (path : Bytes) : Prop :=
  (∀ first, first <+: components path → resolve [] first ≠ none) ∧
  ∀ webroot directory base, resolve directory (components webroot) = some base →
    ∃ below, resolve directory (components (utilGetPathFromNormalisedUri webroot path)) =
      some (below ++ base)

/-- The path of the parent directory is the only one that is accepted and leaves the webroot. -/
theorem contained_iff {path : Bytes} (h : verifyPath true false path = true) :
    Contained (slash :: path) ↔ path ≠ [dot, dot] := by
  have hcomponents : components (slash :: path) = [] :: components path :=
    components_append_slash List.not_mem_nil path
  constructor
  · rintro ⟨hbelow, -⟩ rfl
    exact hbelow _ (List.prefix_refl _) (by decide)
  · intro hup
    obtain ⟨below, hbelow⟩ := resolve_of_verifyPath path h hup
    refine ⟨?_, ?_⟩
    · rintro first ⟨second, hsecond⟩ hnone
      have hall := resolve_append [] first second
      rw [hsecond, hnone, hcomponents] at hall
      have hsome : resolve [] ([] :: components path) = some (below ++ []) := hbelow []
      rw [hsome] at hall
      cases hall
    · intro webroot directory base hbase
      refine ⟨below, ?_⟩
      rw [utilGetPathFromNormalisedUri, components, List.splitOn_append_cons_self, resolve_append]
      rw [← components, hbase]
      exact hbelow base

/-! ## Decoding -/

theorem hex_eq_some_iff {c : UInt8} {n : ℕ} :
    hex c = some n ↔
      (n < 10 ∧ c.toNat = 48 + n) ∨ (10 ≤ n ∧ n < 16 ∧ (c.toNat = 55 + n ∨ c.toNat = 87 + n)) := by
  simp only [hex, UInt8.le_iff_toNat_le]
  split_ifs <;> simp_all <;> omega

theorem hex_lt {c : UInt8} {n : ℕ} (h : hex c = some n) : n < 16 := by
  rw [hex_eq_some_iff] at h
  omega

/-- An escape gives the byte of its two digits. -/
theorem ofNat_hex_eq {high low : ℕ} (hhigh : high < 16) (hlow : low < 16) (c : UInt8) :
    UInt8.ofNat (high * 16 + low) = c ↔ high = c.toNat / 16 ∧ low = c.toNat % 16 := by
  rw [← UInt8.toNat_inj, UInt8.toNat_ofNat', Nat.mod_eq_of_lt (by omega)]
  omega

/-- The ways to write a byte: as itself, or as an escape. -/
def Writes (text : Bytes) (byte : UInt8) : Prop :=
  (text = [byte] ∧ byte ≠ percent ∧ byte ≠ hash) ∨
    ∃ first second, text = [percent, first, second] ∧
      hex first = some (byte.toNat / 16) ∧ hex second = some (byte.toNat % 16)

theorem unescapeLoop_of_writes {text : Bytes} {byte : UInt8} (h : Writes text byte) (rest : Bytes) :
    unescapeLoop (text ++ rest) = (unescapeLoop rest).map (byte :: ·) := by
  rcases h with ⟨rfl, hpercent, hhash⟩ | ⟨first, second, rfl, hfirst, hsecond⟩
  · rw [List.singleton_append, unescapeLoop.eq_def]
    simp [hpercent, hhash]
  · have hbyte := (ofNat_hex_eq (hex_lt hfirst) (hex_lt hsecond) byte).mpr ⟨rfl, rfl⟩
    rw [List.cons_append, List.cons_append, List.singleton_append, unescapeLoop, if_pos rfl, hfirst,
      hsecond]
    simp only [hbyte]

theorem unescapeLoop_hash (rest : Bytes) : unescapeLoop (hash :: rest) = some [] := by
  rw [unescapeLoop.eq_def]
  rfl

/-- Everything that `unescapeLoop` can do without failing. -/
theorem unescapeLoop_cases {src decoded : Bytes} (h : unescapeLoop src = some decoded) :
    ((src = [] ∨ src.head? = some hash) ∧ decoded = []) ∨
      ∃ text byte rest tail, src = text ++ rest ∧ Writes text byte ∧ decoded = byte :: tail ∧
        unescapeLoop rest = some tail := by
  cases src with
  | nil => exact Or.inl ⟨Or.inl rfl, (Option.some.inj h).symm⟩
  | cons c rest =>
    by_cases hhash : c = hash
    · rw [hhash, unescapeLoop_hash] at h
      exact Or.inl ⟨Or.inr (by rw [hhash]; rfl), (Option.some.inj h).symm⟩
    · by_cases hpercent : c = percent
      · -- an escape needs two digits
        rw [unescapeLoop.eq_def] at h
        simp only [hpercent, if_true] at h
        split at h
        · rename_i first second rest
          split at h
          · rename_i high low hhigh hlow
            obtain ⟨tail, htail, rfl⟩ := Option.map_eq_some_iff.mp h
            have hdigits := (ofNat_hex_eq (hex_lt hhigh) (hex_lt hlow) _).mp rfl
            refine Or.inr ⟨[percent, first, second], _, rest, tail, by rw [hpercent]; rfl, ?_, rfl,
              htail⟩
            exact Or.inr ⟨first, second, rfl, hhigh.trans (congrArg some hdigits.1),
              hlow.trans (congrArg some hdigits.2)⟩
          · cases h
        · cases h
      · have hwrites : Writes [c] c := Or.inl ⟨rfl, hpercent, hhash⟩
        rw [← List.singleton_append, unescapeLoop_of_writes hwrites] at h
        obtain ⟨tail, htail, rfl⟩ := Option.map_eq_some_iff.mp h
        exact Or.inr ⟨[c], c, rest, tail, rfl, hwrites, rfl, htail⟩

/-- The URI has decoded to `path`, up to its first NUL. -/
def Decodes (src path : Bytes) : Prop := (unescapeLoop src).map cString = some path

theorem decodes_cons_iff {src path : Bytes} {byte : UInt8} (hbyte : byte ≠ 0) :
    Decodes src (byte :: path) ↔
      ∃ text rest, src = text ++ rest ∧ Writes text byte ∧ Decodes rest path := by
  constructor
  · intro h
    obtain ⟨decoded, hdecoded, hpath⟩ := Option.map_eq_some_iff.mp h
    rcases unescapeLoop_cases hdecoded with ⟨-, rfl⟩ | ⟨text, c, rest, tail, hsrc, hwrites, rfl, htail⟩
    · cases hpath
    · by_cases hc : c = 0
      · simp [cString, hc] at hpath
      · have hcons : c = byte ∧ cString tail = path := by simpa [cString, hc] using hpath
        rw [← hcons.1]
        refine ⟨text, rest, hsrc, hwrites, ?_⟩
        rw [Decodes, htail, ← hcons.2]
        rfl
  · rintro ⟨text, rest, rfl, hwrites, hrest⟩
    obtain ⟨decoded, hdecoded, hpath⟩ := Option.map_eq_some_iff.mp hrest
    rw [Decodes, unescapeLoop_of_writes hwrites, hdecoded]
    simp [cString, hbyte, ← hpath]

/-! ## The parent directory -/

/-- The ways to write a dot. -/
def IsDot (text : Bytes) : Prop :=
  text = [dot] ∨ text = [percent, 50, 69] ∨ text = [percent, 50, 101]

/-- What decodes to nothing: the end of the URI, a `#`, or an escaped NUL before anything that can be
decoded. -/
def EndsPath (tail : Bytes) : Prop :=
  tail = [] ∨ tail.head? = some hash ∨
    ∃ rest, tail = percent :: 48 :: 48 :: rest ∧ (unescapeLoop rest).isSome

/-- The URIs of the parent directory. -/
def EscapingUri (uri : Bytes) : Prop :=
  ∃ first second tail, IsDot first ∧ IsDot second ∧
    cString uri = slash :: (first ++ second ++ tail) ∧ EndsPath tail

theorem writes_dot_iff {text : Bytes} : Writes text dot ↔ IsDot text := by
  have hhigh : dot.toNat / 16 = 2 := rfl
  have hlow : dot.toNat % 16 = 14 := rfl
  have htwo {c : UInt8} : hex c = some 2 ↔ c = 50 := by simp [hex_eq_some_iff, ← UInt8.toNat_inj]
  have hfourteen {c : UInt8} : hex c = some 14 ↔ c = 69 ∨ c = 101 := by
    simp [hex_eq_some_iff, ← UInt8.toNat_inj]
  simp only [Writes, hhigh, hlow, htwo, hfourteen, IsDot]
  constructor
  · rintro (⟨rfl, -⟩ | ⟨first, second, rfl, rfl, rfl | rfl⟩)
    · exact Or.inl rfl
    · exact Or.inr (Or.inl rfl)
    · exact Or.inr (Or.inr rfl)
  · rintro (rfl | rfl | rfl)
    · exact Or.inl ⟨rfl, by decide, by decide⟩
    · exact Or.inr ⟨50, 69, rfl, rfl, Or.inl rfl⟩
    · exact Or.inr ⟨50, 101, rfl, rfl, Or.inr rfl⟩

theorem decodes_nil_iff {src : Bytes} (hsrc : (0 : UInt8) ∉ src) :
    Decodes src [] ↔ EndsPath src := by
  constructor
  · intro h
    obtain ⟨decoded, hdecoded, hpath⟩ := Option.map_eq_some_iff.mp h
    rcases unescapeLoop_cases hdecoded with ⟨hend, -⟩ | ⟨text, c, rest, tail, rfl, hwrites, rfl, htail⟩
    · exact hend.imp_right Or.inl
    · have hc : c = 0 := by
        by_contra hc
        simp [cString, hc] at hpath
      rw [hc] at hwrites
      rcases hwrites with ⟨rfl, -⟩ | ⟨first, second, rfl, hfirst, hsecond⟩
      · exact absurd (List.mem_append_left rest (List.mem_singleton_self 0)) hsrc
      · have hzero {c : UInt8} (h : hex c = some 0) : c = 48 := by
          simpa [hex_eq_some_iff, ← UInt8.toNat_inj] using h
        refine Or.inr (Or.inr ⟨rest, ?_, by rw [htail]; rfl⟩)
        rw [hzero hfirst, hzero hsecond]
        rfl
  · rintro (rfl | hhash | ⟨rest, rfl, hrest⟩)
    · rfl
    · obtain ⟨tail, rfl⟩ := List.head?_eq_some_iff.mp hhash
      rw [Decodes, unescapeLoop_hash]
      rfl
    · have hwrites : Writes [percent, 48, 48] 0 := Or.inr ⟨48, 48, rfl, rfl, rfl⟩
      obtain ⟨decoded, hdecoded⟩ := Option.isSome_iff_exists.mp hrest
      have hloop := unescapeLoop_of_writes hwrites rest
      rw [hdecoded] at hloop
      rw [Decodes]
      exact (congrArg (Option.map cString) hloop).trans rfl

theorem utilUrlUnescape_slash (rest : Bytes) :
    utilUrlUnescape (slash :: rest) = (utilUrlUnescape rest).map (slash :: ·) := by
  have hwrites : Writes [slash] slash := Or.inl ⟨rfl, by decide, by decide⟩
  have hstring : cString (slash :: rest) = [slash] ++ cString rest := rfl
  rw [utilUrlUnescape, hstring, unescapeLoop_of_writes hwrites, utilUrlUnescape]
  cases unescapeLoop (cString rest) <;> rfl

theorem decodes_parent_iff {uri : Bytes} (hslash : uri.head? = some slash) :
    utilUrlUnescape uri = some [slash, dot, dot] ↔ EscapingUri uri := by
  obtain ⟨rest, rfl⟩ := List.head?_eq_some_iff.mp hslash
  have hzero : (0 : UInt8) ∉ cString rest := fun h ↦ by simpa using List.mem_takeWhile_imp h
  have hrest : utilUrlUnescape (slash :: rest) = some [slash, dot, dot] ↔
      Decodes (cString rest) [dot, dot] := by
    rw [utilUrlUnescape_slash, Decodes, ← utilUrlUnescape]
    cases utilUrlUnescape rest <;> simp
  rw [hrest, decodes_cons_iff (by decide)]
  constructor
  · rintro ⟨first, behind, hbehind, hdot, hdecodes⟩
    obtain ⟨second, tail, rfl, hdot', hend⟩ := (decodes_cons_iff (by decide)).mp hdecodes
    refine ⟨first, second, tail, writes_dot_iff.mp hdot, writes_dot_iff.mp hdot', ?_, ?_⟩
    · rw [List.append_assoc, ← hbehind]
      rfl
    · refine (decodes_nil_iff fun h ↦ hzero ?_).mp hend
      rw [hbehind]
      exact List.mem_append_right _ (List.mem_append_right _ h)
  · rintro ⟨first, second, tail, hdot, hdot', huri, hend⟩
    have hbehind : cString rest = first ++ (second ++ tail) := by
      rw [List.append_assoc] at huri
      exact (List.cons.inj huri).2
    refine ⟨first, second ++ tail, hbehind, writes_dot_iff.mpr hdot, ?_⟩
    refine (decodes_cons_iff (by decide)).mpr ⟨second, tail, rfl, writes_dot_iff.mpr hdot', ?_⟩
    refine (decodes_nil_iff fun h ↦ hzero ?_).mpr hend
    rw [hbehind]
    exact List.mem_append_right _ (List.mem_append_right _ h)

/-! ## The result -/

/-- An accepted path begins with the slash of the URI. -/
theorem utilNormaliseUri_eq_some {uri path : Bytes} (h : utilNormaliseUri uri = some path) :
    uri.head? = some slash ∧ utilUrlUnescape uri = some path ∧
      ∃ behind, path = slash :: behind ∧ verifyPath true false behind = true := by
  rw [utilNormaliseUri] at h
  split at h
  · cases h
  · rename_i hslash
    rw [not_not] at hslash
    split at h
    · cases h
    · rename_i decoded hdecoded
      split at h
      · rename_i hverify
        obtain rfl := Option.some.inj h
        refine ⟨hslash, hdecoded, ?_⟩
        obtain ⟨rest, rfl⟩ := List.head?_eq_some_iff.mp hslash
        rw [utilUrlUnescape_slash] at hdecoded
        obtain ⟨behind, -, rfl⟩ := Option.map_eq_some_iff.mp hdecoded
        exact ⟨behind, rfl, hverify⟩
      · cases h

/-- The paths of all accepted URIs are contained, except for the URIs of the parent directory. -/
theorem uri_containment (uri : Bytes) :
    (∀ path, utilNormaliseUri uri = some path → Contained path) ↔ ¬EscapingUri uri := by
  constructor
  · rintro hall huri
    have hslash : uri.head? = some slash := by
      obtain ⟨first, second, tail, -, -, hstring, -⟩ := huri
      obtain ⟨rest, hrest⟩ := List.takeWhile_prefix (fun c : UInt8 ↦ decide (c ≠ 0)) (l := uri)
      rw [← hrest, show uri.takeWhile (fun c ↦ decide (c ≠ 0)) = _ from hstring]
      rfl
    have hpath : utilNormaliseUri uri = some [slash, dot, dot] := by
      rw [utilNormaliseUri, if_neg (not_not.mpr hslash), (decodes_parent_iff hslash).mpr huri]
      rfl
    have hverify : verifyPath true false [dot, dot] = true := by decide
    exact (contained_iff hverify).mp (hall _ hpath) rfl
  · intro huri path hpath
    obtain ⟨hslash, hdecoded, behind, rfl, hverify⟩ := utilNormaliseUri_eq_some hpath
    apply (contained_iff hverify).mpr
    rintro rfl
    exact huri ((decodes_parent_iff hslash).mp hdecoded)

/-- `/..` is accepted. -/
theorem uri_not_contained :
    ¬∀ uri path, utilNormaliseUri uri = some path → Contained path := by
  intro hall
  have hpath : utilNormaliseUri [slash, dot, dot] = some [slash, dot, dot] := by decide
  exact (hall _ _ hpath).1 _ (List.prefix_refl _) (by decide)

end Icecast.Util.Uri
