import Icecast.Auth.Htpasswd
import Icecast.Lib.Machine

/-!
# Lists of allowed and banned addresses

A list is read again when the modification time of its file has changed, and is looked at every ten seconds
at most (`matchfile.c`). The time is kept before the file is opened.
-/

namespace Icecast.Connection.MatchFile

open Auth.Htpasswd (Bytes readPieces getLine hashSign)
open Lib.Machine

/-! ## The list -/

/-- The file at some moment. -/
structure Version where
  mtime : ℤ
  content : Bytes

def isEntry (line : Bytes) : Bool := line ≠ [] ∧ line.head? ≠ some hashSign

/-- The lines that are neither empty nor comments. -/
def entriesOf (content : Bytes) : List Bytes := ((readPieces content).map getLine).filter isEntry

/-- The tree in memory, with the version it was read from. -/
structure Contents where
  version : Version
  entries : List Bytes
  read : entries = entriesOf version.content

def load (version : Version) : Contents := ⟨version, entriesOf version.content, rfl⟩

/-- `matchfile_t`, less its name and reference count. -/
structure MatchFileState where
  fileRecheck : ℤ
  fileMtime : ℤ
  contents : Option Contents

/-- What a recheck finds: the time, the modification time unless `stat` fails, and what is opened unless
`fopen` fails. -/
structure Look where
  now : ℤ
  stat : Option ℤ
  fopen : Option Version

def funcRecheck (file : MatchFileState) (look : Look) : MatchFileState :=
  if look.now < file.fileRecheck then file
  else
    let file := { file with fileRecheck := look.now + 10 }
    match look.stat with
    | none => file
    | some mtime =>
      if mtime = file.fileMtime then file
      else
        let file := { file with fileMtime := mtime }
        match look.fopen with
        | none => file
        | some version => { file with contents := some (load version) }

/-- A new list; `matchfile_new` rechecks it at once. -/
def empty : MatchFileState := ⟨0, 0, none⟩

def matchfileNew (look : Look) : MatchFileState := funcRecheck empty look

/-- The return value is -1 if there is no list. -/
def matchfileMatch (file : Option MatchFileState) (look : Look) (key : Bytes) : ℤ × Option MatchFileState :=
  match file with
  | none => (-1, none)
  | some file =>
    let file := funcRecheck file look
    match file.contents with
    | none => (0, some file)
    | some contents => (if key ∈ contents.entries then 1 else 0, some file)

def matchfileMatchAllowDeny (allow deny : Option MatchFileState) (lookAllow lookDeny : Look)
    (key : Option Bytes) : Bool × Option MatchFileState × Option MatchFileState :=
  if allow.isNone && deny.isNone then (true, allow, deny)
  else
    match key with
    | none => (false, allow, deny)
    | some key =>
      let (banned, deny) := matchfileMatch deny lookDeny key
      if 0 < banned then (false, allow, deny)
      else
        let (allowed, allow) := matchfileMatch allow lookAllow key
        if 0 < allowed then (true, allow, deny)
        else if allow.isSome then (false, allow, deny)
        else (true, allow, deny)

/-! ## What it is for -/

def MatchFileState.ReadFrom (file : MatchFileState) (mtime : ℤ) : Prop :=
  ∃ contents ∈ file.contents, contents.version.mtime = mtime

/-- The list is that of the version whose time is kept. -/
def MatchFileState.Fresh (file : MatchFileState) : Prop := file.fileMtime ≠ 0 → file.ReadFrom file.fileMtime

/-- A recheck that is due finds a version and can open it. -/
structure Look.Opens (look : Look) (file : MatchFileState) (version : Version) : Prop where
  due : file.fileRecheck ≤ look.now
  stat : look.stat = some version.mtime
  fopen : look.fopen = some version
  mtime : version.mtime ≠ 0

/-- The next recheck that finds a version and can open it has it in memory. -/
def MatchFileState.CatchesUp (file : MatchFileState) : Prop :=
  ∀ look version, look.Opens file version → (funcRecheck file look).ReadFrom version.mtime

def NeverStale (looks : List Look) : Prop :=
  ∀ before, before <+: looks → (run funcRecheck empty before).Fresh ∧
    (run funcRecheck empty before).CatchesUp

/-- Where a recheck finds another time, other than zero, the version of that time is what it opens. It
does not matter that the file cannot be opened if that version is in memory already. -/
def Reads (file : MatchFileState) (look : Look) : Prop :=
  file.fileRecheck ≤ look.now → ∀ mtime, look.stat = some mtime → mtime ≠ 0 → mtime ≠ file.fileMtime →
    match look.fopen with
    | some version => version.mtime = mtime
    | none => file.ReadFrom mtime

/-! ## Rechecks -/

variable {file : MatchFileState} {look : Look} {mtime : ℤ}

theorem funcRecheck_early (h : look.now < file.fileRecheck) : funcRecheck file look = file := if_pos h

/-- What a recheck that is due does when the time has changed. -/
theorem funcRecheck_changed (hdue : file.fileRecheck ≤ look.now) (hstat : look.stat = some mtime)
    (hne : mtime ≠ file.fileMtime) :
    funcRecheck file look = ⟨look.now + 10, mtime, (look.fopen.map load).or file.contents⟩ := by
  rw [funcRecheck, if_neg (Int.not_lt.mpr hdue), hstat]
  dsimp only
  rw [if_neg hne]
  cases look.fopen with
  | none => rfl
  | some version => rfl

/-- Otherwise only the timer changes. -/
theorem funcRecheck_unchanged
    (h : ¬ (file.fileRecheck ≤ look.now ∧ ∃ mtime, look.stat = some mtime ∧ mtime ≠ file.fileMtime)) :
    (funcRecheck file look).fileMtime = file.fileMtime ∧
      (funcRecheck file look).contents = file.contents := by
  by_cases hdue : file.fileRecheck ≤ look.now
  · rw [funcRecheck, if_neg (Int.not_lt.mpr hdue)]
    cases hstat : look.stat with
    | none => exact ⟨rfl, rfl⟩
    | some mtime =>
      have hsame : mtime = file.fileMtime := by
        by_contra hne
        exact h ⟨hdue, mtime, hstat, hne⟩
      dsimp only
      rw [if_pos hsame]
      exact ⟨rfl, rfl⟩
  · rw [funcRecheck_early (Int.not_le.mp hdue)]
    exact ⟨rfl, rfl⟩

/-- After a change the list is that of the version that was opened, or what it has been. -/
theorem readFrom_changed_iff (hdue : file.fileRecheck ≤ look.now) (hstat : look.stat = some mtime)
    (hne : mtime ≠ file.fileMtime) : (funcRecheck file look).ReadFrom mtime ↔
      match look.fopen with
      | some version => version.mtime = mtime
      | none => file.ReadFrom mtime := by
  rw [funcRecheck_changed hdue hstat hne]
  cases look.fopen with
  | none => rfl
  | some version =>
    constructor
    · rintro ⟨contents, hcontents, hmtime⟩
      rw [← Option.some.inj hcontents] at hmtime
      exact hmtime
    · intro hmtime
      exact ⟨load version, rfl, hmtime⟩

/-- Exactly then a list that was fresh is fresh behind a recheck. -/
theorem fresh_funcRecheck_iff (h : file.Fresh) (look : Look) :
    (funcRecheck file look).Fresh ↔ Reads file look := by
  by_cases hchanged : file.fileRecheck ≤ look.now ∧ ∃ mtime, look.stat = some mtime ∧ mtime ≠ file.fileMtime
  · obtain ⟨hdue, mtime, hstat, hne⟩ := hchanged
    have hkept : (funcRecheck file look).fileMtime = mtime := by
      rw [funcRecheck_changed hdue hstat hne]
    rw [MatchFileState.Fresh, hkept, readFrom_changed_iff hdue hstat hne]
    constructor
    · intro hread _ other hother hzero _
      obtain rfl := Option.some.inj (hstat.symm.trans hother)
      exact hread hzero
    · intro hreads hzero
      exact hreads hdue mtime hstat hzero hne
  · obtain ⟨hmtime, hcontents⟩ := funcRecheck_unchanged hchanged
    refine iff_of_true ?_ ?_
    · rw [MatchFileState.Fresh, hmtime, MatchFileState.ReadFrom, hcontents]
      exact h
    · intro hdue mtime hstat _ hne
      exact absurd ⟨hdue, mtime, hstat, hne⟩ hchanged

theorem MatchFileState.Fresh.catchesUp (h : file.Fresh) : file.CatchesUp := by
  intro look version hopens
  by_cases hne : version.mtime = file.fileMtime
  · have hunchanged : ¬ (file.fileRecheck ≤ look.now ∧
        ∃ mtime, look.stat = some mtime ∧ mtime ≠ file.fileMtime) := by
      rintro ⟨-, mtime, hstat, hother⟩
      rw [hopens.stat] at hstat
      exact hother (Option.some.inj hstat ▸ hne)
    rw [ReadFrom, (funcRecheck_unchanged hunchanged).2, hne]
    exact h (hne ▸ hopens.mtime)
  · rw [readFrom_changed_iff hopens.due hopens.stat hne, hopens.fopen]

/-! ## The callers

Each call of `matchfile_match` is one recheck, so that the lists see nothing but rechecks. -/

theorem matchfileMatch_file (file : MatchFileState) (look : Look) (key : Bytes) :
    (matchfileMatch (some file) look key).2 = some (funcRecheck file look) := by
  unfold matchfileMatch
  dsimp only
  cases (funcRecheck file look).contents with
  | none => rfl
  | some contents => rfl

/-- A ban in a fresh list is one of the version whose time is kept. -/
theorem matchfileMatch_pos_iff (file : MatchFileState) (look : Look) (key : Bytes) :
    0 < (matchfileMatch (some file) look key).1 ↔
      ∃ contents ∈ (funcRecheck file look).contents, key ∈ entriesOf contents.version.content := by
  unfold matchfileMatch
  dsimp only
  cases hcontents : (funcRecheck file look).contents with
  | none => simp
  | some contents =>
    dsimp only
    rw [contents.read]
    by_cases hkey : key ∈ entriesOf contents.version.content
    · simp [hkey]
    · simp [hkey]

theorem matchfileMatchAllowDeny_files (allow deny : MatchFileState) (lookAllow lookDeny : Look)
    (key : Option Bytes) :
    (matchfileMatchAllowDeny (some allow) (some deny) lookAllow lookDeny key).2.1 ∈
        [some allow, some (funcRecheck allow lookAllow)] ∧
      (matchfileMatchAllowDeny (some allow) (some deny) lookAllow lookDeny key).2.2 ∈
        [some deny, some (funcRecheck deny lookDeny)] := by
  cases key with
  | none => simp [matchfileMatchAllowDeny]
  | some key =>
    have hdeny := matchfileMatch_file deny lookDeny key
    have hallow := matchfileMatch_file allow lookAllow key
    rw [matchfileMatchAllowDeny, if_neg (by simp)]
    dsimp only
    split_ifs
    all_goals simp [hdeny, hallow]

/-! ## Every sequence of rechecks -/

/-- The list is never stale if and only if every recheck that finds another version reads it. -/
theorem matchfile_never_stale_iff (looks : List Look) :
    NeverStale looks ↔ Guarded funcRecheck Reads empty looks :=
  forall_prefix_iff_guarded funcRecheck MatchFileState.Fresh (fun file ↦ file.Fresh ∧ file.CatchesUp)
    (fun _ look hfresh hreads ↦ (fresh_funcRecheck_iff hfresh look).mpr hreads)
    (fun _ hfresh ↦ ⟨hfresh, hfresh.catchesUp⟩)
    (fun _ look hfresh hnot hboth ↦ hnot ((fresh_funcRecheck_iff hfresh look).mp hboth.1)) looks
    (fun hzero ↦ absurd rfl hzero)

/-- A file that cannot be opened behind its first `stat`: the time of the version is kept, and what can be
opened ten seconds later is not read. -/
theorem matchfile_stale : ¬ ∀ looks, NeverStale looks := by
  intro h
  have hfresh : MatchFileState.Fresh ⟨1010, 500, none⟩ :=
    (h [⟨1000, some 500, none⟩] _ (List.prefix_refl _)).1
  obtain ⟨contents, hcontents, -⟩ := hfresh (by decide)
  cases hcontents

/-- And no later recheck reads it, as long as the time of the file is the same. -/
theorem matchfile_stays_stale {looks : List Look} (h : ∀ look ∈ looks, look.stat = some file.fileMtime) :
    (run funcRecheck file looks).fileMtime = file.fileMtime ∧
      (run funcRecheck file looks).contents = file.contents := by
  induction looks generalizing file with
  | nil => exact ⟨rfl, rfl⟩
  | cons look looks ih =>
    have hsame : ¬ (file.fileRecheck ≤ look.now ∧
        ∃ mtime, look.stat = some mtime ∧ mtime ≠ file.fileMtime) := by
      rintro ⟨-, mtime, hstat, hne⟩
      rw [h look List.mem_cons_self] at hstat
      exact hne (Option.some.inj hstat).symm
    obtain ⟨hmtime, hcontents⟩ := funcRecheck_unchanged hsame
    have hlater : ∀ other ∈ looks, other.stat = some (funcRecheck file look).fileMtime := by
      intro other hother
      rw [hmtime]
      exact h other (List.mem_cons_of_mem _ hother)
    exact ⟨(ih hlater).1.trans hmtime, (ih hlater).2.trans hcontents⟩

end Icecast.Connection.MatchFile
