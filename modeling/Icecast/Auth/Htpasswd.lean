import Icecast.Lib.CString
import Icecast.Lib.Lines
import Mathlib.Algebra.Order.Ring.Int
import Mathlib.Data.List.TakeWhile

/-!
# The htpasswd authenticator

`auth_htpasswd.c` keeps the users of a password file in a tree and reads the file again when its
modification time has changed; that time is given in whole seconds. Lines are read into a buffer of
`MAX_LINE_LEN` bytes. Users are added at the end of the file, and removed by copying the lines of all
others.

The tree of users comes from a library that is not part of the source: `find` is `avl_get_by_key`.
The hash of a password is a parameter, too.
-/

namespace Icecast.Auth.Htpasswd

open Lib.CString Lib.Lines

abbrev Bytes := List UInt8

/-- `htpasswd_user` -/
structure User where
  name : Bytes
  pass : Bytes
  deriving DecidableEq

/-- The password file: its content, and the second it was changed in last. -/
structure File where
  content : Bytes
  mtime : ℤ
  deriving DecidableEq

/-- `htpasswd_auth_state`, with the file it refers to. -/
structure State where
  file : Option File
  tmpfileExists : Bool
  users : List User
  mtime : ℤ
  deriving DecidableEq

inductive AuthResult where
  | ok
  | failed
  | nomatch
  | useradded
  | userexists
  | userdeleted
  deriving DecidableEq

/-! ## Lines -/

def newline : UInt8 := 10

def carriageReturn : UInt8 := 13

def colon : UInt8 := 58

def hashSign : UInt8 := 35

/-- One byte of `MAX_LINE_LEN` is for the null byte. -/
def lineSize : ℕ := 512 - 1

/-- The text before the terminating null byte. -/
def cString (bytes : Bytes) : Bytes := bytes.takeWhile (· ≠ 0)

/-- `get_line`, from what `fgets` has put into the buffer. -/
def getLine (buf : Bytes) : Bytes :=
  let line := cString buf
  if line.getLast? = some newline then
    let line := line.dropLast
    if line.getLast? = some carriageReturn then line.dropLast else line
  else line

def readPieces (content : Bytes) : List Bytes := pieces newline lineSize content

/-- The entry on a line, if it has one. -/
def loadLine (line : Bytes) : Option User :=
  if line = [] ∨ line.head? = some hashSign then none
  else (strrchr colon line).map fun (name, pass) ↦ ⟨name, pass⟩

def loadPiece (piece : Bytes) : Option User := loadLine (getLine piece)

/-- The users `htpasswd_recheckfile` finds in a file. -/
def loadUsers (content : Bytes) : List User := (readPieces content).filterMap loadPiece

/-! ## Calls -/

section Calls

variable (find : List User → Bytes → Option User) (getHash : Bytes → Bytes)

/-- What is known of `avl_get_by_key`: it finds an entry of the name if and only if there is one. -/
structure Lookup : Prop where
  found : ∀ {users name user}, find users name = some user → user ∈ users ∧ user.name = name
  missing : ∀ {users name}, find users name = none → ∀ user ∈ users, user.name ≠ name

def htpasswdRecheckfile (s : State) : State :=
  match s.file with
  | none => s
  | some file =>
    if file.mtime = s.mtime then s
    else { s with mtime := file.mtime, users := loadUsers file.content }

/-- `htpasswd_auth`, for a client with a username and a password. -/
def htpasswdAuth (s : State) (username password : Bytes) : AuthResult × State :=
  let s := htpasswdRecheckfile s
  match find s.users username with
  | some found => if found.pass = getHash password then (.ok, s) else (.failed, s)
  | none => (.nomatch, s)

/-- `htpasswd_adduser` at the second `now`. -/
def htpasswdAdduser (s : State) (username password : Bytes) (now : ℤ) : AuthResult × State :=
  let s := htpasswdRecheckfile s
  match find s.users username with
  | some _ => (.userexists, s)
  | none =>
    let content := s.file.elim [] (·.content)
    let line := username ++ [colon] ++ getHash password ++ [newline]
    (.useradded, { s with file := some ⟨content ++ line, now⟩ })

/-- What `htpasswd_deleteuser` copies of a line. -/
def copyPiece (username piece : Bytes) : Bytes :=
  let line := getLine piece
  if line = [] ∨ line.head? = some hashSign then []
  else
    match strchr colon line with
    | none => []
    | some (name, _) => if name = username then [] else line ++ [newline]

def copyOthers (username content : Bytes) : Bytes :=
  (readPieces content).flatMap (copyPiece username)

/-- `htpasswd_deleteuser` at the second `now`. -/
def htpasswdDeleteuser (s : State) (username : Bytes) (now : ℤ) : AuthResult × State :=
  match s.file with
  | none => (.failed, s)
  | some file =>
    if s.tmpfileExists then (.failed, s)
    else
      let s := { s with file := some ⟨copyOthers username file.content, now⟩ }
      (.userdeleted, htpasswdRecheckfile s)

end Calls

/-! ## Reading lines back -/

theorem cString_isPrefix (bytes : Bytes) : cString bytes <+: bytes := List.takeWhile_prefix _

theorem cString_eq_self {bytes : Bytes} (h : (0 : UInt8) ∉ bytes) : cString bytes = bytes := by
  apply List.takeWhile_eq_self_iff.mpr
  intro byte hmem
  exact decide_eq_true fun hzero ↦ h (hzero ▸ hmem)

theorem getLine_isPrefix (piece : Bytes) : getLine piece <+: cString piece := by
  unfold getLine
  dsimp only
  split
  · split
    · exact (List.dropLast_prefix _).trans (List.dropLast_prefix _)
    · exact List.dropLast_prefix _
  · exact List.prefix_rfl

theorem getLine_length_le (piece : Bytes) : (getLine piece).length ≤ piece.length :=
  ((getLine_isPrefix piece).trans (cString_isPrefix piece)).length_le

/-- No line contains a line break. -/
theorem newline_not_mem_getLine {piece : Bytes} (hpiece : newline ∉ piece.dropLast) :
    newline ∉ getLine piece := by
  have hinner : newline ∉ (cString piece).dropLast := by
    obtain ⟨behind, hbehind⟩ := cString_isPrefix piece
    intro hmem
    apply hpiece
    cases behind with
    | nil => rwa [← hbehind, List.append_nil]
    | cons byte behind =>
      rw [← hbehind, List.dropLast_append_of_ne_nil (by simp)]
      exact List.mem_append_left _ (List.dropLast_subset _ hmem)
  unfold getLine
  dsimp only
  split
  · split
    · exact fun hmem ↦ hinner (List.dropLast_subset _ hmem)
    · exact hinner
  · rename_i hlast
    intro hmem
    have hne : cString piece ≠ [] := List.ne_nil_of_mem hmem
    rw [← List.dropLast_append_getLast hne, List.mem_append, List.mem_singleton] at hmem
    rcases hmem with hmem | hmem
    · exact hinner hmem
    · exact hlast (by rw [List.getLast?_eq_some_getLast hne, ← hmem])

theorem getLine_line {line : Bytes} (hnull : (0 : UInt8) ∉ line)
    (hreturn : line.getLast? ≠ some carriageReturn) : getLine (line ++ [newline]) = line := by
  have hwhole : cString (line ++ [newline]) = line ++ [newline] := by
    apply cString_eq_self
    rw [List.mem_append, not_or]
    exact ⟨hnull, by decide⟩
  simp only [getLine, hwhole, List.getLast?_concat, if_true, List.dropLast_concat]
  exact if_neg hreturn

theorem getLine_unterminated {line : Bytes} (hnull : (0 : UInt8) ∉ line) (hline : newline ∉ line) :
    getLine line = line := by
  simp only [getLine, cString_eq_self hnull]
  apply if_neg
  intro hlast
  exact hline (List.mem_of_getLast? hlast)

theorem loadLine_line {username hash : Bytes} (hcolon : colon ∉ hash)
    (hcomment : username.head? ≠ some hashSign) :
    loadLine (username ++ [colon] ++ hash) = some ⟨username, hash⟩ := by
  have hstart : ¬(username ++ [colon] ++ hash = [] ∨
      (username ++ [colon] ++ hash).head? = some hashSign) := by
    rintro (hempty | hhash)
    · simp at hempty
    · cases username with
      | nil => exact absurd hhash (by simp [colon, hashSign])
      | cons first rest => exact hcomment hhash
  rw [loadLine, if_neg hstart, List.append_assoc, List.singleton_append,
    strrchr_append_cons hcolon]
  rfl

/-- An entry that is read tells what stood on its line. -/
theorem line_of_loadLine {line : Bytes} {user : User} (h : loadLine line = some user) :
    line = user.name ++ colon :: user.pass ∧ colon ∉ user.pass ∧
      user.name.head? ≠ some hashSign := by
  unfold loadLine at h
  split at h
  · cases h
  · rename_i hstart
    obtain ⟨⟨name, pass⟩, hsplit, rfl⟩ := Option.map_eq_some_iff.mp h
    obtain ⟨hline, hcolon⟩ := eq_append_of_strrchr hsplit
    refine ⟨hline, hcolon, ?_⟩
    intro hhash
    apply hstart
    right
    rw [hline, List.head?_append, hhash]
    rfl

/-! ## Users in memory -/

section Memory

variable {find : List User → Bytes → Option User} {getHash : Bytes → Bytes} {s : State} {file : File}
  {username password : Bytes}

theorem recheckfile_file (s : State) : (htpasswdRecheckfile s).file = s.file := by
  unfold htpasswdRecheckfile
  split
  · rfl
  · split <;> rfl

theorem recheckfile_mtime (hfile : s.file = some file) :
    (htpasswdRecheckfile s).mtime = file.mtime := by
  simp only [htpasswdRecheckfile, hfile]
  split
  · rename_i hsame
    exact hsame.symm
  · rfl

/-- The result depends on the users that are in memory after the check. -/
def authWith (find : List User → Bytes → Option User) (getHash : Bytes → Bytes) (users : List User)
    (username password : Bytes) : AuthResult :=
  match find users username with
  | some found => if found.pass = getHash password then .ok else .failed
  | none => .nomatch

theorem htpasswdAuth_eq (s : State) (username password : Bytes) :
    (htpasswdAuth find getHash s username password).1 =
      authWith find getHash (htpasswdRecheckfile s).users username password := by
  unfold htpasswdAuth authWith
  dsimp only
  cases find (htpasswdRecheckfile s).users username with
  | none => rfl
  | some found =>
    dsimp only
    split <;> rfl

theorem authWith_eq_ok_iff {users : List User} :
    authWith find getHash users username password = .ok ↔
      ∃ user, find users username = some user ∧ user.pass = getHash password := by
  unfold authWith
  cases find users username with
  | none => simp
  | some found => simp

/-- No name is listed with two passwords. -/
def Consistent (users : List User) : Prop :=
  ∀ first ∈ users, ∀ second ∈ users, first.name = second.name → first.pass = second.pass

instance (users : List User) : Decidable (Consistent users) :=
  inferInstanceAs (Decidable (∀ first ∈ users, ∀ second ∈ users, _))

/-- The result for a name depends on the entries of that name only, as long as they have one
password. -/
theorem authWith_congr (hlookup : Lookup find) {users changed : List User}
    (hconsistent : Consistent users) {name : Bytes}
    (hsame : ∀ user : User, user.name = name → (user ∈ changed ↔ user ∈ users)) (attempt : Bytes) :
    authWith find getHash changed name attempt = authWith find getHash users name attempt := by
  unfold authWith
  cases hbefore : find users name with
  | none =>
    cases hafter : find changed name with
    | none => rfl
    | some found =>
      obtain ⟨hmem, hname⟩ := hlookup.found hafter
      exact absurd hname (hlookup.missing hbefore found ((hsame found hname).mp hmem))
  | some first =>
    obtain ⟨hmem, hname⟩ := hlookup.found hbefore
    cases hafter : find changed name with
    | none => exact absurd hname (hlookup.missing hafter first ((hsame first hname).mpr hmem))
    | some second =>
      obtain ⟨hmem', hname'⟩ := hlookup.found hafter
      have hpass : second.pass = first.pass :=
        hconsistent second ((hsame second hname').mp hmem') first hmem (hname'.trans hname.symm)
      simp only [hpass]

end Memory

/-! ## A tree and two users -/

/-- The first entry of the name. -/
def findFirst (users : List User) (name : Bytes) : Option User :=
  users.find? fun user ↦ user.name = name

theorem findFirst_lookup : Lookup findFirst where
  found := by
    intro users name user h
    exact ⟨List.mem_of_find?_eq_some h, by simpa using List.find?_some h⟩
  missing := by
    intro users name h user hmem
    simpa using List.find?_eq_none.mp h user hmem

/-- The MD5 sum of `secret`, `5ebe2294ecd0e0f08eab7690d2a6ee69` -/
def hashOfSecret : Bytes :=
  [53, 101, 98, 101, 50, 50, 57, 52, 101, 99, 100, 48, 101, 48, 102, 48,
    56, 101, 97, 98, 55, 54, 57, 48, 100, 50, 97, 54, 101, 101, 54, 57]

/-- `bob` -/
def bob : Bytes := [98, 111, 98]

/-- `alice` -/
def alice : Bytes := [97, 108, 105, 99, 101]

end Icecast.Auth.Htpasswd
