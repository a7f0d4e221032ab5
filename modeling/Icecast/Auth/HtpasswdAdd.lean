import Icecast.Auth.Htpasswd

/-!
# Adding users to a password file

A user who has been added is found again if the file is read again, which takes a new modification
time, and if the line that was written is read as it was meant: the name must not contain a line
break or begin like a comment, the line must fit into the buffer, and the file must not end in the
middle of another line.
-/

namespace Icecast.Auth.Htpasswd

open Lib.CString Lib.Lines

/-! ## The line of a user -/

def IsHexDigit (byte : UInt8) : Prop := (48 ≤ byte ∧ byte ≤ 57) ∨ (97 ≤ byte ∧ byte ≤ 102)

/-- What is assumed of `get_hash`. -/
structure HexHash (getHash : Bytes → Bytes) : Prop where
  nonempty : ∀ password, getHash password ≠ []
  hex : ∀ password, ∀ byte ∈ getHash password, IsHexDigit byte

/-- No hexadecimal digit has a meaning in the file. -/
theorem IsHexDigit.ne {byte : UInt8} (h : IsHexDigit byte) :
    byte ≠ 0 ∧ byte ≠ newline ∧ byte ≠ carriageReturn ∧ byte ≠ colon := by
  rcases h with ⟨hlow, hhigh⟩ | ⟨hlow, hhigh⟩ <;>
    refine ⟨?_, ?_, ?_, ?_⟩ <;> rintro rfl <;> revert hlow hhigh <;> decide

/-- A name that makes a line of its own, which is read as a whole. -/
def Storable (username hash : Bytes) : Prop :=
  newline ∉ username ∧ username.head? ≠ some hashSign ∧
    username.length + 1 + hash.length ≤ lineSize

instance (username hash : Bytes) : Decidable (Storable username hash) :=
  inferInstanceAs (Decidable (_ ∧ _ ∧ _))

section Line

variable {username hash : Bytes}

/-- Every entry of a file is storable. -/
theorem storable_of_mem_loadUsers {content : Bytes} {user : User}
    (hmem : user ∈ loadUsers content) : Storable user.name user.pass := by
  obtain ⟨piece, hpiece, hload⟩ := List.mem_filterMap.mp hmem
  obtain ⟨-, hlength, hfree⟩ := isPiece_of_mem_pieces (by decide) hpiece
  obtain ⟨hline, -, hcomment⟩ := line_of_loadLine hload
  have hbreak := newline_not_mem_getLine hfree
  have hfits := (getLine_length_le piece).trans hlength
  rw [hline] at hbreak hfits
  rw [List.mem_append, not_or] at hbreak
  rw [List.length_append, List.length_cons] at hfits
  exact ⟨hbreak.1, hcomment, by omega⟩

theorem loadUsers_line (hstorable : Storable username hash) (hnull : (0 : UInt8) ∉ username)
    (hempty : hash ≠ []) (hhex : ∀ byte ∈ hash, IsHexDigit byte) :
    loadUsers (username ++ [colon] ++ hash ++ [newline]) = [⟨username, hash⟩] := by
  obtain ⟨hbreak, hcomment, hfits⟩ := hstorable
  set line := username ++ [colon] ++ hash with hline
  have hlineBreak : newline ∉ line := by
    rw [hline, List.mem_append, List.mem_append, not_or, not_or]
    exact ⟨⟨hbreak, by decide⟩, fun hmem ↦ (hhex newline hmem).ne.2.1 rfl⟩
  have hlineNull : (0 : UInt8) ∉ line := by
    rw [hline, List.mem_append, List.mem_append, not_or, not_or]
    exact ⟨⟨hnull, by decide⟩, fun hmem ↦ (hhex 0 hmem).ne.1 rfl⟩
  have hlineReturn : line.getLast? ≠ some carriageReturn := by
    intro hlast
    rw [hline, List.getLast?_append_of_ne_nil _ hempty] at hlast
    exact (hhex carriageReturn (List.mem_of_getLast? hlast)).ne.2.2.1 rfl
  have hload : loadLine line = some ⟨username, hash⟩ :=
    loadLine_line (fun hmem ↦ (hhex colon hmem).ne.2.2.2 rfl) hcomment
  have hlength : line.length ≤ lineSize := by
    rw [hline, List.length_append, List.length_append, List.length_singleton]
    exact hfits
  rw [loadUsers, readPieces, pieces_line hlineBreak hlength (by decide)]
  split
  · simp [loadPiece, getLine_line hlineNull hlineReturn, hload]
  · have hblank : loadLine (getLine [newline]) = none := by decide
    simp [loadPiece, getLine_unterminated hlineNull hlineBreak, hload, hblank]

/-- Behind a file that ends with a line, the new line is read by itself. -/
theorem loadUsers_append {content : Bytes} (hclosed : openPiece newline lineSize [] content = [])
    (added : Bytes) : loadUsers (content ++ added) = loadUsers content ++ loadUsers added := by
  rw [loadUsers, readPieces, pieces_append hclosed, List.filterMap_append]
  rfl

end Line

/-! ## Calls one after the other -/

section Calls

variable {find : List User → Bytes → Option User} {getHash : Bytes → Bytes} {s : State} {file : File}
  {username password : Bytes} {now : ℤ}

/-- After the user has been added: the password is accepted, nothing has changed for all others, and
the name is taken. -/
def AddRoundTrip (find : List User → Bytes → Option User) (getHash : Bytes → Bytes) (s : State)
    (username password : Bytes) (now : ℤ) : Prop :=
  let added := (htpasswdAdduser find getHash s username password now).2
  (htpasswdAuth find getHash added username password).1 = .ok ∧
    (∀ other, other ≠ username → ∀ attempt,
      (htpasswdAuth find getHash added other attempt).1 =
        (htpasswdAuth find getHash s other attempt).1) ∧
    ∀ attempt later, (htpasswdAdduser find getHash added username attempt later).1 = .userexists

/-- The file ends with a complete line, its users are the ones in memory, and no name is listed with
two passwords. -/
structure FileOk (s : State) (file : File) : Prop where
  closed : openPiece newline lineSize [] file.content = []
  current : (htpasswdRecheckfile s).users = loadUsers file.content
  consistent : Consistent (loadUsers file.content)

/-- What is in memory after the next check: the file is read again if its time has changed. -/
theorem users_of_adduser (hfile : s.file = some file)
    (hadded : (htpasswdAdduser find getHash s username password now).1 = .useradded) :
    find (htpasswdRecheckfile s).users username = none ∧
      (htpasswdRecheckfile (htpasswdAdduser find getHash s username password now).2).users =
        if now = file.mtime then (htpasswdRecheckfile s).users
        else loadUsers (file.content ++
          (username ++ [colon] ++ getHash password ++ [newline])) := by
  have hmtime := recheckfile_mtime hfile
  have hkept := recheckfile_file s
  unfold htpasswdAdduser at hadded ⊢
  dsimp only at hadded ⊢
  cases hfind : find (htpasswdRecheckfile s).users username with
  | some user =>
    rw [hfind] at hadded
    cases hadded
  | none =>
    refine ⟨rfl, ?_⟩
    generalize htpasswdRecheckfile s = checked at hmtime hkept
    simp only [htpasswdRecheckfile, hkept, hfile, hmtime, Option.elim_some]
    split <;> rfl

/-- Another entry makes no difference to other names, as long as no name has two passwords. -/
theorem authWith_append (hlookup : Lookup find) {users : List User} {user : User}
    (hconsistent : Consistent users) {other : Bytes} (hother : other ≠ user.name)
    (attempt : Bytes) :
    authWith find getHash (users ++ [user]) other attempt =
      authWith find getHash users other attempt := by
  apply authWith_congr hlookup hconsistent
  intro entry hname
  rw [List.mem_append, List.mem_singleton, or_iff_left_iff_imp]
  rintro rfl
  exact absurd hname.symm hother

/-- A round trip takes a new modification time and a name that makes a line of its own, whatever the
file contains. -/
theorem AddRoundTrip.storable (hlookup : Lookup find) (hfile : s.file = some file)
    (hadded : (htpasswdAdduser find getHash s username password now).1 = .useradded)
    (h : AddRoundTrip find getHash s username password now) :
    now ≠ file.mtime ∧ Storable username (getHash password) := by
  obtain ⟨hmissing, husers⟩ := users_of_adduser hfile hadded
  have hok := h.1
  rw [htpasswdAuth_eq, authWith_eq_ok_iff] at hok
  obtain ⟨user, hfound, hpass⟩ := hok
  have hnow : now ≠ file.mtime := by
    intro hsame
    rw [husers, if_pos hsame, hmissing] at hfound
    cases hfound
  rw [husers, if_neg hnow] at hfound
  obtain ⟨hmem, hname⟩ := hlookup.found hfound
  have hstorable := storable_of_mem_loadUsers hmem
  rw [hname, hpass] at hstorable
  exact ⟨hnow, hstorable⟩

theorem addRoundTrip_of_storable (hlookup : Lookup find) (hhash : HexHash getHash)
    (hnull : (0 : UInt8) ∉ username) (hfile : s.file = some file) (hok : FileOk s file)
    (hadded : (htpasswdAdduser find getHash s username password now).1 = .useradded)
    (hnow : now ≠ file.mtime) (hstorable : Storable username (getHash password)) :
    AddRoundTrip find getHash s username password now := by
  obtain ⟨hmissing, husers⟩ := users_of_adduser hfile hadded
  rw [hok.current] at hmissing
  have hloaded : (htpasswdRecheckfile (htpasswdAdduser find getHash s username password now).2).users =
      loadUsers file.content ++ [⟨username, getHash password⟩] := by
    rw [husers, if_neg hnow, loadUsers_append hok.closed,
      loadUsers_line hstorable hnull (hhash.nonempty password) (hhash.hex password)]
  obtain ⟨user, hfound, huser⟩ : ∃ user, find (loadUsers file.content ++
      [⟨username, getHash password⟩]) username = some user ∧ user.pass = getHash password := by
    cases hfound : find (loadUsers file.content ++ [⟨username, getHash password⟩]) username with
    | none => exact absurd rfl (hlookup.missing hfound ⟨username, getHash password⟩ (by simp))
    | some user =>
      obtain ⟨hmem, hname⟩ := hlookup.found hfound
      rcases List.mem_append.mp hmem with hmem | hmem
      · exact absurd hname (hlookup.missing hmissing user hmem)
      · exact ⟨user, rfl, by rw [List.mem_singleton.mp hmem]⟩
  refine ⟨?_, ?_, ?_⟩
  · rw [htpasswdAuth_eq, hloaded, authWith_eq_ok_iff]
    exact ⟨user, hfound, huser⟩
  · intro other hother attempt
    rw [htpasswdAuth_eq, htpasswdAuth_eq, hloaded, hok.current]
    exact authWith_append hlookup hok.consistent hother attempt
  · intro attempt later
    rw [htpasswdAdduser]
    dsimp only
    rw [hloaded, hfound]

/-- Whatever the file contains, a user who has been added is known afterwards only if the file was
last changed in another second and the name can be stored; and for a file that ends with a complete
line, that has been read, and in which no name has two passwords, this is also enough. -/
theorem htpasswd_add_round_trip (hlookup : Lookup find) (hhash : HexHash getHash)
    (hnull : (0 : UInt8) ∉ username) (hfile : s.file = some file)
    (hadded : (htpasswdAdduser find getHash s username password now).1 = .useradded) :
    (AddRoundTrip find getHash s username password now →
      now ≠ file.mtime ∧ Storable username (getHash password)) ∧
    (FileOk s file → (AddRoundTrip find getHash s username password now ↔
      now ≠ file.mtime ∧ Storable username (getHash password))) := by
  have hnecessary := AddRoundTrip.storable hlookup hfile hadded
  refine ⟨hnecessary, fun hok ↦ ⟨hnecessary, ?_⟩⟩
  rintro ⟨hnow, hstorable⟩
  exact addRoundTrip_of_storable hlookup hhash hnull hfile hok hadded hnow hstorable

end Calls

/-! ## A user who is added twice -/

/-- `secret` -/
def secret : Bytes := [115, 101, 99, 114, 101, 116]

instance (byte : UInt8) : Decidable (IsHexDigit byte) := inferInstanceAs (Decidable (_ ∨ _))

theorem hashOfSecret_hex : HexHash fun _ ↦ hashOfSecret where
  nonempty _ := by decide
  hex _ := by decide +kernel

/-- A file with one user, changed at the second 100 and read after that. -/
def oneUser : State where
  file := some ⟨bob ++ [colon] ++ hashOfSecret ++ [newline], 100⟩
  tmpfileExists := false
  users := [⟨bob, hashOfSecret⟩]
  mtime := 100

/-- One second later the new user is known. -/
theorem htpasswd_add_next_second :
    AddRoundTrip findFirst (fun _ ↦ hashOfSecret) oneUser alice secret 101 := by
  have hok : FileOk oneUser ⟨bob ++ [colon] ++ hashOfSecret ++ [newline], 100⟩ := by
    have hload : loadUsers (bob ++ [colon] ++ hashOfSecret ++ [newline]) = [⟨bob, hashOfSecret⟩] :=
      loadUsers_line (by decide) (by decide) (by decide) (hashOfSecret_hex.hex [])
    refine ⟨by decide, hload.symm, ?_⟩
    rw [hload]
    decide
  exact ((htpasswd_add_round_trip findFirst_lookup hashOfSecret_hex (by decide) rfl
    (by decide)).2 hok).mpr (by decide)

/-- In the same second the file is not read again, and the new user is unknown. -/
theorem not_htpasswd_add_same_second :
    ¬ ∀ (find : List User → Bytes → Option User) (getHash : Bytes → Bytes) (s : State)
        (username password : Bytes) (now : ℤ),
      Lookup find → HexHash getHash → s.file.isSome → (0 : UInt8) ∉ username →
      (htpasswdAdduser find getHash s username password now).1 = .useradded →
      AddRoundTrip find getHash s username password now := by
  intro h
  have hround := h findFirst (fun _ ↦ hashOfSecret) oneUser alice secret 100 findFirst_lookup
    hashOfSecret_hex rfl (by decide) (by decide)
  exact absurd hround.1 (by decide)

end Icecast.Auth.Htpasswd
