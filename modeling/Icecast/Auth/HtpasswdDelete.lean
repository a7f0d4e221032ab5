import Icecast.Auth.Htpasswd

/-!
# Removing users from a password file

`htpasswd_deleteuser` splits a line at its first colon, where a line that is loaded is split at its
last one, and it copies only lines that are entries. The file it writes is the old one without the
entries of the user if and only if everything else in the file is an entry that is copied as it
stands. A line that fills the buffer is copied with a line break behind it; the break that follows in
the old file is skipped as an empty line, which comes out right.
-/

namespace Icecast.Auth.Htpasswd

open Lib.CString Lib.Lines

/-- The name that `htpasswd_recheckfile` reads. -/
def loadedName (piece : Bytes) : Option Bytes := (loadPiece piece).map User.name

/-- All lines but the entries of a user. -/
def keptPieces (username : Bytes) (list : List Bytes) : List Bytes :=
  list.filter fun piece ↦ loadedName piece ≠ some username

/-- The file without the entries of a user, and nothing else changed. -/
def withoutUser (username content : Bytes) : Bytes :=
  (keptPieces username (readPieces content)).flatten

/-- The line is an entry, and the name in front of the first colon is another one. -/
def OtherEntry (username line : Bytes) : Prop :=
  (0 : UInt8) ∉ line ∧ line.head? ≠ some hashSign ∧ colon ∈ line ∧
    line.takeWhile (· ≠ colon) ≠ username

instance (username line : Bytes) : Decidable (OtherEntry username line) :=
  inferInstanceAs (Decidable (_ ∧ _ ∧ _ ∧ _))

/-- Everything but the entries of the user is copied as it stands. With `full`, the buffer was filled
by the last line that was copied, and its line break is still to come. -/
def Copyable (username : Bytes) : Bool → List Bytes → Prop
  | full, [] => full = false
  | full, piece :: rest =>
    if loadedName piece = some username then colon ∉ username ∧ Copyable username full rest
    else if full then piece = [newline] ∧ Copyable username false rest
    else if piece.getLast? = some newline then
      OtherEntry username piece.dropLast ∧ piece.dropLast.getLast? ≠ some carriageReturn ∧
        Copyable username false rest
    else OtherEntry username piece ∧ Copyable username true rest

instance decidableCopyable (username : Bytes) :
    (full : Bool) → (list : List Bytes) → Decidable (Copyable username full list)
  | full, [] => inferInstanceAs (Decidable (full = false))
  | full, piece :: rest =>
    have _ := decidableCopyable username full rest
    have _ := decidableCopyable username false rest
    have _ := decidableCopyable username true rest
    inferInstanceAs (Decidable (if loadedName piece = some username then _ ∧ _
      else if full then _ ∧ _ else if piece.getLast? = some newline then _ ∧ _ ∧ _ else _ ∧ _))

variable {username line piece : Bytes}

/-- Nothing is left out of a file without entries of the user. -/
theorem withoutUser_eq_self {content : Bytes}
    (h : ∀ piece ∈ readPieces content, loadedName piece ≠ some username) :
    withoutUser username content = content := by
  have hall : keptPieces username (readPieces content) = readPieces content := by
    apply List.filter_eq_self.mpr
    intro piece hpiece
    exact decide_eq_true (h piece hpiece)
  rw [withoutUser, hall, readPieces, flatten_pieces]

/-! ## Lines that are copied -/

theorem null_not_mem_getLine (piece : Bytes) : (0 : UInt8) ∉ getLine piece := by
  intro hmem
  have hkept := List.mem_takeWhile_imp ((getLine_isPrefix piece).subset hmem)
  simp at hkept

theorem copyPiece_eq (username piece : Bytes) :
    copyPiece username piece =
      if OtherEntry username (getLine piece) then getLine piece ++ [newline] else [] := by
  have hnull := null_not_mem_getLine piece
  unfold copyPiece OtherEntry strchr
  dsimp only
  by_cases hcolon : colon ∈ getLine piece
  · have hne : getLine piece ≠ [] := List.ne_nil_of_mem hcolon
    by_cases hhash : (getLine piece).head? = some hashSign
    · simp [hhash]
    · by_cases hname : (getLine piece).takeWhile (· ≠ colon) = username <;>
        simp_all
  · simp [hcolon]

/-- The line break, and a carriage return in front of it, do not belong to the line. -/
theorem getLine_concat (hnull : (0 : UInt8) ∉ line) :
    getLine (line ++ [newline]) =
      if line.getLast? = some carriageReturn then line.dropLast else line := by
  have hwhole : cString (line ++ [newline]) = line ++ [newline] := by
    apply cString_eq_self
    rw [List.mem_append, not_or]
    exact ⟨hnull, by decide⟩
  simp only [getLine, hwhole, List.getLast?_concat, if_true, List.dropLast_concat]

theorem eq_concat_of_getLast? {last : UInt8} (h : line.getLast? = some last) :
    line = line.dropLast ++ [last] := by
  have hne : line ≠ [] := by
    rintro rfl
    cases h
  rw [List.getLast?_eq_some_getLast hne, Option.some.injEq] at h
  rw [← h, List.dropLast_append_getLast hne]

theorem OtherEntry.dropLast (h : OtherEntry username line)
    (hreturn : line.getLast? = some carriageReturn) : OtherEntry username line.dropLast := by
  obtain ⟨hnull, hhash, hcolon, hname⟩ := h
  have hline := eq_concat_of_getLast? hreturn
  generalize line.dropLast = front at hline ⊢
  subst hline
  have hfront : colon ∈ front := by
    rw [List.mem_append, List.mem_singleton] at hcolon
    exact hcolon.resolve_right (by decide)
  refine ⟨fun hmem ↦ hnull (List.mem_append_left _ hmem), ?_, hfront, ?_⟩
  · rwa [List.head?_append_of_ne_nil _ (List.ne_nil_of_mem hfront)] at hhash
  · intro hsame
    apply hname
    rw [List.takeWhile_append, if_neg, hsame]
    intro hall
    have hwhole : front.takeWhile (· ≠ colon) = front :=
      (List.takeWhile_prefix _).eq_of_length hall
    have hkept := List.mem_takeWhile_imp (hwhole.symm ▸ hfront)
    simp at hkept

theorem copyPiece_ne_nil (h : OtherEntry username line) (hbreak : newline ∉ line)
    (hpiece : piece = line ++ [newline] ∨ piece = line) : copyPiece username piece ≠ [] := by
  have hentry : OtherEntry username (getLine piece) := by
    rcases hpiece with rfl | rfl
    · rw [getLine_concat h.1]
      split
      · rename_i hreturn
        exact h.dropLast hreturn
      · exact h
    · rwa [getLine_unterminated h.1 hbreak]
  rw [copyPiece_eq, if_pos hentry]
  simp

theorem loadLine_dropLast {user : User} (h : loadLine line = some user)
    (hreturn : line.getLast? = some carriageReturn) :
    ∃ pass, loadLine line.dropLast = some ⟨user.name, pass⟩ := by
  obtain ⟨hline, hcolon, hcomment⟩ := line_of_loadLine h
  have hpass : user.pass.getLast? = some carriageReturn := by
    rw [hline, List.getLast?_append_of_ne_nil _ (by simp)] at hreturn
    cases hempty : user.pass with
    | nil =>
      rw [hempty] at hreturn
      exact absurd hreturn (by decide)
    | cons byte rest => rwa [hempty, List.getLast?_cons_cons] at hreturn
  have hend := eq_concat_of_getLast? hpass
  have hwhole : line = user.name ++ [colon] ++ user.pass.dropLast ++ [carriageReturn] := by
    rw [List.append_assoc, ← hend, hline, List.append_assoc, List.singleton_append]
  refine ⟨user.pass.dropLast, ?_⟩
  rw [hwhole, List.dropLast_concat]
  exact loadLine_line (fun hmem ↦ hcolon (List.dropLast_subset _ hmem)) hcomment

theorem loadedName_of_line {user : User} (h : loadLine line = some user)
    (hnull : (0 : UInt8) ∉ line) (hbreak : newline ∉ line)
    (hpiece : piece = line ++ [newline] ∨ piece = line) : loadedName piece = some user.name := by
  unfold loadedName loadPiece
  rcases hpiece with rfl | rfl
  · rw [getLine_concat hnull]
    split
    · rename_i hreturn
      obtain ⟨pass, hload⟩ := loadLine_dropLast h hreturn
      rw [hload]
      rfl
    · rw [h]
      rfl
  · rw [getLine_unterminated hnull hbreak, h]
    rfl

/-- Both ways of splitting agree on a name without colon only. -/
theorem copyPiece_of_loadedName (h : loadedName piece = some username) :
    copyPiece username piece = if colon ∈ username then getLine piece ++ [newline] else [] := by
  obtain ⟨user, hload, rfl⟩ := Option.map_eq_some_iff.mp h
  obtain ⟨hline, -, hcomment⟩ := line_of_loadLine hload
  have hmem : colon ∈ getLine piece := by
    rw [hline]
    exact List.mem_append_right _ (List.mem_cons_self ..)
  have hhash : (getLine piece).head? ≠ some hashSign := by
    rw [hline]
    cases hname : user.name with
    | nil =>
      rw [List.nil_append, List.head?_cons]
      decide
    | cons first rest => rwa [hname] at hcomment
  have hfirst : (getLine piece).takeWhile (· ≠ colon) = user.name ↔ colon ∉ user.name := by
    constructor
    · intro hsame hin
      have hkept := List.mem_takeWhile_imp (hsame.symm ▸ hin)
      simp at hkept
    · intro hfree
      rw [hline]
      exact takeWhile_ne_append_cons hfree _
  rw [copyPiece_eq]
  apply if_congr _ rfl rfl
  constructor
  · intro hentry
    by_contra hfree
    exact hentry.2.2.2 (hfirst.mpr hfree)
  · intro hcolon
    exact ⟨null_not_mem_getLine piece, hhash, hmem, fun hsame ↦ hfirst.mp hsame hcolon⟩

/-! ## The file that is written -/

section Pieces

variable {list : List Bytes} {full : Bool} {behind : Bytes}

/-- What is known of the pieces of a file: only the last one may be incomplete. -/
def PiecesOk (list : List Bytes) : Prop :=
  (∀ piece ∈ list, IsPiece newline lineSize piece) ∧
    list.Pairwise fun piece _ ↦ Ends newline lineSize piece

theorem piecesOk_readPieces (content : Bytes) : PiecesOk (readPieces content) :=
  ⟨fun _ hmem ↦ isPiece_of_mem_pieces (by decide) hmem, pairwise_pieces content⟩

theorem PiecesOk.tail (h : PiecesOk (piece :: list)) : PiecesOk list :=
  ⟨fun other hmem ↦ h.1 other (List.mem_cons_of_mem _ hmem), (List.pairwise_cons.mp h.2).2⟩

theorem PiecesOk.filter (h : PiecesOk list) (keep : Bytes → Bool) : PiecesOk (list.filter keep) :=
  ⟨fun piece hmem ↦ h.1 piece (List.mem_of_mem_filter hmem), h.2.filter keep⟩

/-- If a piece is followed by anything, it is complete. -/
theorem PiecesOk.ends (h : PiecesOk (piece :: list)) (keep : Bytes → Bool) :
    Ends newline lineSize piece ∨ (list.filter keep).flatten = [] := by
  cases list with
  | nil => exact Or.inr rfl
  | cons next list => exact Or.inl ((List.pairwise_cons.mp h.2).1 next (List.mem_cons_self ..))

theorem newline_not_mem_getLine_of_mem (h : PiecesOk list) (hmem : piece ∈ list) :
    newline ∉ getLine piece :=
  newline_not_mem_getLine (h.1 piece hmem).2.2

theorem getLine_length_le_of_mem (h : PiecesOk list) (hmem : piece ∈ list) :
    (getLine piece).length ≤ lineSize :=
  (getLine_length_le piece).trans (h.1 piece hmem).2.1

/-- The first line that is copied, if any. -/
theorem flatMap_copyPiece_cases (username : Bytes) (list : List Bytes) :
    list.flatMap (copyPiece username) = [] ∨
      ∃ piece ∈ list, OtherEntry username (getLine piece) ∧
        ∃ more, list.flatMap (copyPiece username) = getLine piece ++ newline :: more := by
  induction list with
  | nil => exact Or.inl rfl
  | cons piece list ih =>
    rw [List.flatMap_cons, copyPiece_eq]
    split
    · rename_i hentry
      refine Or.inr ⟨piece, List.mem_cons_self .., hentry, list.flatMap (copyPiece username), ?_⟩
      rw [List.append_assoc, List.singleton_append]
    · rcases ih with hnil | ⟨later, hmem, hentry, hmore⟩
      · exact Or.inl hnil
      · exact Or.inr ⟨later, List.mem_cons_of_mem _ hmem, hentry, hmore⟩

/-- A piece that is not copied is missing in what is written. -/
theorem flatMap_ne_of_dropped (hok : PiecesOk (piece :: list))
    (hdropped : copyPiece username piece = []) :
    list.flatMap (copyPiece username) ≠ piece ++ behind := by
  intro heq
  rcases flatMap_copyPiece_cases username list with hnil | ⟨later, hmem, hentry, more, hmore⟩
  · rw [hnil] at heq
    exact (hok.1 piece (List.mem_cons_self ..)).1 (List.append_eq_nil_iff.mp heq.symm).1
  · have hends : Ends newline lineSize piece := (List.pairwise_cons.mp hok.2).1 later hmem
    have hbreak := newline_not_mem_getLine_of_mem hok.tail hmem
    have hsame := piece_eq_line (hok.1 piece (List.mem_cons_self ..)) (Or.inl hends) hbreak
      (getLine_length_le_of_mem hok.tail hmem) (heq.symm.trans hmore)
    exact copyPiece_ne_nil hentry hbreak hsame hdropped

/-- An entry of the user that is copied is found nowhere in the rest of the old file. -/
theorem flatten_ne_of_copied {user : User} (hload : loadLine line = some user)
    (hnull : (0 : UInt8) ∉ line) (hbreak : newline ∉ line) (hfits : line.length ≤ lineSize)
    (hok : PiecesOk list) (hothers : ∀ piece ∈ list, loadedName piece ≠ some user.name) :
    list.flatten ≠ line ++ newline :: behind := by
  intro heq
  cases list with
  | nil => simp at heq
  | cons piece list =>
    have hends : Ends newline lineSize piece ∨ list.flatten = [] := by
      simpa using hok.ends fun _ ↦ true
    have hsame := piece_eq_line (hok.1 piece (List.mem_cons_self ..)) hends hbreak hfits heq
    exact hothers piece (List.mem_cons_self ..) (loadedName_of_line hload hnull hbreak hsame)

theorem eq_newline_of_cons (hpiece : IsPiece newline lineSize piece) {rest more : Bytes}
    (h : newline :: more = piece ++ rest) : piece = [newline] := by
  obtain ⟨hne, -, hfree⟩ := hpiece
  cases piece with
  | nil => exact absurd rfl hne
  | cons first tail =>
    rw [List.cons_append, List.cons.injEq] at h
    cases tail with
    | nil => rw [← h.1]
    | cons second tail =>
      rw [List.dropLast_cons_cons, ← h.1] at hfree
      exact absurd (List.mem_cons_self ..) hfree

/-- The line break that was written behind a line that filled the buffer. -/
def extraBreak (full : Bool) : Bytes := if full then [newline] else []

/-- An entry of the user is left out, unless its name has a colon: then it is copied, and what is
written cannot be what was to be kept. -/
theorem written_iff_of_user (hok : PiecesOk (piece :: list))
    (hname : loadedName piece = some username)
    (ih : extraBreak full ++ list.flatMap (copyPiece username) = (keptPieces username list).flatten ↔
      Copyable username full list) :
    extraBreak full ++ (piece :: list).flatMap (copyPiece username) =
        (keptPieces username (piece :: list)).flatten ↔ Copyable username full (piece :: list) := by
  have hkept : keptPieces username (piece :: list) = keptPieces username list :=
    List.filter_cons_of_neg (by simp [hname])
  rw [hkept, List.flatMap_cons, copyPiece_of_loadedName hname, Copyable, if_pos hname]
  by_cases hcolon : colon ∈ username
  · rw [if_pos hcolon, iff_false_right fun h ↦ h.1 hcolon]
    obtain ⟨user, hload, rfl⟩ := Option.map_eq_some_iff.mp hname
    have hmem : piece ∈ piece :: list := List.mem_cons_self ..
    have hdiffer : ∀ {rest : List Bytes} {behind : Bytes}, PiecesOk rest →
        (∀ other ∈ rest, loadedName other ≠ some user.name) →
        rest.flatten ≠ getLine piece ++ newline :: behind := fun hrest hothers ↦
      flatten_ne_of_copied hload (null_not_mem_getLine piece) (newline_not_mem_getLine_of_mem hok hmem)
        (getLine_length_le_of_mem hok hmem) hrest hothers
    have hothers : ∀ other ∈ keptPieces user.name list, loadedName other ≠ some user.name := by
      intro other hother
      simpa using (List.mem_filter.mp hother).2
    have hkeptOk : PiecesOk (keptPieces user.name list) := hok.tail.filter _
    intro heq
    rw [List.append_assoc, List.singleton_append] at heq
    cases full with
    | false => exact hdiffer hkeptOk hothers heq.symm
    | true =>
      -- the extra line break is matched first, and the entry remains
      cases hlist : keptPieces user.name list with
      | nil =>
        rw [hlist] at heq
        cases heq
      | cons next rest =>
        rw [hlist] at heq hkeptOk hothers
        have hnext : next = [newline] :=
          eq_newline_of_cons (hkeptOk.1 next (List.mem_cons_self ..)) heq
        rw [hnext] at heq
        exact hdiffer hkeptOk.tail (fun other hother ↦ hothers other (List.mem_cons_of_mem _ hother))
          (List.cons.inj heq).2.symm
  · rw [if_neg hcolon, List.nil_append, ih]
    exact (and_iff_right hcolon).symm

/-- Behind a line that filled the buffer, only its line break is skipped rightly. -/
theorem written_iff_of_full (hok : PiecesOk (piece :: list))
    (hname : loadedName piece ≠ some username)
    (ih : list.flatMap (copyPiece username) = (keptPieces username list).flatten ↔
      Copyable username false list) :
    extraBreak true ++ (piece :: list).flatMap (copyPiece username) =
        (keptPieces username (piece :: list)).flatten ↔ Copyable username true (piece :: list) := by
  have hkept : keptPieces username (piece :: list) = piece :: keptPieces username list :=
    List.filter_cons_of_pos (by simpa using hname)
  rw [hkept, List.flatMap_cons, List.flatten_cons, Copyable, if_neg hname, if_pos rfl, ← ih]
  constructor
  · intro heq
    have hpiece := eq_newline_of_cons (hok.1 piece (List.mem_cons_self ..)) heq
    subst hpiece
    exact ⟨rfl, (List.cons.inj heq).2⟩
  · rintro ⟨rfl, heq⟩
    rw [← heq]
    rfl

/-- A line with its line break is copied as it stands if it is an entry without carriage return. -/
theorem copyPiece_eq_self_iff (hlast : piece.getLast? = some newline) :
    copyPiece username piece = piece ↔
      OtherEntry username piece.dropLast ∧ piece.dropLast.getLast? ≠ some carriageReturn := by
  have hwhole := eq_concat_of_getLast? hlast
  constructor
  · intro hcopy
    have hentry : OtherEntry username (getLine piece) := by
      by_contra hnot
      rw [copyPiece_eq, if_neg hnot] at hcopy
      rw [← hcopy] at hlast
      cases hlast
    have hline : getLine piece ++ [newline] = piece := by
      rw [copyPiece_eq, if_pos hentry] at hcopy
      exact hcopy
    have hbody : piece.dropLast = getLine piece := by
      conv_lhs => rw [← hline, List.dropLast_concat]
    rw [hbody]
    refine ⟨hentry, ?_⟩
    intro hreturn
    have hshort := getLine_concat hentry.1
    rw [if_pos hreturn, hline] at hshort
    have hlength := congrArg List.length hshort
    have hpos := List.length_pos_of_ne_nil (List.ne_nil_of_mem hentry.2.2.1)
    rw [List.length_dropLast] at hlength
    omega
  · rintro ⟨hentry, hreturn⟩
    have hline : getLine piece = piece.dropLast := by
      conv_lhs => rw [hwhole]
      exact getLine_line hentry.1 hreturn
    rw [copyPiece_eq, hline, if_pos hentry, ← hwhole]

/-- A line break is all that is added to a piece without one. -/
theorem copyPiece_eq_concat_iff (hbreak : newline ∉ piece) :
    copyPiece username piece = piece ++ [newline] ↔ OtherEntry username piece := by
  constructor
  · intro hcopy
    have hentry : OtherEntry username (getLine piece) := by
      by_contra hnot
      rw [copyPiece_eq, if_neg hnot] at hcopy
      exact absurd hcopy.symm (by simp)
    rw [copyPiece_eq, if_pos hentry] at hcopy
    rwa [List.append_cancel_right hcopy] at hentry
  · intro hentry
    rw [copyPiece_eq, getLine_unterminated hentry.1 hbreak, if_pos hentry]

/-- What is written agrees with a piece that was to be kept only if the piece is copied as it stands, or
with a line break more. -/
theorem copyPiece_cases_of_written (hok : PiecesOk (piece :: list)) {keep : Bytes → Bool}
    (heq : copyPiece username piece ++ list.flatMap (copyPiece username) =
      piece ++ (list.filter keep).flatten) :
    copyPiece username piece = piece ∨ copyPiece username piece = piece ++ [newline] := by
  have hmem : piece ∈ piece :: list := List.mem_cons_self ..
  by_cases hentry : OtherEntry username (getLine piece)
  · rw [copyPiece_eq, if_pos hentry] at heq ⊢
    rw [List.append_assoc, List.singleton_append] at heq
    have hsame := piece_eq_line (hok.1 piece hmem) (hok.ends keep)
      (newline_not_mem_getLine_of_mem hok hmem) (getLine_length_le_of_mem hok hmem) heq.symm
    rcases hsame with hsame | hsame
    · exact Or.inl hsame.symm
    · exact Or.inr (by rw [← hsame])
  · have hdropped : copyPiece username piece = [] := by rw [copyPiece_eq, if_neg hentry]
    rw [hdropped] at heq
    exact absurd heq (flatMap_ne_of_dropped hok hdropped)

/-- Any other piece is copied as it stands, or the line break is all it lacks. -/
theorem written_iff_of_other (hok : PiecesOk (piece :: list))
    (hname : loadedName piece ≠ some username)
    (ih : ∀ full, extraBreak full ++ list.flatMap (copyPiece username) =
      (keptPieces username list).flatten ↔ Copyable username full list) :
    (piece :: list).flatMap (copyPiece username) = (keptPieces username (piece :: list)).flatten ↔
      Copyable username false (piece :: list) := by
  have hpiece := hok.1 piece (List.mem_cons_self ..)
  have hkept : keptPieces username (piece :: list) = piece :: keptPieces username list :=
    List.filter_cons_of_pos (by simpa using hname)
  rw [hkept, List.flatMap_cons, List.flatten_cons, Copyable, if_neg hname, if_neg Bool.false_ne_true]
  by_cases hlast : piece.getLast? = some newline
  · rw [if_pos hlast]
    constructor
    · intro heq
      have hcopy : copyPiece username piece = piece := by
        apply (copyPiece_cases_of_written hok heq).resolve_right
        intro hlonger
        rw [copyPiece_eq] at hlonger
        split at hlonger
        · have hsame := List.append_cancel_right hlonger
          rw [← hsame] at hlast
          exact newline_not_mem_getLine hpiece.2.2 (List.mem_of_getLast? hlast)
        · simp at hlonger
      rw [hcopy] at heq
      obtain ⟨hentry, hreturn⟩ := (copyPiece_eq_self_iff hlast).mp hcopy
      exact ⟨hentry, hreturn, (ih false).mp (List.append_cancel_left heq)⟩
    · rintro ⟨hentry, hreturn, hrest⟩
      rw [(copyPiece_eq_self_iff hlast).mpr ⟨hentry, hreturn⟩, ← (ih false).mpr hrest]
      rfl
  · have hbreak : newline ∉ piece := hpiece.separator_not_mem hlast
    rw [if_neg hlast]
    constructor
    · intro heq
      have hcopy : copyPiece username piece = piece ++ [newline] := by
        apply (copyPiece_cases_of_written hok heq).resolve_left
        intro hsame
        rw [copyPiece_eq] at hsame
        split at hsame
        · rw [← hsame, List.getLast?_concat] at hlast
          exact hlast rfl
        · exact hpiece.1 hsame.symm
      rw [hcopy, List.append_assoc] at heq
      exact ⟨(copyPiece_eq_concat_iff hbreak).mp hcopy, (ih true).mp (List.append_cancel_left heq)⟩
    · rintro ⟨hentry, hrest⟩
      rw [(copyPiece_eq_concat_iff hbreak).mpr hentry, List.append_assoc, ← (ih true).mpr hrest]
      rfl

/-- What is written is what was to be kept if and only if everything else can be copied. -/
theorem written_iff_copyable (hok : PiecesOk list) (full : Bool) :
    extraBreak full ++ list.flatMap (copyPiece username) = (keptPieces username list).flatten ↔
      Copyable username full list := by
  induction list generalizing full with
  | nil => cases full <;> simp [extraBreak, keptPieces, Copyable]
  | cons piece list ih =>
    by_cases hname : loadedName piece = some username
    · exact written_iff_of_user hok hname (ih hok.tail full)
    · cases full with
      | true => exact written_iff_of_full hok hname (ih hok.tail false)
      | false => exact written_iff_of_other hok hname (ih hok.tail)

theorem copyOthers_eq_withoutUser_iff (username content : Bytes) :
    copyOthers username content = withoutUser username content ↔
      Copyable username false (readPieces content) :=
  written_iff_copyable (piecesOk_readPieces content) false

end Pieces

/-! ## Authentication of the others -/

section Calls

variable {find : List User → Bytes → Option User} {getHash : Bytes → Bytes} {s : State} {file : File}
  {now : ℤ}

/-- The entries of all others, and no more, are loaded from what was to be kept. -/
theorem mem_loadUsers_withoutUser {content : Bytes} {user : User} :
    user ∈ loadUsers (withoutUser username content) ↔
      user ∈ loadUsers content ∧ user.name ≠ username := by
  have hpieces : readPieces (withoutUser username content) =
      keptPieces username (readPieces content) := pieces_flatten_filter _ content
  rw [loadUsers, hpieces, loadUsers, List.mem_filterMap, List.mem_filterMap]
  constructor
  · rintro ⟨piece, hmem, hload⟩
    obtain ⟨hread, hkept⟩ := List.mem_filter.mp hmem
    exact ⟨⟨piece, hread, hload⟩, by simpa [loadedName, hload] using hkept⟩
  · rintro ⟨⟨piece, hread, hload⟩, hname⟩
    exact ⟨piece, List.mem_filter.mpr ⟨hread, by simpa [loadedName, hload] using hname⟩, hload⟩

/-- The file is as before without the entries of the user. -/
def FileExact (s : State) (file : File) (username : Bytes) (now : ℤ) : Prop :=
  (htpasswdDeleteuser s username now).2.file = some ⟨withoutUser username file.content, now⟩

instance (s : State) (file : File) (username : Bytes) (now : ℤ) :
    Decidable (FileExact s file username now) :=
  inferInstanceAs (Decidable (_ = _))

/-- Nothing has changed for all others. -/
def OthersUnaffected (find : List User → Bytes → Option User) (getHash : Bytes → Bytes) (s : State)
    (username : Bytes) (now : ℤ) : Prop :=
  ∀ other, other ≠ username → ∀ attempt,
    (htpasswdAuth find getHash (htpasswdDeleteuser s username now).2 other attempt).1 =
      (htpasswdAuth find getHash s other attempt).1

/-- The users in memory are the ones of the file, its time is not mistaken for that of an older
version, and no name is listed with two passwords. -/
structure MemoryOk (s : State) (file : File) (now : ℤ) : Prop where
  current : (htpasswdRecheckfile s).users = loadUsers file.content
  fresh : now = s.mtime → file.mtime = s.mtime
  consistent : Consistent (loadUsers file.content)

theorem recheckfile_of_mtime (hfile : s.file = some file) (hsame : file.mtime = s.mtime) :
    htpasswdRecheckfile s = s := by
  simp only [htpasswdRecheckfile, hfile, if_pos hsame]

theorem deleteuser_eq (hfile : s.file = some file)
    (hdeleted : (htpasswdDeleteuser s username now).1 = .userdeleted) :
    (htpasswdDeleteuser s username now).2 =
      htpasswdRecheckfile { s with file := some ⟨copyOthers username file.content, now⟩ } := by
  simp only [htpasswdDeleteuser, hfile] at hdeleted ⊢
  split
  · rename_i hexists
    rw [if_pos hexists] at hdeleted
    cases hdeleted
  · rfl

/-- What is in memory afterwards: the new file is read if its time has changed. -/
theorem users_of_deleteuser (hfile : s.file = some file)
    (hdeleted : (htpasswdDeleteuser s username now).1 = .userdeleted) :
    (htpasswdRecheckfile (htpasswdDeleteuser s username now).2).users =
      if now = s.mtime then s.users else loadUsers (copyOthers username file.content) := by
  rw [deleteuser_eq hfile hdeleted]
  have hchecked : (htpasswdRecheckfile
      { s with file := some ⟨copyOthers username file.content, now⟩ }).mtime = now :=
    @recheckfile_mtime { s with file := some ⟨copyOthers username file.content, now⟩ }
      ⟨copyOthers username file.content, now⟩ rfl
  rw [recheckfile_of_mtime (recheckfile_file _) hchecked.symm]
  simp only [htpasswdRecheckfile]
  split <;> rfl

theorem fileExact_iff (hfile : s.file = some file)
    (hdeleted : (htpasswdDeleteuser s username now).1 = .userdeleted) :
    FileExact s file username now ↔ Copyable username false (readPieces file.content) := by
  rw [FileExact, deleteuser_eq hfile hdeleted, recheckfile_file, ← copyOthers_eq_withoutUser_iff]
  simp

theorem othersUnaffected_of_copyable (hlookup : Lookup find) (hfile : s.file = some file)
    (hdeleted : (htpasswdDeleteuser s username now).1 = .userdeleted) (hok : MemoryOk s file now)
    (hcopyable : Copyable username false (readPieces file.content)) :
    OthersUnaffected find getHash s username now := by
  intro other hother attempt
  rw [htpasswdAuth_eq, htpasswdAuth_eq, users_of_deleteuser hfile hdeleted, hok.current]
  split
  · rename_i hnow
    rw [← hok.current, recheckfile_of_mtime hfile (hok.fresh hnow)]
  · rw [(copyOthers_eq_withoutUser_iff username file.content).mpr hcopyable]
    apply authWith_congr hlookup hok.consistent
    intro user hname
    rw [mem_loadUsers_withoutUser, and_iff_left_iff_imp]
    intro _
    rwa [hname]

/-- Removing a user changes nothing else in the file if and only if everything else can be copied;
and if the memory agrees with the file, all others are then authenticated as before. -/
theorem htpasswd_delete_exact (hlookup : Lookup find) (hfile : s.file = some file)
    (hdeleted : (htpasswdDeleteuser s username now).1 = .userdeleted) :
    (FileExact s file username now ↔ Copyable username false (readPieces file.content)) ∧
    (MemoryOk s file now →
      (FileExact s file username now ∧ OthersUnaffected find getHash s username now ↔
        Copyable username false (readPieces file.content))) := by
  have hexact : FileExact s file username now ↔ Copyable username false (readPieces file.content) :=
    fileExact_iff hfile hdeleted
  refine ⟨hexact, fun hok ↦ ⟨fun h ↦ hexact.mp h.1, fun hcopyable ↦ ⟨hexact.mpr hcopyable, ?_⟩⟩⟩
  exact othersUnaffected_of_copyable hlookup hfile hdeleted hok hcopyable

end Calls

/-- A file with the entries of two users, changed at the second 100 and read after that. -/
def twoUsers : State where
  file := some ⟨alice ++ [colon, 49, newline] ++ bob ++ [colon, 50, newline], 100⟩
  tmpfileExists := false
  users := [⟨alice, [49]⟩, ⟨bob, [50]⟩]
  mtime := 100

/-- The entry of the other user is copied as it stands. -/
theorem htpasswd_delete_alice :
    FileExact twoUsers ⟨alice ++ [colon, 49, newline] ++ bob ++ [colon, 50, newline], 100⟩ alice 101 ∧
      OthersUnaffected findFirst (fun _ ↦ hashOfSecret) twoUsers alice 101 := by
  have hok : MemoryOk twoUsers
      ⟨alice ++ [colon, 49, newline] ++ bob ++ [colon, 50, newline], 100⟩ 101 :=
    ⟨by decide, by decide, by decide⟩
  exact ((htpasswd_delete_exact findFirst_lookup rfl rfl).2 hok).mpr (by decide)

/-- A comment and an entry of the user `a:b` -/
def colonUser : State where
  file := some ⟨[hashSign, newline] ++ [97, colon, 98, colon, 49, newline], 100⟩
  tmpfileExists := false
  users := [⟨[97, colon, 98], [49]⟩]
  mtime := 100

/-- The comment is lost, and the entry is still there. -/
theorem not_htpasswd_delete_exact :
    ¬ ∀ (s : State) (file : File) (username : Bytes) (now : ℤ), s.file = some file →
      (htpasswdDeleteuser s username now).1 = .userdeleted → FileExact s file username now := by
  intro h
  have hexact := h colonUser ⟨[hashSign, newline] ++ [97, colon, 98, colon, 49, newline], 100⟩
    [97, colon, 98] 101 rfl rfl
  exact absurd hexact (by decide)

end Icecast.Auth.Htpasswd
