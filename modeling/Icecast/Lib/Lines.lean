import Mathlib.Data.List.Basic

/-!
# Reading by lines into a buffer of fixed size

Repeated reads bring the items up to and including a separator, but never more than `size` of them.
A longer line comes in several pieces. Pieces put together are what was read, and what is added behind
a text that was read completely does not change its pieces.
-/

namespace Icecast.Lib.Lines

variable {α : Type*} [DecidableEq α] (separator : α) (size : ℕ)

/-- The pieces that are complete, when `current` has been read of the piece at hand. -/
def closedPieces : List α → List α → List (List α)
  | _, [] => []
  | current, item :: rest =>
    if item = separator ∨ current.length + 1 = size then
      (current ++ [item]) :: closedPieces [] rest
    else closedPieces (current ++ [item]) rest

/-- What has been read of the piece at hand in the end. -/
def openPiece : List α → List α → List α
  | current, [] => current
  | current, item :: rest =>
    if item = separator ∨ current.length + 1 = size then openPiece [] rest
    else openPiece (current ++ [item]) rest

/-- All pieces; at the end of the text a piece may lack its separator. -/
def piecesFrom (current text : List α) : List (List α) :=
  closedPieces separator size current text ++
    (if openPiece separator size current text = [] then []
      else [openPiece separator size current text])

def pieces (text : List α) : List (List α) := piecesFrom separator size [] text

variable {separator size} {current text : List α}

theorem closedPieces_append (current first second : List α) :
    closedPieces separator size current (first ++ second) =
      closedPieces separator size current first ++
        closedPieces separator size (openPiece separator size current first) second := by
  induction first generalizing current with
  | nil => rfl
  | cons item first ih =>
    simp only [List.cons_append, closedPieces, openPiece]
    split
    · rw [ih, List.cons_append]
    · exact ih _

theorem openPiece_append (current first second : List α) :
    openPiece separator size current (first ++ second) =
      openPiece separator size (openPiece separator size current first) second := by
  induction first generalizing current with
  | nil => rfl
  | cons item first ih =>
    simp only [List.cons_append, openPiece]
    split <;> exact ih _

/-- Behind a text that was read completely, the pieces of what follows are its own. -/
theorem pieces_append {first : List α} (hclosed : openPiece separator size [] first = [])
    (second : List α) :
    pieces separator size (first ++ second) =
      pieces separator size first ++ pieces separator size second := by
  rw [pieces, pieces, pieces, piecesFrom, piecesFrom, piecesFrom, closedPieces_append,
    openPiece_append, hclosed]
  simp

theorem flatten_closedPieces (current text : List α) :
    (closedPieces separator size current text).flatten ++ openPiece separator size current text =
      current ++ text := by
  induction text generalizing current with
  | nil => simp [closedPieces, openPiece]
  | cons item rest ih =>
    simp only [closedPieces, openPiece]
    split
    · rw [List.flatten_cons, List.append_assoc, ih]
      simp
    · rw [ih]
      simp

theorem flatten_pieces (text : List α) : (pieces separator size text).flatten = text := by
  have hall := @flatten_closedPieces α _ separator size [] text
  rw [pieces, piecesFrom, List.flatten_append]
  split
  · rename_i hclosed
    rw [hclosed] at hall
    simpa using hall
  · simpa using hall

/-- A text without separator that does not fill the buffer is the piece at hand. -/
theorem pieces_short (htext : separator ∉ text) (hfits : current.length + text.length < size) :
    closedPieces separator size current text = [] ∧
      openPiece separator size current text = current ++ text := by
  induction text generalizing current with
  | nil => exact ⟨rfl, (List.append_nil current).symm⟩
  | cons item rest ih =>
    rw [List.mem_cons, not_or] at htext
    rw [List.length_cons] at hfits
    have hgoes : ¬(item = separator ∨ current.length + 1 = size) := by
      rintro (hsame | hfull)
      · exact htext.1 hsame.symm
      · omega
    obtain ⟨hclosed, hopen⟩ := @ih (current ++ [item]) htext.2 (by simp; omega)
    simp only [closedPieces, openPiece]
    rw [if_neg hgoes, if_neg hgoes, hclosed, hopen]
    exact ⟨rfl, by simp⟩

/-- A separator ends a piece, and so does a full buffer. -/
def IsPiece (separator : α) (size : ℕ) (piece : List α) : Prop :=
  piece ≠ [] ∧ piece.length ≤ size ∧ separator ∉ piece.dropLast

omit [DecidableEq α] in
theorem IsPiece.separator_not_mem {piece : List α} (h : IsPiece separator size piece)
    (hlast : piece.getLast? ≠ some separator) : separator ∉ piece := by
  intro hmem
  rw [← List.dropLast_append_getLast h.1, List.mem_append, List.mem_singleton] at hmem
  rcases hmem with hmem | hmem
  · exact h.2.2 hmem
  · exact hlast ((List.getLast?_eq_some_getLast h.1).trans (congrArg some hmem.symm))

theorem isPiece_of_mem_closedPieces (hcurrent : separator ∉ current) (hroom : current.length < size)
    {piece : List α} (hmem : piece ∈ closedPieces separator size current text) :
    IsPiece separator size piece := by
  induction text generalizing current with
  | nil => cases hmem
  | cons item rest ih =>
    simp only [closedPieces] at hmem
    split at hmem
    · rcases List.mem_cons.mp hmem with rfl | hmem
      · refine ⟨by simp, by simp; omega, ?_⟩
        rw [List.dropLast_concat]
        exact hcurrent
      · exact ih List.not_mem_nil (by simp; omega) hmem
    · rename_i hgoes
      rw [not_or] at hgoes
      refine ih ?_ (by simp; omega) hmem
      rw [List.mem_append, not_or]
      exact ⟨hcurrent, by simpa using Ne.symm hgoes.1⟩

theorem openPiece_spec (hcurrent : separator ∉ current) (hroom : current.length < size)
    (text : List α) : separator ∉ openPiece separator size current text ∧
      (openPiece separator size current text).length < size := by
  induction text generalizing current with
  | nil => exact ⟨hcurrent, hroom⟩
  | cons item rest ih =>
    simp only [openPiece]
    split
    · exact ih List.not_mem_nil (by simp; omega)
    · rename_i hgoes
      rw [not_or] at hgoes
      refine ih ?_ (by simp; omega)
      rw [List.mem_append, not_or]
      exact ⟨hcurrent, by simpa using Ne.symm hgoes.1⟩

theorem isPiece_of_mem_pieces (hsize : 0 < size) {piece : List α}
    (hmem : piece ∈ pieces separator size text) : IsPiece separator size piece := by
  rw [pieces, piecesFrom, List.mem_append] at hmem
  rcases hmem with hmem | hmem
  · exact isPiece_of_mem_closedPieces List.not_mem_nil hsize hmem
  · obtain ⟨hfree, hlength⟩ :=
      @openPiece_spec α _ separator size [] List.not_mem_nil hsize text
    split at hmem
    · cases hmem
    · rename_i hopen
      rw [List.mem_singleton.mp hmem]
      exact ⟨hopen, Nat.le_of_lt hlength, fun h ↦ hfree (List.dropLast_subset _ h)⟩

/-- A line that fits is one piece; one that just fills the buffer leaves its separator behind. -/
theorem pieces_line {line : List α} (hline : separator ∉ line) (hfits : line.length ≤ size)
    (hsize : 1 < size) :
    pieces separator size (line ++ [separator]) =
      if line.length < size then [line ++ [separator]] else [line, [separator]] := by
  by_cases hshort : line.length < size
  · obtain ⟨hclosed, hopen⟩ := @pieces_short α _ separator size [] line hline (by simpa using hshort)
    rw [if_pos hshort, pieces, piecesFrom, closedPieces_append, openPiece_append, hclosed, hopen]
    simp [closedPieces, openPiece]
  · rw [if_neg hshort]
    have hne : line ≠ [] := by
      rw [← List.length_pos_iff]
      omega
    have hinit : separator ∉ line.dropLast := fun h ↦ hline (List.dropLast_subset _ h)
    obtain ⟨hclosed, hopen⟩ := @pieces_short α _ separator size [] line.dropLast hinit
      (by rw [List.length_dropLast, List.length_nil]; omega)
    have hlast : line.dropLast.length + 1 = size := by
      rw [List.length_dropLast]
      omega
    have hwhole : line = line.dropLast ++ [line.getLast hne] :=
      (List.dropLast_append_getLast hne).symm
    have hlineClosed : closedPieces separator size [] line = [line] := by
      rw [hwhole, closedPieces_append, hclosed, hopen, ← hwhole]
      simp only [closedPieces, List.nil_append]
      rw [if_pos (Or.inr hlast), ← hwhole]
    have hlineOpen : openPiece separator size [] line = [] := by
      rw [hwhole, openPiece_append, hopen]
      simp only [openPiece, List.nil_append]
      exact if_pos (Or.inr hlast)
    rw [pieces, piecesFrom, closedPieces_append, openPiece_append, hlineClosed, hlineOpen]
    simp [closedPieces, openPiece]

/-! ## Leaving out pieces -/

/-- Reading the piece alone brings it back as the piece at hand. -/
def IsOpen (separator : α) (size : ℕ) (piece : List α) : Prop :=
  closedPieces separator size [] piece = [] ∧ openPiece separator size [] piece = piece

/-- Reading the piece alone brings it back as a complete piece. -/
def IsClosed (separator : α) (size : ℕ) (piece : List α) : Prop :=
  closedPieces separator size [] piece = [piece] ∧ openPiece separator size [] piece = []

theorem isOpen_nil : IsOpen separator size [] := ⟨rfl, rfl⟩

theorem IsOpen.concat (hcurrent : IsOpen separator size current) {item : α}
    (hgoes : ¬(item = separator ∨ current.length + 1 = size)) :
    IsOpen separator size (current ++ [item]) := by
  rw [IsOpen, closedPieces_append, openPiece_append, hcurrent.1, hcurrent.2]
  simp only [closedPieces, openPiece]
  rw [if_neg hgoes, if_neg hgoes]
  exact ⟨rfl, rfl⟩

theorem IsOpen.close (hcurrent : IsOpen separator size current) {item : α}
    (hends : item = separator ∨ current.length + 1 = size) :
    IsClosed separator size (current ++ [item]) := by
  rw [IsClosed, closedPieces_append, openPiece_append, hcurrent.1, hcurrent.2]
  simp only [closedPieces, openPiece]
  rw [if_pos hends, if_pos hends]
  exact ⟨rfl, rfl⟩

theorem isClosed_of_mem_closedPieces (hcurrent : IsOpen separator size current) {piece : List α}
    (hmem : piece ∈ closedPieces separator size current text) : IsClosed separator size piece := by
  induction text generalizing current with
  | nil => cases hmem
  | cons item rest ih =>
    simp only [closedPieces] at hmem
    split at hmem
    · rename_i hends
      rcases List.mem_cons.mp hmem with rfl | hmem
      · exact hcurrent.close hends
      · exact ih isOpen_nil hmem
    · rename_i hgoes
      exact ih (hcurrent.concat hgoes) hmem

theorem isOpen_openPiece (hcurrent : IsOpen separator size current) (text : List α) :
    IsOpen separator size (openPiece separator size current text) := by
  induction text generalizing current with
  | nil => exact hcurrent
  | cons item rest ih =>
    simp only [openPiece]
    split
    · exact ih isOpen_nil
    · rename_i hgoes
      exact ih (hcurrent.concat hgoes)

theorem pieces_of_isOpen (hpiece : IsOpen separator size current) :
    pieces separator size current = if current = [] then [] else [current] := by
  rw [pieces, piecesFrom, hpiece.1, hpiece.2, List.nil_append]

/-- Complete pieces put together are read as they are. -/
theorem pieces_flatten_append {list : List (List α)}
    (hlist : ∀ piece ∈ list, IsClosed separator size piece) (rest : List α) :
    pieces separator size (list.flatten ++ rest) = list ++ pieces separator size rest := by
  induction list with
  | nil => rfl
  | cons piece list ih =>
    obtain ⟨hclosed, hopen⟩ := hlist piece (List.mem_cons_self ..)
    have hpiece : pieces separator size piece = [piece] := by
      rw [pieces, piecesFrom, hclosed, hopen, if_pos rfl, List.append_nil]
    rw [List.flatten_cons, List.append_assoc, pieces_append hopen, hpiece,
      ih fun other hmem ↦ hlist other (List.mem_cons_of_mem _ hmem)]
    rfl

/-- Pieces that are left out do not change the others. -/
theorem pieces_flatten_filter (keep : List α → Bool) (text : List α) :
    pieces separator size ((pieces separator size text).filter keep).flatten =
      (pieces separator size text).filter keep := by
  have hclosed : ∀ piece ∈ (closedPieces separator size [] text).filter keep,
      IsClosed separator size piece := by
    intro piece hmem
    exact isClosed_of_mem_closedPieces isOpen_nil (List.mem_of_mem_filter hmem)
  have hopen := isOpen_openPiece (isOpen_nil : IsOpen separator size []) text
  have hall : pieces separator size text = closedPieces separator size [] text ++
      pieces separator size (openPiece separator size [] text) := by
    rw [pieces_of_isOpen hopen, pieces, piecesFrom]
  rw [hall, List.filter_append, List.flatten_append, pieces_flatten_append hclosed]
  congr 1
  rw [pieces_of_isOpen hopen]
  split
  · rfl
  · rename_i hne
    cases hkeep : keep (openPiece separator size [] text) with
    | false =>
      rw [List.filter_cons_of_neg (by simp [hkeep])]
      rfl
    | true =>
      rw [List.filter_cons_of_pos hkeep, List.filter_nil, List.flatten_singleton,
        pieces_of_isOpen hopen, if_neg hne]

/-! ## Comparing with lines -/

def Ends (separator : α) (size : ℕ) (piece : List α) : Prop :=
  piece.getLast? = some separator ∨ piece.length = size

theorem ends_of_mem_closedPieces {piece : List α}
    (hmem : piece ∈ closedPieces separator size current text) : Ends separator size piece := by
  induction text generalizing current with
  | nil => cases hmem
  | cons item rest ih =>
    simp only [closedPieces] at hmem
    split at hmem
    · rename_i hends
      rcases List.mem_cons.mp hmem with rfl | hmem
      · rw [Ends, List.getLast?_concat, List.length_append, List.length_singleton]
        exact hends.imp (congrArg some) id
      · exact ih hmem
    · exact ih hmem

/-- Only the last piece may be incomplete. -/
theorem pairwise_pieces (text : List α) :
    (pieces separator size text).Pairwise fun piece _ ↦ Ends separator size piece := by
  rw [pieces, piecesFrom, List.pairwise_append]
  refine ⟨List.pairwise_of_forall_mem_list fun piece hmem _ _ ↦ ends_of_mem_closedPieces hmem, ?_,
    fun piece hmem _ _ ↦ ends_of_mem_closedPieces hmem⟩
  split
  · exact List.Pairwise.nil
  · exact List.pairwise_singleton ..

omit [DecidableEq α] in
/-- The text in front of the first separator is determined. -/
theorem eq_of_append_separator {first second rest more : List α} (hfirst : separator ∉ first)
    (hsecond : separator ∉ second)
    (h : first ++ separator :: rest = second ++ separator :: more) : first = second := by
  induction first generalizing second with
  | nil =>
    cases second with
    | nil => rfl
    | cons item second =>
      rw [List.nil_append, List.cons_append, List.cons.injEq] at h
      exact absurd (h.1 ▸ List.mem_cons_self ..) hsecond
  | cons item first ih =>
    cases second with
    | nil =>
      rw [List.nil_append, List.cons_append, List.cons.injEq] at h
      exact absurd (h.1 ▸ List.mem_cons_self ..) hfirst
    | cons other second =>
      rw [List.cons_append, List.cons_append, List.cons.injEq] at h
      rw [List.mem_cons, not_or] at hfirst hsecond
      rw [h.1, ih hfirst.2 hsecond.2 h.2]

/-- A text that begins with a piece as well as with a line that fits: the piece is the line, with or
without its separator. -/
theorem piece_eq_line {piece line rest more : List α} (hpiece : IsPiece separator size piece)
    (hends : Ends separator size piece ∨ rest = []) (hline : separator ∉ line)
    (hfits : line.length ≤ size) (h : piece ++ rest = line ++ separator :: more) :
    piece = line ++ [separator] ∨ piece = line := by
  by_cases hlast : piece.getLast? = some separator
  · left
    rw [List.getLast?_eq_some_getLast hpiece.1, Option.some.injEq] at hlast
    have hwhole := List.dropLast_append_getLast hpiece.1
    rw [← hwhole, hlast] at h ⊢
    rw [List.append_assoc, List.singleton_append] at h
    rw [eq_of_append_separator hpiece.2.2 hline h]
  · right
    have hmem := hpiece.separator_not_mem hlast
    have hfull : piece.length = size := by
      rcases hends with (hends | hfull) | hrest
      · exact absurd hends hlast
      · exact hfull
      · rw [hrest, List.append_nil] at h
        exact absurd (h ▸ List.mem_append_right _ (List.mem_cons_self ..)) hmem
    rcases List.append_eq_append_iff.mp h with ⟨front, hfront, -⟩ | ⟨front, hfront, hbehind⟩
    · have hzero : front = [] := by
        rw [← List.length_eq_zero_iff]
        have := congrArg List.length hfront
        rw [List.length_append] at this
        omega
      rw [hfront, hzero, List.append_nil]
    · cases front with
      | nil => rw [hfront, List.append_nil]
      | cons item front =>
        rw [List.cons_append, List.cons.injEq] at hbehind
        rw [hfront, ← hbehind.1] at hmem
        exact absurd (List.mem_append_right _ (List.mem_cons_self ..)) hmem

end Icecast.Lib.Lines
