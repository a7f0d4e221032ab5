import Icecast.Format.Comments
import Mathlib.Algebra.Group.Nat.Defs

/-!
# The list of streams for slaves

`stats_get_streams` (`stats.c`) writes the names of the mounts into blocks of 4096 bytes, one name a line.
A name that does not fit into the rest of a block begins a new one. What `snprintf` returns is the length of
the whole line, also where the line is longer than a block.
-/

namespace Icecast.Stats.Streamlist

open Format.Comments (Bytes CString bytes zero_not_mem_replicate)

def streamlistBlksize : ℕ := 4096

/-- `stats_source_t`, as far as the list is concerned. -/
structure Mount where
  source : CString
  hidden : Bool

def Mount.line (mount : Mount) : Bytes := mount.source.1 ++ [13, 10]

/-- The blocks that are complete, and what is in the last one in front of `buffer`. -/
structure State where
  complete : List Bytes
  filled : Bytes
  remaining : ℕ

def start : State := ⟨[], [], streamlistBlksize⟩

/-- A new block, if the name is too long for the rest of this one. -/
def nextBlock (name : Bytes) (s : State) : State :=
  if s.remaining ≤ name.length + 3 then ⟨s.complete ++ [s.filled], [], streamlistBlksize⟩ else s

/-- A turn of the loop; there is no result if `remaining` would be less than zero. For a line whose
length is not an `int` `snprintf` returns a negative number. -/
def addMount (s : State) (mount : Mount) : Option State :=
  if mount.hidden then some s
  else
    let s := nextBlock mount.source.1 s
    if 2 ^ 31 ≤ mount.line.length then some s
    else if s.remaining < mount.line.length then none
    else
      let written := (mount.line.take (s.remaining - 1) ++ [0]).take mount.line.length
      some { s with filled := s.filled ++ written, remaining := s.remaining - mount.line.length }

def statsGetStreams (mounts : List Mount) : Option (List Bytes) :=
  (mounts.foldlM addMount start).map fun s ↦ s.complete ++ [s.filled]

/-! ## What it is for -/

def streamlist (mounts : List Mount) : Bytes :=
  (mounts.filter (!·.hidden)).flatMap Mount.line

structure Renders (mounts : List Mount) (blocks : List Bytes) : Prop where
  text : blocks.flatten = streamlist mounts
  length_le : ∀ block ∈ blocks, block.length ≤ streamlistBlksize

/-- The line of a mount that is not hidden fits into a block, with the zero byte of `snprintf`. -/
def Fits (mount : Mount) : Prop := mount.hidden = true ∨ mount.source.1.length ≤ 4093

/-! ## What a turn writes -/

/-- It does not depend on what is in the block. -/
def piece (mount : Mount) : Option Bytes :=
  if mount.hidden then some []
  else if 2 ^ 31 ≤ mount.line.length then some []
  else if streamlistBlksize < mount.line.length then none
  else some ((mount.line.take (streamlistBlksize - 1) ++ [0]).take mount.line.length)

def State.text (s : State) : Bytes := s.complete.flatten ++ s.filled

structure Inv (s : State) : Prop where
  remaining_eq : s.filled.length + s.remaining = streamlistBlksize
  length_le : ∀ block ∈ s.complete, block.length ≤ streamlistBlksize

theorem inv_start : Inv start := ⟨rfl, nofun⟩

variable {s : State} {mount : Mount}

theorem length_line (mount : Mount) : mount.line.length = mount.source.1.length + 2 := by
  rw [Mount.line, List.length_append]
  rfl

theorem Inv.nextBlock (h : Inv s) (name : Bytes) :
    Inv (nextBlock name s) ∧ (Streamlist.nextBlock name s).text = s.text ∧
      (name.length + 3 < (Streamlist.nextBlock name s).remaining ∨
        (Streamlist.nextBlock name s).remaining = streamlistBlksize) := by
  have hremaining := h.remaining_eq
  unfold Streamlist.nextBlock
  split
  · refine ⟨⟨by simp, ?_⟩, by simp [State.text], Or.inr rfl⟩
    intro block hblock
    rcases List.mem_append.mp hblock with hmem | hlast
    · exact h.length_le block hmem
    · rw [List.mem_singleton.mp hlast]
      omega
  · rename_i hroom
    exact ⟨h, rfl, Or.inl (Nat.lt_of_not_le hroom)⟩

/-- A line that fits is written as it is. -/
theorem take_line {line : Bytes} {size : ℕ} (h : line.length < size) :
    (line.take (size - 1) ++ [0]).take line.length = line := by
  have hall : line.take (size - 1) = line := List.take_of_length_le (by omega)
  rw [hall, List.take_left]

/-- In the block at hand a line is written as in an empty one. -/
theorem written_eq {line : Bytes} {remaining : ℕ} (hle : remaining ≤ streamlistBlksize)
    (hroom : line.length + 1 < remaining ∨ remaining = streamlistBlksize) :
    (line.take (remaining - 1) ++ [0]).take line.length =
      (line.take (streamlistBlksize - 1) ++ [0]).take line.length := by
  rcases hroom with hlt | heq
  · rw [take_line (by omega), take_line (by omega)]
  · rw [heq]

/-- A turn has no result, or it appends its piece. -/
theorem Inv.addMount (h : Inv s) (mount : Mount) :
    (addMount s mount = none ∧ piece mount = none) ∨
      ∃ s' written, addMount s mount = some s' ∧ piece mount = some written ∧ Inv s' ∧
        s'.text = s.text ++ written := by
  obtain ⟨hnext, htext, hroom⟩ := h.nextBlock mount.source.1
  have hline := length_line mount
  have hremaining := hnext.remaining_eq
  unfold Streamlist.addMount piece
  cases hhidden : mount.hidden with
  | true => exact Or.inr ⟨s, [], rfl, rfl, h, (List.append_nil _).symm⟩
  | false =>
    simp only [Bool.false_eq_true, if_false]
    by_cases hint : 2 ^ 31 ≤ mount.line.length
    · rw [if_pos hint, if_pos hint]
      exact Or.inr ⟨_, [], rfl, rfl, hnext, by rw [htext, List.append_nil]⟩
    · rw [if_neg hint, if_neg hint]
      by_cases hlong : streamlistBlksize < mount.line.length
      · rw [if_pos hlong, if_pos (by omega)]
        exact Or.inl ⟨rfl, rfl⟩
      · have hwritten := written_eq (by omega) (hroom.imp_left fun hlt ↦ (by omega :
          mount.line.length + 1 < (Streamlist.nextBlock mount.source.1 s).remaining))
        rw [if_neg hlong, if_neg (by omega), hwritten]
        refine Or.inr ⟨_, _, rfl, rfl, ⟨?_, hnext.length_le⟩, ?_⟩
        · have hlength : ((mount.line.take (streamlistBlksize - 1) ++ [0]).take
              mount.line.length).length = mount.line.length := by
            rw [List.length_take, List.length_append, List.length_take, List.length_singleton]
            omega
          simp only [List.length_append, hlength]
          omega
        · rw [← htext, State.text, State.text, List.append_assoc]

/-! ## The run -/

/-- What all turns write. -/
def pieces (mounts : List Mount) : Option Bytes := (mounts.mapM piece).map List.flatten

theorem pieces_cons (mount : Mount) (mounts : List Mount) : pieces (mount :: mounts) =
    (piece mount).bind fun written ↦ (pieces mounts).map (written ++ ·) := by
  rw [pieces, List.mapM_cons]
  cases piece mount with
  | none => rfl
  | some written =>
    cases hrest : mounts.mapM piece with
    | none => simp [pieces, hrest]
    | some rest => simp [pieces, hrest]

theorem Inv.foldlM (h : Inv s) (mounts : List Mount) :
    (mounts.foldlM Streamlist.addMount s = none ∧ pieces mounts = none) ∨
      ∃ s' written, mounts.foldlM Streamlist.addMount s = some s' ∧ pieces mounts = some written ∧
        Inv s' ∧ s'.text = s.text ++ written := by
  induction mounts generalizing s with
  | nil => exact Or.inr ⟨s, [], rfl, rfl, h, (List.append_nil _).symm⟩
  | cons mount mounts ih =>
    rw [List.foldlM_cons, pieces_cons]
    rcases h.addMount mount with ⟨hnone, hpiece⟩ | ⟨s', written, hsome, hpiece, hs', htext⟩
    · rw [hnone, hpiece]
      exact Or.inl ⟨rfl, rfl⟩
    · rw [hsome, hpiece, Option.bind_some]
      rcases ih hs' with ⟨hnone, hrest⟩ | ⟨s'', rest, hrun, hrest, hs'', htext'⟩
      · rw [hrest]
        exact Or.inl ⟨hnone, rfl⟩
      · rw [hrest]
        refine Or.inr ⟨s'', written ++ rest, hrun, rfl, hs'', ?_⟩
        rw [htext', htext, List.append_assoc]

/-- The blocks have what the turns write, and are no longer than they may be. -/
theorem statsGetStreams_eq (mounts : List Mount) :
    (statsGetStreams mounts).map List.flatten = pieces mounts ∧
      ∀ blocks, statsGetStreams mounts = some blocks →
        ∀ block ∈ blocks, block.length ≤ streamlistBlksize := by
  unfold statsGetStreams
  rcases inv_start.foldlM mounts with ⟨hnone, hpieces⟩ | ⟨s', written, hsome, hpieces, hs', htext⟩
  · rw [hnone, hpieces]
    exact ⟨rfl, nofun⟩
  · rw [hsome, hpieces]
    constructor
    · have hblocks : (s'.complete ++ [s'.filled]).flatten = s'.text := by simp [State.text]
      rw [Option.map_some, Option.map_some, hblocks, htext]
      rfl
    · rintro blocks ⟨⟩ block hblock
      have hremaining := hs'.remaining_eq
      rcases List.mem_append.mp hblock with hmem | hlast
      · exact hs'.length_le block hmem
      · rw [List.mem_singleton.mp hlast]
        omega

/-! ## Which names are listed -/

/-- What should be written for a mount. -/
def wanted (mount : Mount) : Bytes := if mount.hidden then [] else mount.line

theorem streamlist_eq (mounts : List Mount) : streamlist mounts = (mounts.map wanted).flatten := by
  induction mounts with
  | nil => rfl
  | cons mount mounts ih =>
    rw [List.map_cons, List.flatten_cons, ← ih, streamlist, streamlist, wanted, List.filter_cons]
    cases mount.hidden with
    | true => rfl
    | false => rfl

theorem length_piece_le {written : Bytes} (h : piece mount = some written) :
    written.length ≤ (wanted mount).length := by
  unfold piece at h
  unfold wanted
  cases hhidden : mount.hidden with
  | true =>
    rw [hhidden, if_pos rfl] at h
    rw [← Option.some.inj h]
    exact Nat.zero_le _
  | false =>
    simp only [hhidden, Bool.false_eq_true, if_false] at h ⊢
    split at h
    · rw [← Option.some.inj h]
      exact Nat.zero_le _
    · split at h
      · cases h
      · rw [← Option.some.inj h]
        exact List.length_take_le _ _

/-- A line that is as long as a block loses its last character to the zero byte. -/
theorem written_ne_of_length (h : mount.line.length = streamlistBlksize) :
    (mount.line.take (streamlistBlksize - 1) ++ [0]).take mount.line.length ≠ mount.line := by
  have hall : ((mount.line.take (streamlistBlksize - 1) ++ [0]).take mount.line.length) =
      mount.line.take (streamlistBlksize - 1) ++ [0] := by
    apply List.take_of_length_le
    rw [List.length_append, List.length_take, List.length_singleton, h, streamlistBlksize]
    decide
  rw [hall]
  intro hsame
  have hlast := congrArg List.getLast? hsame
  simp [Mount.line] at hlast

theorem piece_eq_wanted_iff : piece mount = some (wanted mount) ↔ Fits mount := by
  have hline := length_line mount
  unfold piece wanted Fits
  cases hhidden : mount.hidden with
  | true => simp
  | false =>
    simp only [Bool.false_eq_true, if_false, false_or]
    by_cases hint : 2 ^ 31 ≤ mount.line.length
    · rw [if_pos hint]
      refine iff_of_false ?_ (by omega)
      intro hsame
      rw [← Option.some.inj hsame, List.length_nil] at hint
      exact absurd hint (by decide)
    · rw [if_neg hint]
      by_cases hlong : streamlistBlksize < mount.line.length
      · rw [if_pos hlong]
        refine iff_of_false nofun ?_
        rw [streamlistBlksize] at hlong
        omega
      · rw [if_neg hlong, Option.some.injEq]
        by_cases hfull : mount.line.length = streamlistBlksize
        · refine iff_of_false (written_ne_of_length hfull) ?_
          rw [streamlistBlksize] at hfull
          omega
        · refine iff_of_true (take_line (by omega)) ?_
          rw [streamlistBlksize] at hlong hfull
          omega

theorem length_pieces_le {mounts : List Mount} {written : Bytes} (h : pieces mounts = some written) :
    written.length ≤ (mounts.map wanted).flatten.length := by
  induction mounts generalizing written with
  | nil =>
    rw [← Option.some.inj h]
    exact Nat.le_refl _
  | cons mount mounts ih =>
    rw [pieces_cons] at h
    obtain ⟨first, hfirst, h⟩ := Option.bind_eq_some_iff.mp h
    obtain ⟨rest, hrest, rfl⟩ := Option.map_eq_some_iff.mp h
    have hle := length_piece_le hfirst
    have hle' := ih hrest
    rw [List.map_cons, List.flatten_cons, List.length_append, List.length_append]
    omega

/-- No turn can make up for what another one has left out. -/
theorem pieces_eq_iff (mounts : List Mount) :
    pieces mounts = some (streamlist mounts) ↔ ∀ mount ∈ mounts, Fits mount := by
  rw [streamlist_eq]
  induction mounts with
  | nil => exact iff_of_true rfl nofun
  | cons mount mounts ih =>
    rw [pieces_cons, List.forall_mem_cons, ← ih, ← piece_eq_wanted_iff, List.map_cons, List.flatten_cons]
    constructor
    · intro h
      obtain ⟨first, hfirst, h⟩ := Option.bind_eq_some_iff.mp h
      obtain ⟨rest, hrest, h⟩ := Option.map_eq_some_iff.mp h
      have hle := length_piece_le hfirst
      have hle' := length_pieces_le hrest
      have hlength := congrArg List.length h
      rw [List.length_append, List.length_append] at hlength
      obtain ⟨hwanted, hrest'⟩ := List.append_inj h (by omega)
      rw [hfirst, hrest, hwanted, hrest']
      exact ⟨rfl, rfl⟩
    · rintro ⟨hfirst, hrest⟩
      rw [hfirst, hrest]
      rfl

/-- The list is complete, in blocks that are not too long, and the count of the remaining bytes does not
wrap around: exactly when each name that is not hidden has at most 4093 bytes. -/
theorem stream_list_iff (mounts : List Mount) :
    (∃ blocks, statsGetStreams mounts = some blocks ∧ Renders mounts blocks) ↔
      ∀ mount ∈ mounts, mount.hidden = true ∨ mount.source.1.length ≤ 4093 := by
  obtain ⟨hpieces, hlength⟩ := statsGetStreams_eq mounts
  refine Iff.trans ?_ (pieces_eq_iff mounts)
  rw [← hpieces, Option.map_eq_some_iff]
  constructor
  · rintro ⟨blocks, hblocks, hrenders⟩
    exact ⟨blocks, hblocks, hrenders.text⟩
  · rintro ⟨blocks, hblocks, htext⟩
    exact ⟨blocks, hblocks, htext, hlength blocks hblocks⟩

example : statsGetStreams [⟨⟨bytes "/live", by decide⟩, false⟩, ⟨⟨bytes "/test", by decide⟩, true⟩] =
    some [bytes "/live\r\n"] := by
  rfl

def longMount (n : ℕ) : Mount := ⟨⟨List.replicate n 97, zero_not_mem_replicate n⟩, false⟩

theorem addMount_longMount {n : ℕ} (hn : n = 5000) : addMount start (longMount n) = none := by
  have hline : (longMount n).line.length = n + 2 := by rw [length_line, longMount, List.length_replicate]
  have hblock : nextBlock (longMount n).source.1 start = ⟨[[]], [], streamlistBlksize⟩ := by
    apply if_pos
    rw [longMount, List.length_replicate]
    simp only [start, streamlistBlksize]
    omega
  have hhidden : ¬ (longMount n).hidden = true := by simp [longMount]
  rw [addMount, if_neg hhidden, hblock, hline]
  dsimp only
  rw [if_neg (by omega), if_pos (by rw [streamlistBlksize]; omega)]

/-- A name of 5000 letters is longer than a block. -/
theorem stream_list_underflow : ¬ ∀ mounts : List Mount,
    ∃ blocks, statsGetStreams mounts = some blocks ∧ Renders mounts blocks := by
  intro hall
  obtain ⟨blocks, hblocks, -⟩ := hall [longMount 5000]
  rw [statsGetStreams, List.foldlM_cons, addMount_longMount rfl] at hblocks
  cases hblocks

end Icecast.Stats.Streamlist
