import Icecast.Format.Comments
import Icecast.Lib.Lines
import Icecast.Lib.Machine

/-!
# The table of media types

`fserve_recheck_mime_types` (`fserve.c`) reads a file whose lines have a media type and the extensions of
files of that type. A line is taken apart in the buffer it has been read into: the byte behind a field
is overwritten by a zero byte, and the search goes on behind that. If the field was the last one and the
line has no line break, that byte is the one at the end of the line, and what follows is whatever the
buffer holds there: the rest of a longer line before, or the contents of the stack.
-/

namespace Icecast.Fserve.MimeTypes

open Format.Comments (Bytes bytes)
open Lib.Lines Lib.Machine

/-! ## The function -/

def isBlank (byte : UInt8) : Bool := byte = 32 || byte = 9

/-- The bytes between fields, a line break included. -/
def isSeparator (byte : UInt8) : Bool := isBlank byte || byte = 10

/-- What the `while (1)` loop does with the bytes from `cur` on: the extensions that it takes, and the
bytes afterwards. `beyond` says that an extension starts behind the end of the line, and `outside` that
the end of the buffer has been passed. -/
structure Scan where
  fields : List Bytes
  memory : Bytes
  beyond : Bool
  outside : Bool
  deriving DecidableEq

def Scan.keep (byte : UInt8) (scan : Scan) : Scan := { scan with memory := byte :: scan.memory }

def Scan.found (ext : Bytes) (past : Bool) (scan : Scan) : Scan :=
  { scan with fields := ext :: scan.fields, beyond := past || scan.beyond }

/-- The loop, before an extension or behind the given part of one. `past` says that the end of the line
has been passed. -/
def scan : Option Bytes → Bool → Bytes → Scan
  | _, _, [] => ⟨[], [], false, true⟩
  | none, past, byte :: rest =>
    if isBlank byte then (scan none past rest).keep byte
    else if byte = 0 then ⟨[], byte :: rest, false, false⟩
    -- an extension without characters is not added
    else if byte = 10 then (scan none past rest).keep 0
    else (scan (some [byte]) past rest).keep byte
  | some ext, past, byte :: rest =>
    if isSeparator byte || byte = 0 then
      ((scan none (past || byte = 0) rest).keep 0).found ext past
    else (scan (some (ext ++ [byte])) past rest).keep byte

/-- The tree of mappings from extensions to types is the list of its nodes. -/
def addMapping (type : Bytes) (mappings : List (Bytes × Bytes)) (ext : Bytes) :
    List (Bytes × Bytes) :=
  (ext, type) :: mappings.filter (·.1 ≠ ext)

structure State where
  memory : Bytes
  mappings : List (Bytes × Bytes)
  beyond : Bool
  outside : Bool
  deriving DecidableEq

/-- The size of `line`. -/
def lineSize : ℕ := 4096

/-- The buffer after `fgets`. -/
def readLine (memory chunk : Bytes) : Bytes :=
  (chunk ++ 0 :: memory.drop (chunk.length + 1)).set (lineSize - 1) 0

/-- A turn of the loop over the lines. -/
def recheckLine (s : State) (chunk : Bytes) : State :=
  let line := readLine s.memory chunk
  if line.head? = some 0 ∨ line.head? = some 35 then { s with memory := line }
  else
    let type := line.takeWhile fun byte ↦ !isBlank byte && byte ≠ 0
    match line.drop type.length with
    | [] => { s with memory := line, outside := true }
    | byte :: rest =>
      if byte = 0 then { s with memory := line }
      else
        let scan := scan none false rest
        { memory := type ++ 0 :: scan.memory
          mappings := scan.fields.foldl (addMapping type) s.mappings
          beyond := s.beyond || scan.beyond
          outside := s.outside || scan.outside }

/-- `fserve_recheck_mime_types`, with what the buffer holds at first. -/
def fserveRecheckMimeTypes (memory : Vector UInt8 lineSize) (file : Bytes) : State :=
  run recheckLine ⟨memory.toList, [], false, false⟩ (pieces 10 (lineSize - 1) file)

/-! ## The reference -/

/-- The fields of a text, when the given part of one has been read. -/
def fieldsFrom : Option Bytes → Bytes → List Bytes
  | none, [] => []
  | some field, [] => [field]
  | none, byte :: rest =>
    if isSeparator byte then fieldsFrom none rest else fieldsFrom (some [byte]) rest
  | some field, byte :: rest =>
    if isSeparator byte then field :: fieldsFrom none rest
    else fieldsFrom (some (field ++ [byte])) rest

/-- The longest parts of a text without blanks and line breaks. -/
def fields (text : Bytes) : List Bytes := fieldsFrom none text

/-- A line ends at its first zero byte. -/
def text (chunk : Bytes) : Bytes := chunk.takeWhile (· ≠ 0)

/-- Every field of a line after the first one is mapped to that, unless the line is a comment. -/
def referenceLine (text : Bytes) : List (Bytes × Bytes) :=
  if text.head? = some 35 then []
  else
    match fields text with
    | [] => []
    | type :: exts => exts.map (·, type)

/-- The last line with an extension decides. -/
def reference (file : Bytes) (ext : Bytes) : Option Bytes :=
  ((pieces 10 (lineSize - 1) file).flatMap (referenceLine ∘ text)).reverse.lookup ext

/-- No extension is taken from behind the end of its line, and the table is that of the reference. -/
structure Correct (memory : Vector UInt8 lineSize) (file : Bytes) : Prop where
  outside : (fserveRecheckMimeTypes memory file).outside = false
  beyond : (fserveRecheckMimeTypes memory file).beyond = false
  mapping : ∀ ext, (fserveRecheckMimeTypes memory file).mappings.lookup ext = reference file ext

/-! ## Fields -/

theorem fieldsFrom_none_cons (byte : UInt8) (rest : Bytes) : fieldsFrom none (byte :: rest) =
    if isSeparator byte then fieldsFrom none rest else fieldsFrom (some [byte]) rest := rfl

theorem fieldsFrom_some_cons (field : Bytes) (byte : UInt8) (rest : Bytes) :
    fieldsFrom (some field) (byte :: rest) =
      if isSeparator byte then field :: fieldsFrom none rest
      else fieldsFrom (some (field ++ [byte])) rest := rfl

theorem fieldsFrom_some_append {word : Bytes} (hword : ∀ byte ∈ word, isSeparator byte = false)
    (field rest : Bytes) : fieldsFrom (some field) (word ++ rest) = fieldsFrom (some (field ++ word)) rest := by
  induction word generalizing field with
  | nil => rw [List.nil_append, List.append_nil]
  | cons byte word ih =>
    obtain ⟨hbyte, hword⟩ := List.forall_mem_cons.mp hword
    rw [List.cons_append, fieldsFrom_some_cons, hbyte, if_neg Bool.false_ne_true, ih hword,
      List.append_assoc]
    rfl

/-- A word at the beginning is the first field. -/
theorem fields_append {word : Bytes} (hword : ∀ byte ∈ word, isSeparator byte = false) {byte : UInt8}
    (hbyte : isSeparator byte = true) (rest : Bytes) :
    fields (word ++ byte :: rest) = (if word = [] then [] else [word]) ++ fields rest := by
  cases word with
  | nil => simp [fields, fieldsFrom_none_cons, hbyte]
  | cons first word =>
    obtain ⟨hfirst, hword⟩ := List.forall_mem_cons.mp hword
    rw [fields, List.cons_append, fieldsFrom_none_cons, hfirst, if_neg Bool.false_ne_true,
      fieldsFrom_some_append hword, fieldsFrom_some_cons, if_pos hbyte]
    rfl

theorem fields_of_word {word : Bytes} (hword : ∀ byte ∈ word, isSeparator byte = false) :
    fields word = if word = [] then [] else [word] := by
  cases word with
  | nil => rfl
  | cons first word =>
    obtain ⟨hfirst, hword⟩ := List.forall_mem_cons.mp hword
    have hall := fieldsFrom_some_append hword [first] []
    rw [List.append_nil] at hall
    rw [fields, fieldsFrom_none_cons, hfirst, if_neg Bool.false_ne_true, hall]
    rfl

theorem fieldsFrom_ne_nil {current : Option Bytes} {text : Bytes}
    (hcurrent : ∀ field ∈ current, field ≠ []) :
    ∀ field ∈ fieldsFrom current text, field ≠ [] := by
  induction text generalizing current with
  | nil =>
    cases current with
    | none => exact nofun
    | some field => exact fun other hother ↦ List.mem_singleton.mp hother ▸ hcurrent field rfl
  | cons byte rest ih =>
    cases current with
    | none =>
      rw [fieldsFrom_none_cons]
      split
      · exact ih nofun
      · exact ih (by simp)
    | some field =>
      rw [fieldsFrom_some_cons]
      split
      · exact List.forall_mem_cons.mpr ⟨hcurrent field rfl, ih nofun⟩
      · exact ih (by simp)

/-! ## A line in the buffer -/

/-- Whether a field is not ended by the text. -/
def inField : Bool → Bytes → Bool
  | given, [] => given
  | _, byte :: rest => inField (!isSeparator byte) rest

theorem inField_eq (given : Bool) (text : Bytes) :
    inField given text = (text.getLast?.map (!isSeparator ·)).getD given := by
  induction text generalizing given with
  | nil => rfl
  | cons byte rest ih =>
    rw [inField, ih, List.getLast?_cons]
    cases rest.getLast? <;> rfl

/-- Behind the end of a text the search goes on if the last extension ends there. -/
theorem scan_text {text : Bytes} (htext : 0 ∉ text) (current : Option Bytes) (tail : Bytes) :
    let line := scan current false (text ++ 0 :: tail)
    let behind := scan none true tail
    line.fields = fieldsFrom current text ++
        (if inField current.isSome text then behind.fields else []) ∧
      line.beyond = (inField current.isSome text && behind.beyond) ∧
      line.outside = (inField current.isSome text && behind.outside) := by
  induction text generalizing current with
  | nil => cases current <;> simp [scan, fieldsFrom, inField, isBlank, isSeparator, Scan.keep, Scan.found]
  | cons byte rest ih =>
    obtain ⟨hbyte, hrest⟩ := not_or.mp (fun h ↦ htext (List.mem_cons.mpr h))
    have hzero : ¬ byte = 0 := Ne.symm hbyte
    cases current with
    | none =>
      by_cases hblank : isBlank byte = true
      · simpa [scan, fieldsFrom, inField, isSeparator, hblank, Scan.keep] using ih hrest none
      · by_cases hbreak : byte = 10
        · subst hbreak
          simpa [scan, fieldsFrom, inField, isSeparator, isBlank, Scan.keep] using ih hrest none
        · simpa [scan, fieldsFrom, inField, isSeparator, hblank, hzero, hbreak, Scan.keep] using
            ih hrest (some [byte])
    | some ext =>
      by_cases hseparator : isSeparator byte = true
      · simpa [scan, fieldsFrom, inField, hseparator, hzero, Scan.keep, Scan.found] using ih hrest none
      · simpa [scan, fieldsFrom, inField, hseparator, hzero, Scan.keep] using
          ih hrest (some (ext ++ [byte]))

/-- From the given bytes on, a zero byte comes before everything else but separators. -/
def BlankTail (tail : Bytes) : Prop := (tail.dropWhile isSeparator).head? = some 0

instance (tail : Bytes) : Decidable (BlankTail tail) := inferInstanceAs (Decidable (_ = _))

theorem scan_past_some (ext tail : Bytes) :
    (scan (some ext) true tail).beyond = true ∨ (scan (some ext) true tail).outside = true := by
  induction tail generalizing ext with
  | nil => exact Or.inr rfl
  | cons byte rest ih =>
    rw [scan]
    split
    · exact Or.inl rfl
    · exact ih _

theorem scan_past (tail : Bytes) :
    (BlankTail tail → (scan none true tail).fields = []) ∧
      ((scan none true tail).beyond = false ∧ (scan none true tail).outside = false ↔
        BlankTail tail) := by
  induction tail with
  | nil => simp [scan, BlankTail]
  | cons byte rest ih =>
    by_cases hblank : isBlank byte = true
    · simpa [scan, BlankTail, isSeparator, hblank, Scan.keep] using ih
    · by_cases hzero : byte = 0
      · subst hzero
        simp [scan, BlankTail, isSeparator, isBlank]
      · by_cases hbreak : byte = 10
        · subst hbreak
          simpa [scan, BlankTail, isSeparator, isBlank, Scan.keep] using ih
        · have hpast := scan_past_some [byte] rest
          simp [scan, BlankTail, isSeparator, hblank, hzero, hbreak, Scan.keep]
          grind

theorem not_mem_text (chunk : Bytes) : 0 ∉ text chunk := by
  intro hmem
  simpa using List.all_eq_true.mp List.all_takeWhile 0 hmem

/-- What the buffer holds behind the end of the line. -/
def behind (memory chunk : Bytes) : Bytes := (readLine memory chunk).drop ((text chunk).length + 1)

theorem text_spec (chunk : Bytes) : chunk = text chunk ∨ ∃ rest, chunk = text chunk ++ 0 :: rest := by
  induction chunk with
  | nil => exact Or.inl rfl
  | cons byte rest ih =>
    by_cases hzero : byte = 0
    · subst hzero
      exact Or.inr ⟨rest, rfl⟩
    · have htext : text (byte :: rest) = byte :: text rest := List.takeWhile_cons_of_pos (by simpa using hzero)
      rw [htext]
      simpa using ih

theorem readLine_eq {chunk : Bytes} (hfits : chunk.length < lineSize) (memory : Bytes) :
    readLine memory chunk = text chunk ++ 0 :: behind memory chunk := by
  have hline : ∃ rest, readLine memory chunk = chunk ++ 0 :: rest := by
    rw [readLine, List.set_append_right _ _ (by omega)]
    cases lineSize - 1 - chunk.length with
    | zero => exact ⟨_, rfl⟩
    | succ position => exact ⟨_, rfl⟩
  have hends : ∃ rest, readLine memory chunk = text chunk ++ 0 :: rest := by
    obtain ⟨rest, hrest⟩ := hline
    rcases text_spec chunk with hall | ⟨more, hmore⟩
    · exact ⟨rest, by rw [← hall, hrest]⟩
    · refine ⟨more ++ 0 :: rest, ?_⟩
      calc readLine memory chunk = chunk ++ 0 :: rest := hrest
        _ = (text chunk ++ 0 :: more) ++ 0 :: rest := by rw [← hmore]
        _ = text chunk ++ 0 :: (more ++ 0 :: rest) := by rw [List.append_assoc, List.cons_append]
  obtain ⟨rest, hrest⟩ := hends
  have hdrop : (text chunk ++ 0 :: rest).drop ((text chunk).length + 1) = rest := by
    rw [List.append_cons, List.drop_left' (by simp)]
  rw [behind, hrest, hdrop]

/-- The last extension of the line is ended by the zero byte behind the line. -/
def Overruns (text : Bytes) : Prop :=
  text.head? ≠ some 35 ∧ (∃ byte ∈ text, isBlank byte = true) ∧
    text.getLast?.any (!isSeparator ·) = true

instance (text : Bytes) : Decidable (Overruns text) := inferInstanceAs (Decidable (_ ∧ _))

/-- The extensions of a line, with its type: the type ends at the first blank, even at the beginning. -/
def lineMappings (text : Bytes) : List (Bytes × Bytes) :=
  if text.head? = some 35 then []
  else
    (fields (text.dropWhile (!isBlank ·)).tail).map (·, text.takeWhile (!isBlank ·))

/-- A text has no blank, or it is cut at the first one. -/
theorem cut_at_blank (text : Bytes) : (∀ byte ∈ text, isBlank byte = false) ∨
    ∃ word blank rest, text = word ++ blank :: rest ∧ (∀ byte ∈ word, isBlank byte = false) ∧
      isBlank blank = true := by
  induction text with
  | nil => exact Or.inl nofun
  | cons byte text ih =>
    by_cases hblank : isBlank byte = true
    · exact Or.inr ⟨[], byte, text, rfl, nofun, hblank⟩
    · rw [Bool.not_eq_true] at hblank
      rcases ih with hall | ⟨word, blank, rest, htext, hword, hends⟩
      · exact Or.inl (List.forall_mem_cons.mpr ⟨hblank, hall⟩)
      · refine Or.inr ⟨byte :: word, blank, rest, ?_, List.forall_mem_cons.mpr ⟨hblank, hword⟩, hends⟩
        rw [htext, List.cons_append]

theorem takeWhile_word {word : Bytes} (hword : ∀ byte ∈ word, isBlank byte = false) (hfree : 0 ∉ word)
    {byte : UInt8} (hbyte : isBlank byte = true ∨ byte = 0) (rest : Bytes) :
    (word ++ byte :: rest).takeWhile (fun byte ↦ !isBlank byte && byte ≠ 0) = word := by
  have hpos : ∀ byte ∈ word, (!isBlank byte && byte ≠ 0) = true := by
    intro byte hmem
    simp [hword byte hmem, ne_of_mem_of_not_mem hmem hfree]
  rw [List.takeWhile_append_of_pos hpos, List.takeWhile_cons_of_neg, List.append_nil]
  rcases hbyte with hblank | rfl
  · simp [hblank]
  · simp

theorem not_overruns_of_word {text : Bytes} (htext : ∀ byte ∈ text, isBlank byte = false) :
    ¬ Overruns text := by
  rintro ⟨-, ⟨byte, hmem, hblank⟩, -⟩
  rw [htext byte hmem] at hblank
  exact Bool.false_ne_true hblank

theorem lineMappings_of_word {text : Bytes} (htext : ∀ byte ∈ text, isBlank byte = false) :
    lineMappings text = [] := by
  have hpos : ∀ byte ∈ text, (!isBlank byte) = true := fun byte hmem ↦ by simp [htext byte hmem]
  have hdrop : (text ++ []).dropWhile (!isBlank ·) = [] := List.dropWhile_append_of_pos hpos
  rw [List.append_nil] at hdrop
  rw [lineMappings, hdrop]
  split <;> rfl

theorem lineMappings_of_blank {word : Bytes} (hword : ∀ byte ∈ word, isBlank byte = false)
    {blank : UInt8} (hblank : isBlank blank = true) (rest : Bytes) :
    lineMappings (word ++ blank :: rest) =
      if (word ++ blank :: rest).head? = some 35 then [] else (fields rest).map (·, word) := by
  have hpos : ∀ byte ∈ word, (!isBlank byte) = true := fun byte hmem ↦ by simp [hword byte hmem]
  rw [lineMappings, List.takeWhile_append_of_pos hpos, List.dropWhile_append_of_pos hpos]
  simp [hblank]

theorem overruns_iff_inField (word : Bytes) {blank : UInt8} (hblank : isBlank blank = true)
    (rest : Bytes) : Overruns (word ++ blank :: rest) ↔
      (word ++ blank :: rest).head? ≠ some 35 ∧ inField false rest = true := by
  have hseparator : isSeparator blank = true := by simp [isSeparator, hblank]
  have hlast : (word ++ blank :: rest).getLast?.any (!isSeparator ·) = inField false rest := by
    rw [inField_eq, List.getLast?_append, List.getLast?_cons]
    cases rest.getLast? <;> simp [hseparator]
  rw [Overruns, hlast]
  refine and_congr_right fun _ ↦ and_iff_right ⟨blank, ?_, hblank⟩
  exact List.mem_append_right word List.mem_cons_self

theorem recheckLine_spec {chunk : Bytes} (hfits : chunk.length < lineSize) (s : State) :
    let clean := Overruns (text chunk) → BlankTail (behind s.memory chunk)
    let after := recheckLine s chunk
    (after.beyond = false ∧ after.outside = false ↔ (s.beyond = false ∧ s.outside = false) ∧ clean) ∧
      (clean → after.mappings = (lineMappings (text chunk)).foldl
        (fun mappings pair ↦ addMapping pair.2 mappings pair.1) s.mappings) := by
  have hline := readLine_eq hfits s.memory
  have hfree := not_mem_text chunk
  simp only [recheckLine, hline]
  generalize behind s.memory chunk = tail
  generalize text chunk = text at hfree
  by_cases hskip : (text ++ 0 :: tail).head? = some 0 ∨ (text ++ 0 :: tail).head? = some 35
  · have hnone : ¬ Overruns text ∧ lineMappings text = [] := by
      cases text with
      | nil => exact ⟨not_overruns_of_word nofun, lineMappings_of_word nofun⟩
      | cons byte rest =>
        have hcomment : (byte :: rest).head? = some 35 := by
          refine hskip.resolve_left fun hzero ↦ hfree ?_
          rw [List.cons_append, List.head?_cons, Option.some.injEq] at hzero
          exact hzero ▸ List.mem_cons_self
        exact ⟨fun h ↦ h.1 hcomment, if_pos hcomment⟩
    rw [if_pos hskip, hnone.2]
    simp [hnone.1]
  · rw [if_neg hskip]
    rcases cut_at_blank text with hword | ⟨word, blank, rest, rfl, hword, hblank⟩
    · rw [takeWhile_word hword hfree (Or.inr rfl), List.drop_left, lineMappings_of_word hword]
      simp [not_overruns_of_word hword]
    · have hcomment : (word ++ blank :: rest).head? ≠ some 35 := by
        intro hcomment
        refine hskip (Or.inr ?_)
        rw [List.head?_append, hcomment]
        rfl
      rw [List.mem_append, List.mem_cons, not_or, not_or] at hfree
      have hscan := scan_text hfree.2.2 none tail
      have hpast := scan_past tail
      rw [List.append_assoc, List.cons_append, takeWhile_word hword hfree.1 (Or.inl hblank),
        List.drop_left, lineMappings_of_blank hword hblank, if_neg hcomment,
        overruns_iff_inField word hblank, and_iff_right hcomment, List.foldl_map]
      have hzero : ¬ blank = 0 := Ne.symm hfree.2.1
      simp only [hzero, if_false, hscan.1, hscan.2.1, hscan.2.2, Option.isSome_none]
      by_cases hopen : inField false rest = true
      · simp only [hopen, if_true, Bool.true_and, forall_const]
        constructor
        · grind
        · intro hblanks
          rw [hpast.1 hblanks, List.append_nil]
          rfl
      · simp [hopen]
        rfl

/-- Behind the end of a line whose last extension is not ended there are only separators. -/
def StaysInLine (s : State) (chunk : Bytes) : Prop :=
  Overruns (text chunk) → BlankTail (behind s.memory chunk)

instance (s : State) (chunk : Bytes) : Decidable (StaysInLine s chunk) :=
  inferInstanceAs (Decidable (_ → _))

theorem run_recheckLine {chunks : List Bytes} (hfits : ∀ chunk ∈ chunks, chunk.length < lineSize)
    (s : State) :
    let ended := run recheckLine s chunks
    (ended.beyond = false ∧ ended.outside = false ↔
        (s.beyond = false ∧ s.outside = false) ∧ Guarded recheckLine StaysInLine s chunks) ∧
      (Guarded recheckLine StaysInLine s chunks →
        ended.mappings = ((chunks.map text).flatMap lineMappings).foldl
          (fun mappings pair ↦ addMapping pair.2 mappings pair.1) s.mappings) := by
  induction chunks generalizing s with
  | nil => exact ⟨(and_iff_left trivial).symm, fun _ ↦ rfl⟩
  | cons chunk chunks ih =>
    obtain ⟨hchunk, hchunks⟩ := List.forall_mem_cons.mp hfits
    have hline := recheckLine_spec hchunk s
    have hrest := ih hchunks (recheckLine s chunk)
    constructor
    · rw [run_cons, hrest.1, hline.1, and_assoc]
      rfl
    · rintro ⟨hfirst, hlater⟩
      rw [run_cons, hrest.2 hlater, hline.2 hfirst, List.map_cons, List.flatMap_cons,
        List.foldl_append]

/-! ## Looking up -/

theorem lookup_addMapping (type : Bytes) (mappings : List (Bytes × Bytes)) (added ext : Bytes) :
    (addMapping type mappings added).lookup ext =
      if ext = added then some type else mappings.lookup ext := by
  rw [addMapping, List.lookup_cons]
  by_cases hsame : ext = added
  · simp [hsame]
  · rw [if_neg hsame, beq_false_of_ne hsame]
    induction mappings with
    | nil => rfl
    | cons mapping mappings ih =>
      obtain ⟨key, value⟩ := mapping
      rw [List.filter_cons]
      by_cases hadded : key = added
      · have hother : (ext == key) = false := beq_false_of_ne fun h ↦ hsame (h.trans hadded)
        rw [if_neg (by simp [hadded]), List.lookup_cons, hother]
        exact ih
      · rw [if_pos (by simp [hadded]), List.lookup_cons, List.lookup_cons]
        cases ext == key with
        | true => rfl
        | false => exact ih

theorem lookup_foldl_addMapping (pairs mappings : List (Bytes × Bytes)) (ext : Bytes) :
    (pairs.foldl (fun mappings pair ↦ addMapping pair.2 mappings pair.1) mappings).lookup ext =
      (pairs.reverse.lookup ext).or (mappings.lookup ext) := by
  induction pairs generalizing mappings with
  | nil => rfl
  | cons pair pairs ih =>
    rw [List.foldl_cons, ih, lookup_addMapping, List.reverse_cons, List.lookup_append,
      Option.or_assoc]
    congr 1
    obtain ⟨added, type⟩ := pair
    rw [List.lookup_singleton]
    by_cases hsame : ext = added
    · simp [hsame]
    · simp [beq_false_of_ne hsame, hsame]

/-! ## Lines that begin with a blank -/

def StartsBlank (text : Bytes) : Prop := text.head?.any isBlank = true

instance (text : Bytes) : Decidable (StartsBlank text) := inferInstanceAs (Decidable (_ = _))

/-- Such a line maps all of its fields to the empty type. -/
theorem lineMappings_of_startsBlank {text : Bytes} (hstart : StartsBlank text) :
    lineMappings text = (fields text).map (·, []) := by
  cases text with
  | nil => exact absurd hstart Bool.false_ne_true
  | cons blank rest =>
    have hblank : isBlank blank = true := hstart
    have hcomment : ¬ ([] ++ blank :: rest).head? = some 35 := by
      intro hhead
      rw [List.nil_append, List.head?_cons, Option.some.injEq] at hhead
      exact absurd (hhead ▸ hblank) (by decide)
    have hseparator : isSeparator blank = true := by simp [isSeparator, hblank]
    have hall := lineMappings_of_blank (List.forall_mem_nil _) hblank rest
    rw [if_neg hcomment, List.nil_append] at hall
    rw [hall, fields, fields, fieldsFrom_none_cons, if_pos hseparator]

theorem not_isSeparator {byte : UInt8} (hblank : isBlank byte = false) (hbreak : byte ≠ 10) :
    isSeparator byte = false := by
  simp [isSeparator, hblank, hbreak]

/-- A text without blanks has at most one field. -/
theorem tail_fields_of_word {text : Bytes} (htext : ∀ byte ∈ text, isBlank byte = false)
    (hbreak : 10 ∉ text.dropLast) : (fields text).tail = [] := by
  rcases List.eq_nil_or_concat' text with rfl | ⟨init, last, rfl⟩
  · rfl
  · rw [List.dropLast_concat] at hbreak
    have hinit : ∀ byte ∈ init, isSeparator byte = false := fun byte hmem ↦
      not_isSeparator (htext byte (List.mem_append_left _ hmem)) (ne_of_mem_of_not_mem hmem hbreak)
    by_cases hlast : isSeparator last = true
    · rw [fields_append hinit hlast]
      split <;> rfl
    · rw [Bool.not_eq_true] at hlast
      have hword : ∀ byte ∈ init ++ [last], isSeparator byte = false := by
        intro byte hmem
        rcases List.mem_append.mp hmem with hmem | hmem
        · exact hinit byte hmem
        · rw [List.mem_singleton.mp hmem, hlast]
      rw [fields_of_word hword]
      split <;> rfl

/-- Other lines are read as the reference says. -/
theorem lineMappings_eq_referenceLine {text : Bytes} (hstart : ¬ StartsBlank text)
    (hbreak : 10 ∉ text.dropLast) : lineMappings text = referenceLine text := by
  by_cases hcomment : text.head? = some 35
  · rw [lineMappings, referenceLine, if_pos hcomment, if_pos hcomment]
  · rcases cut_at_blank text with hword | ⟨word, blank, rest, rfl, hword, hblank⟩
    · have htail := tail_fields_of_word hword hbreak
      rw [lineMappings_of_word hword, referenceLine, if_neg hcomment]
      cases hfields : fields text with
      | nil => rfl
      | cons type exts =>
        rw [hfields, List.tail_cons] at htail
        rw [htail]
        rfl
    · have hne : word ≠ [] := by
        rintro rfl
        exact hstart hblank
      rw [List.dropLast_append_of_ne_nil (by simp), List.mem_append, not_or] at hbreak
      have hseparators : ∀ byte ∈ word, isSeparator byte = false := fun byte hmem ↦
        not_isSeparator (hword byte hmem) (ne_of_mem_of_not_mem hmem hbreak.1)
      have hseparator : isSeparator blank = true := by simp [isSeparator, hblank]
      rw [lineMappings_of_blank hword hblank, if_neg hcomment, referenceLine, if_neg hcomment,
        fields_append hseparators hseparator, if_neg hne]
      rfl

/-- The reference maps fields of a line, but none to the empty type. -/
theorem of_mem_referenceLine {text : Bytes} {pair : Bytes × Bytes} (hmem : pair ∈ referenceLine text) :
    pair.1 ∈ fields text ∧ pair.2 ≠ [] := by
  have hne := @fieldsFrom_ne_nil none text nofun
  rw [referenceLine] at hmem
  split at hmem
  · cases hmem
  · split at hmem
    · cases hmem
    · rename_i type exts hfields
      obtain ⟨ext, hext, rfl⟩ := List.mem_map.mp hmem
      rw [fields] at hfields ⊢
      rw [hfields] at hne ⊢
      exact ⟨List.mem_cons_of_mem type hext, hne type List.mem_cons_self⟩

/-- Every field of a line that begins with a blank is an extension of a later line that does not. -/
def Overridden : List Bytes → Prop
  | [] => True
  | text :: rest =>
    (StartsBlank text → ∀ field ∈ fields text,
      ∃ later ∈ rest, ¬ StartsBlank later ∧ field ∈ (referenceLine later).map Prod.fst) ∧
    Overridden rest

theorem exists_later_of_mem {texts : List Bytes} (hbreaks : ∀ text ∈ texts, 10 ∉ text.dropLast)
    (hover : Overridden texts) {ext type : Bytes} (hmem : (ext, type) ∈ texts.flatMap lineMappings) :
    ∃ later ∈ texts, ¬ StartsBlank later ∧ ext ∈ (referenceLine later).map Prod.fst := by
  induction texts with
  | nil => cases hmem
  | cons text rest ih =>
    obtain ⟨hbreak, hbreaks⟩ := List.forall_mem_cons.mp hbreaks
    rw [List.flatMap_cons, List.mem_append] at hmem
    have hrest : (∃ later ∈ rest, ¬ StartsBlank later ∧ ext ∈ (referenceLine later).map Prod.fst) →
        ∃ later ∈ text :: rest, ¬ StartsBlank later ∧ ext ∈ (referenceLine later).map Prod.fst :=
      fun ⟨later, hlater, hext⟩ ↦ ⟨later, List.mem_cons_of_mem text hlater, hext⟩
    rcases hmem with hmem | hmem
    · by_cases hstart : StartsBlank text
      · rw [lineMappings_of_startsBlank hstart] at hmem
        obtain ⟨field, hfield, hpair⟩ := List.mem_map.mp hmem
        cases hpair
        exact hrest (hover.1 hstart ext hfield)
      · rw [lineMappings_eq_referenceLine hstart hbreak] at hmem
        exact ⟨text, List.mem_cons_self, hstart, List.mem_map_of_mem hmem⟩
    · exact hrest (ih hbreaks hover.2 hmem)

theorem lookup_reverse_eq_none {pairs : List (Bytes × Bytes)} {ext : Bytes} :
    pairs.reverse.lookup ext = none ↔ ext ∉ pairs.map Prod.fst := by
  rw [List.lookup_eq_none_iff]
  constructor
  · intro hnone hmem
    obtain ⟨pair, hpair, rfl⟩ := List.mem_map.mp hmem
    simpa using hnone pair (List.mem_reverse.mpr hpair)
  · intro hmem pair hpair
    have hne : ext ≠ pair.1 := fun h ↦ hmem (h ▸ List.mem_map_of_mem (List.mem_reverse.mp hpair))
    simpa using hne

theorem mem_of_lookup_reverse {pairs : List (Bytes × Bytes)} {ext type : Bytes}
    (hlookup : pairs.reverse.lookup ext = some type) : (ext, type) ∈ pairs := by
  obtain ⟨before, after, hpairs, -⟩ := List.lookup_eq_some_iff.mp hlookup
  rw [← List.mem_reverse, hpairs]
  exact List.mem_append_right before List.mem_cons_self

theorem lookup_reverse_flatMap (line : Bytes → List (Bytes × Bytes)) (text : Bytes)
    (rest : List Bytes) (ext : Bytes) : (((text :: rest).flatMap line).reverse.lookup ext) =
      ((rest.flatMap line).reverse.lookup ext).or ((line text).reverse.lookup ext) := by
  rw [List.flatMap_cons, List.reverse_append, List.lookup_append]

theorem lookup_eq_of_overridden {texts : List Bytes} (hbreaks : ∀ text ∈ texts, 10 ∉ text.dropLast)
    (hover : Overridden texts) (ext : Bytes) :
    (texts.flatMap lineMappings).reverse.lookup ext =
      (texts.flatMap referenceLine).reverse.lookup ext := by
  induction texts with
  | nil => rfl
  | cons text rest ih =>
    obtain ⟨hbreak, hbreaks⟩ := List.forall_mem_cons.mp hbreaks
    rw [lookup_reverse_flatMap, lookup_reverse_flatMap, ih hbreaks hover.2]
    cases hrest : (rest.flatMap referenceLine).reverse.lookup ext with
    | some type => rfl
    | none =>
      rw [Option.none_or, Option.none_or]
      by_cases hstart : StartsBlank text
      · have hfield : ext ∉ fields text := by
          intro hfield
          obtain ⟨later, hlater, -, hext⟩ := hover.1 hstart ext hfield
          refine lookup_reverse_eq_none.mp hrest ?_
          rw [List.map_flatMap]
          exact List.mem_flatMap.mpr ⟨later, hlater, hext⟩
        have hcode : ext ∉ (lineMappings text).map Prod.fst := by
          rw [lineMappings_of_startsBlank hstart, List.map_map]
          simpa using hfield
        have hreference : ext ∉ (referenceLine text).map Prod.fst := by
          intro hext
          obtain ⟨pair, hpair, rfl⟩ := List.mem_map.mp hext
          exact hfield (of_mem_referenceLine hpair).1
        rw [lookup_reverse_eq_none.mpr hcode, lookup_reverse_eq_none.mpr hreference]
      · rw [lineMappings_eq_referenceLine hstart hbreak]

/-- A field that is not overridden in the end has the empty type, which the reference never gives. -/
theorem exists_lookup_of_not_overridden {texts : List Bytes}
    (hbreaks : ∀ text ∈ texts, 10 ∉ text.dropLast) (hover : ¬ Overridden texts) :
    ∃ ext, (texts.flatMap lineMappings).reverse.lookup ext = some [] := by
  induction texts with
  | nil => exact absurd trivial hover
  | cons text rest ih =>
    obtain ⟨-, hrests⟩ := List.forall_mem_cons.mp hbreaks
    by_cases hrest : Overridden rest
    · have hfirst : ¬ (StartsBlank text → ∀ field ∈ fields text,
          ∃ later ∈ rest, ¬ StartsBlank later ∧ field ∈ (referenceLine later).map Prod.fst) :=
        fun h ↦ hover ⟨h, hrest⟩
      push Not at hfirst
      obtain ⟨hstart, field, hfield, hlater⟩ := hfirst
      have hnone : (rest.flatMap lineMappings).reverse.lookup field = none := by
        cases hlookup : (rest.flatMap lineMappings).reverse.lookup field with
        | none => rfl
        | some type =>
          obtain ⟨later, hmem, hplain, hext⟩ :=
            exists_later_of_mem hrests hrest (mem_of_lookup_reverse hlookup)
          exact absurd hext (hlater later hmem hplain)
      refine ⟨field, ?_⟩
      rw [lookup_reverse_flatMap, hnone, Option.none_or]
      cases hlookup : (lineMappings text).reverse.lookup field with
      | none =>
        refine absurd ?_ (lookup_reverse_eq_none.mp hlookup)
        rw [lineMappings_of_startsBlank hstart, List.map_map]
        simpa using hfield
      | some type =>
        have hmem := mem_of_lookup_reverse hlookup
        rw [lineMappings_of_startsBlank hstart] at hmem
        obtain ⟨_, -, hpair⟩ := List.mem_map.mp hmem
        cases hpair
        rfl
    · obtain ⟨ext, hext⟩ := ih hrests hrest
      refine ⟨ext, ?_⟩
      rw [lookup_reverse_flatMap, hext, Option.some_or]

theorem lookup_agrees_iff {texts : List Bytes} (hbreaks : ∀ text ∈ texts, 10 ∉ text.dropLast) :
    (∀ ext, (texts.flatMap lineMappings).reverse.lookup ext =
      (texts.flatMap referenceLine).reverse.lookup ext) ↔ Overridden texts := by
  constructor
  · intro hagrees
    by_contra hover
    obtain ⟨ext, hext⟩ := exists_lookup_of_not_overridden hbreaks hover
    rw [hagrees ext] at hext
    obtain ⟨text, -, hmem⟩ := List.mem_flatMap.mp (mem_of_lookup_reverse hext)
    exact (of_mem_referenceLine hmem).2 rfl
  · exact fun hover ext ↦ lookup_eq_of_overridden hbreaks hover ext

/-! ## Every file -/

theorem not_mem_text_dropLast {chunk : Bytes} (hpiece : IsPiece 10 (lineSize - 1) chunk) :
    10 ∉ (text chunk).dropLast := by
  rcases text_spec chunk with hall | ⟨rest, hrest⟩
  · rw [← hall]
    exact hpiece.2.2
  · intro hmem
    refine hpiece.2.2 ?_
    rw [hrest, List.dropLast_append_of_ne_nil (by simp)]
    exact List.mem_append_left _ (List.dropLast_subset _ hmem)

/-- When the table is right: no line reads behind its end, and what a line that begins with a blank adds
is overridden. -/
structure Clean (memory : Vector UInt8 lineSize) (file : Bytes) : Prop where
  inside : Guarded recheckLine StaysInLine ⟨memory.toList, [], false, false⟩
    (pieces 10 (lineSize - 1) file)
  overridden : Overridden ((pieces 10 (lineSize - 1) file).map text)

/-- For every file, and whatever the buffer holds at first. -/
theorem mime_types_correct_iff (memory : Vector UInt8 lineSize) (file : Bytes) :
    Correct memory file ↔ Clean memory file := by
  have hpieces : ∀ chunk ∈ pieces 10 (lineSize - 1) file, IsPiece 10 (lineSize - 1) chunk :=
    fun chunk hmem ↦ isPiece_of_mem_pieces (by decide) hmem
  have hfits : ∀ chunk ∈ pieces 10 (lineSize - 1) file, chunk.length < lineSize :=
    fun chunk hmem ↦ Nat.lt_of_le_of_lt (hpieces chunk hmem).2.1 (by decide)
  have hbreaks : ∀ line ∈ (pieces 10 (lineSize - 1) file).map text, 10 ∉ line.dropLast := by
    intro line hmem
    obtain ⟨chunk, hchunk, rfl⟩ := List.mem_map.mp hmem
    exact not_mem_text_dropLast (hpieces chunk hchunk)
  have hrun := run_recheckLine hfits ⟨memory.toList, [], false, false⟩
  have hstays : (fserveRecheckMimeTypes memory file).beyond = false ∧
      (fserveRecheckMimeTypes memory file).outside = false ↔
        Guarded recheckLine StaysInLine ⟨memory.toList, [], false, false⟩
          (pieces 10 (lineSize - 1) file) :=
    hrun.1.trans (and_iff_right ⟨rfl, rfl⟩)
  have hmapping : Guarded recheckLine StaysInLine ⟨memory.toList, [], false, false⟩
      (pieces 10 (lineSize - 1) file) →
      ((∀ ext, (fserveRecheckMimeTypes memory file).mappings.lookup ext = reference file ext) ↔
        Overridden ((pieces 10 (lineSize - 1) file).map text)) := by
    intro hinside
    rw [← lookup_agrees_iff hbreaks]
    refine forall_congr' fun ext ↦ ?_
    rw [fserveRecheckMimeTypes, hrun.2 hinside, lookup_foldl_addMapping, reference]
    simp [List.flatMap_map, Function.comp_def]
  constructor
  · intro hcorrect
    have hinside := hstays.mp ⟨hcorrect.beyond, hcorrect.outside⟩
    exact ⟨hinside, (hmapping hinside).mp hcorrect.mapping⟩
  · intro hclean
    obtain ⟨hbeyond, houtside⟩ := hstays.mpr hclean.inside
    exact ⟨houtside, hbeyond, (hmapping hclean.inside).mpr hclean.overridden⟩

/-- The last line has no line break: behind it the rest of the line before is read, whose end
gives an extension. -/
theorem mime_types_reads_behind :
    ¬ ∀ (memory : Vector UInt8 lineSize) (file : Bytes), Correct memory file := by
  intro hall
  have hbeyond := (hall (Vector.replicate lineSize 0) (bytes "application/ogg ogg\ntext/x tx")).beyond
  exact absurd hbeyond (by decide +kernel)

end Icecast.Fserve.MimeTypes
