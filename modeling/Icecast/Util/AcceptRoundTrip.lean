import Icecast.Util.AcceptHeader

/-!
# Writing a header and reading it again

A header is written from elements, each a token with parameters whose values are tokens or quoted strings;
there may be spaces around every word. `util_parse_http_cn` (`util.c`) brings the tokens back. Quoted
strings are unescaped in place, but the tokenizer never says where they are.
-/

namespace Icecast.Util.AcceptRoundTrip

open AcceptParser AcceptTokens AcceptHeader Lib.Checked
open Format.Comments (Bytes bytes)

/-! ## Headers -/

structure TokenText where
  chars : Bytes
  ne_nil : chars ≠ []
  token : ∀ char ∈ chars, isToken char = true

/-- A character of a quoted string, as it is or behind a backslash. -/
inductive QuotedChar where
  | plain (char : UInt8) (h : isQuotable false char = true)
  | escaped (char : UInt8) (h : char ≠ 0)

def QuotedChar.char : QuotedChar → UInt8
  | .plain char _ => char
  | .escaped char _ => char

def QuotedChar.render : QuotedChar → Bytes
  | .plain char _ => [char]
  | .escaped char _ => [92, char]

inductive Value where
  | token (text : TokenText)
  | quoted (text : List QuotedChar)

def Value.text : Value → Bytes
  | .token text => text.chars
  | .quoted text => text.map QuotedChar.char

def Value.render : Value → Bytes
  | .token text => text.chars
  | .quoted text => 34 :: (text.flatMap QuotedChar.render ++ [34])

def Value.isQuoted : Value → Bool
  | .token _ => false
  | .quoted _ => true

/-- Something with spaces around it. -/
structure Spaced (α : Type) where
  before : ℕ
  item : α
  after : ℕ

def Spaced.render {α : Type} (text : α → Bytes) (spaced : Spaced α) : Bytes :=
  List.replicate spaced.before 32 ++ text spaced.item ++ List.replicate spaced.after 32

structure Param where
  name : Spaced TokenText
  value : Spaced Value

structure Element where
  name : Spaced TokenText
  params : List Param

def Param.render (param : Param) : Bytes :=
  59 :: (param.name.render TokenText.chars ++ 61 :: param.value.render Value.render)

def Element.render (element : Element) : Bytes :=
  element.name.render TokenText.chars ++ element.params.flatMap Param.render

def render : List Element → Bytes
  | [] => []
  | [element] => element.render
  | element :: rest => element.render ++ 44 :: render rest

/-! ## What comes back -/

def Param.entry (param : Param) : Kv Bytes := ⟨some param.name.item.chars, some param.value.item.text⟩

def Element.entries (element : Element) : List (Kv Bytes) :=
  ⟨some element.name.item.chars, none⟩ :: element.params.map Param.entry

def readString (memory : Bytes) : Option ℕ → Run (Option Bytes)
  | none => .ok none
  | some ptr => some <$> loadString memory ptr

def readEntry (memory : Bytes) (entry : Kv ℕ) : Run (Kv Bytes) := do
  return ⟨← readString memory entry.key, ← readString memory entry.value⟩

/-- The header is accepted, the entries are those of the elements, and the index has the first entry of
each element. -/
def RoundTrip (signed : Bool) (elements : List Element) : Prop :=
  ∃ memory kva, utilParseHttpCn signed (some (render elements)) = .ok (some (memory, kva)) ∧
    (kva.kv.take kva.kvlen).mapM (readEntry memory) = .ok (elements.map Element.entries).flatten ∧
    kva.index.take kva.indexlen = starts (elements.map Element.entries)

/-! ## Media ranges

In general there can be tabs in the white space, and a parameter needs no value.
-/

structure Blank where
  chars : Bytes
  blank : ∀ char ∈ chars, char = 32 ∨ char = 9

/-- There is no tab. -/
def Blank.isPlain (blank : Blank) : Bool := blank.chars.all isSpace

structure Padded (α : Type) where
  before : Blank
  item : α
  after : Blank

def Padded.render {α : Type} (text : α → Bytes) (padded : Padded α) : Bytes :=
  padded.before.chars ++ text padded.item ++ padded.after.chars

structure MediaParam where
  name : Padded TokenText
  value : Option (Padded Value)

structure MediaRange where
  name : Padded TokenText
  params : List MediaParam

def renderValue : Option (Padded Value) → Bytes
  | none => []
  | some value => 61 :: value.render Value.render

def MediaParam.render (param : MediaParam) : Bytes :=
  59 :: (param.name.render TokenText.chars ++ renderValue param.value)

def MediaRange.render (range : MediaRange) : Bytes :=
  range.name.render TokenText.chars ++ range.params.flatMap MediaParam.render

def renderRanges : List MediaRange → Bytes
  | [] => []
  | [range] => range.render
  | range :: rest => range.render ++ 44 :: renderRanges rest

/-- What the tokenizer passes on of a value. -/
def Value.read : Value → Option Bytes
  | .token text => some text.chars
  | .quoted _ => none

def MediaParam.readEntry (param : MediaParam) : Kv Bytes :=
  ⟨some param.name.item.chars, param.value.bind (·.item.read)⟩

def MediaRange.readEntries (range : MediaRange) : List (Kv Bytes) :=
  ⟨some range.name.item.chars, none⟩ :: range.params.map MediaParam.readEntry

def QuotedChar.isEscaped : QuotedChar → Bool
  | .plain _ _ => false
  | .escaped _ _ => true

/-- Where `char` is signed, a byte of the upper half needs an escape. -/
def QuotedChar.isLegal (signed : Bool) : QuotedChar → Bool
  | .plain char _ => isQuotable signed char
  | .escaped _ _ => true

/-- A quoted string is taken if it is legal, has an escape, and nothing stands behind it. -/
def takes (signed : Bool) (text : List QuotedChar) (after : Blank) : Bool :=
  text.all (QuotedChar.isLegal signed) && text.any QuotedChar.isEscaped && after.chars.isEmpty

def namePasses (name : Padded TokenText) : Bool := name.before.isPlain && name.after.isPlain

def valuePasses (signed : Bool) (value : Padded Value) : Bool :=
  value.before.isPlain &&
    match value.item with
    | .token _ => value.after.isPlain
    | .quoted text => takes signed text value.after

def MediaParam.passes (signed : Bool) (param : MediaParam) : Bool :=
  namePasses param.name && param.value.all (valuePasses signed)

def MediaRange.passes (signed : Bool) (range : MediaRange) : Bool :=
  namePasses range.name && range.params.all (MediaParam.passes signed)

/-- There is no tab outside of quoted strings, and each of these is taken. -/
def passes (signed : Bool) (ranges : List MediaRange) : Bool := ranges.all (MediaRange.passes signed)

def MediaParam.isQuoted (param : MediaParam) : Bool := param.value.any (·.item.isQuoted)

def endsQuoted (params : List MediaParam) : Bool := params.getLast?.any MediaParam.isQuoted

/-- The header ends with a quoted string. -/
def runsOn (ranges : List MediaRange) : Bool := ranges.getLast?.any (endsQuoted ·.params)

/-! ## Words -/

section Words

variable {signed : Bool}

theorem ne_of_isToken {char : UInt8} (hchar : isToken char = true) (other : UInt8)
    (hother : isToken other = false) : char ≠ other := by
  rintro rfl
  rw [hchar] at hother
  cases hother

theorem not_isSeparator_of_isToken {char : UInt8} (hchar : isToken char = true) :
    isSeparator char = false := by
  simp [isSeparator, ne_of_isToken hchar 44 (by decide),
    ne_of_isToken hchar 61 (by decide), ne_of_isToken hchar 59 (by decide)]

theorem not_isToken_of_isSeparator {char : UInt8} (hchar : isSeparator char = true) :
    isToken char = false := by
  cases htoken : isToken char with
  | false => rfl
  | true =>
    rw [not_isSeparator_of_isToken htoken] at hchar
    cases hchar

theorem not_isSpace_of_isSeparator {char : UInt8} (hchar : isSeparator char = true) :
    isSpace char = false := by
  simp only [isSeparator, Bool.or_eq_true, decide_eq_true_eq] at hchar
  rcases hchar with (rfl | rfl) | rfl <;> rfl

theorem Blank.dropWhile_of_isPlain {blank : Blank} (h : blank.isPlain = true) (text : Bytes) :
    (blank.chars ++ text).dropWhile isSpace = text.dropWhile isSpace :=
  List.dropWhile_append_of_pos (List.all_eq_true.mp h)

/-- The spaces are passed over, up to the first tab. -/
theorem Blank.dropWhile_of_not_isPlain {blank : Blank} (h : blank.isPlain = false) (text : Bytes) :
    ∃ rest, (blank.chars ++ text).dropWhile isSpace = 9 :: rest := by
  obtain ⟨chars, hblank⟩ := blank
  unfold Blank.isPlain at h
  dsimp only at h ⊢
  induction chars with
  | nil => cases h
  | cons char chars ih =>
    rw [List.forall_mem_cons] at hblank
    rcases hblank.1 with rfl | rfl
    · exact ih hblank.2 h
    · exact ⟨chars ++ text, rfl⟩

theorem Blank.not_isToken (blank : Blank) {tail : Bytes} (htail : ∀ char ∈ tail.head?, isToken char = false) :
    ∀ char ∈ (blank.chars ++ tail).head?, isToken char = false := by
  intro char hchar
  obtain ⟨chars, hblank⟩ := blank
  cases chars with
  | nil => exact htail char hchar
  | cons first rest =>
    cases hchar
    rcases hblank char List.mem_cons_self with rfl | rfl <;> rfl

theorem lexeme_of_tab {text rest : Bytes} (h : text.dropWhile isSpace = 9 :: rest) :
    lexeme signed text = .illegal := by
  rw [lexeme, h]
  rfl

/-- Nothing, or a separator and anything. -/
def Ended (tail : Bytes) : Prop := ∀ char ∈ tail.head?, isSeparator char = true

theorem Ended.dropWhile_isSpace {tail : Bytes} (htail : Ended tail) : tail.dropWhile isSpace = tail := by
  cases tail with
  | nil => rfl
  | cons char rest =>
    exact List.dropWhile_cons_of_neg (by simp [not_isSpace_of_isSeparator (htail char rfl)])

/-- What the header begins with when a word has been read. -/
def wordEnds (word : Option Bytes) : Bytes → Lexeme
  | [] => .last word
  | separator :: rest => .piece word separator rest

theorem wordLexeme_token (text : TokenText) (after : Blank) {tail : Bytes} (htail : Ended tail) :
    wordLexeme (text.chars ++ (after.chars ++ tail)) =
      if after.isPlain then wordEnds (some text.chars) tail else .illegal := by
  have hnot := after.not_isToken fun char hchar ↦ not_isToken_of_isSeparator (htail char hchar)
  have htake : (text.chars ++ (after.chars ++ tail)).takeWhile isToken = text.chars := by
    rw [List.takeWhile_append_of_pos text.token]
    cases hbehind : after.chars ++ tail with
    | nil => simp
    | cons char rest => simp [hnot char (by rw [hbehind]; rfl)]
  have hdrop : (text.chars ++ (after.chars ++ tail)).dropWhile isToken = after.chars ++ tail := by
    rw [List.dropWhile_append_of_pos text.token]
    cases hbehind : after.chars ++ tail with
    | nil => rfl
    | cons char rest => simp [hnot char (by rw [hbehind]; rfl)]
  rw [wordLexeme, htake, hdrop]
  cases hplain : after.isPlain with
  | false =>
    obtain ⟨rest, hrest⟩ := Blank.dropWhile_of_not_isPlain hplain tail
    rw [hrest]
    rfl
  | true =>
    rw [Blank.dropWhile_of_isPlain hplain, htail.dropWhile_isSpace]
    cases tail with
    | nil => rfl
    | cons separator rest => exact if_pos (htail separator rfl)

theorem lexeme_word (signed : Bool) (name : Padded TokenText) {tail : Bytes} (htail : Ended tail) :
    lexeme signed (name.render TokenText.chars ++ tail) =
      if namePasses name then wordEnds (some name.item.chars) tail else .illegal := by
  obtain ⟨before, text, after⟩ := name
  rw [Padded.render, List.append_assoc, List.append_assoc, namePasses]
  cases hplain : before.isPlain with
  | false =>
    obtain ⟨rest, hrest⟩ :=
      Blank.dropWhile_of_not_isPlain hplain (text.chars ++ (after.chars ++ tail))
    exact lexeme_of_tab hrest
  | true =>
    have hword := wordLexeme_token text after htail
    obtain ⟨chars, hne, htoken⟩ := text
    cases chars with
    | nil => exact absurd rfl hne
    | cons first rest =>
      have hfirst := htoken first List.mem_cons_self
      have hspace : ¬ isSpace first = true := by
        simpa [isSpace] using ne_of_isToken hfirst 32 (by decide)
      rw [lexeme, Blank.dropWhile_of_isPlain hplain, List.cons_append, List.dropWhile_cons_of_neg hspace]
      simp only [not_isSeparator_of_isToken hfirst, ne_of_isToken hfirst 34 (by decide),
        Bool.false_eq_true, if_false]
      exact hword

/-- What is done when a word has been placed. -/
def continueHeader (signed : Bool) (draft : Draft Bytes) : Bytes → Reading
  | [] => .accepted draft.items
  | separator :: rest => readHeader signed rest (draft.separate separator)

/-- The header is read by what it begins with. -/
theorem readHeader_eq (text : Bytes) (draft : Draft Bytes) : readHeader signed text draft =
    match lexeme signed text with
    | .illegal => .rejected
    | .quotedEnd => .runsOn
    | .last word =>
      match draft.place word with
      | none => .rejected
      | some draft => .accepted draft.items
    | .piece word separator rest =>
      match draft.place word with
      | none => .rejected
      | some draft => readHeader signed rest (draft.separate separator) := by
  rw [readHeader.eq_def]
  cases lexeme signed text <;> rfl

theorem readHeader_of_wordEnds {text tail : Bytes} {word : Option Bytes} {legal : Bool}
    (h : lexeme signed text = if legal then wordEnds word tail else .illegal) {draft placed : Draft Bytes}
    (hplace : draft.place word = some placed) :
    readHeader signed text draft = if legal then continueHeader signed placed tail else .rejected := by
  rw [readHeader_eq, h]
  cases legal with
  | false => rfl
  | true =>
    cases tail with
    | nil => simp only [wordEnds, hplace, continueHeader, if_true]
    | cons separator rest => simp only [wordEnds, hplace, continueHeader, if_true]

theorem quoted_cons (signed escaped : Bool) {char : UInt8} (hescape : char ≠ 92) (hquote : char ≠ 34)
    (rest : Bytes) : quoted signed escaped (char :: rest) =
      if isQuotable signed char then quoted signed escaped rest else none := by
  rw [quoted.eq_def]
  simp only [hescape, hquote, if_false]

theorem quoted_render (signed : Bool) (text : List QuotedChar) (rest : Bytes) (escaped : Bool) :
    quoted signed escaped (text.flatMap QuotedChar.render ++ 34 :: rest) =
      if text.all (QuotedChar.isLegal signed) then
        some (escaped || text.any QuotedChar.isEscaped, rest)
      else none := by
  induction text generalizing escaped with
  | nil =>
    have hquotable : ¬ isQuotable signed 34 = true := by cases signed <;> decide
    rw [List.flatMap_nil, List.nil_append, quoted.eq_def]
    simp [hquotable]
  | cons first text ih =>
    rw [List.flatMap_cons, List.append_assoc, List.all_cons, List.any_cons]
    cases first with
    | plain char h =>
      have hescape : char ≠ 92 := by
        rintro rfl
        exact absurd h (by decide)
      have hquote : char ≠ 34 := by
        rintro rfl
        exact absurd h (by decide)
      rw [QuotedChar.render, List.singleton_append, quoted_cons signed escaped hescape hquote, ih]
      cases hlegal : isQuotable signed char <;> simp [QuotedChar.isLegal, QuotedChar.isEscaped, hlegal]
    | escaped char h =>
      have hquotable : ¬ isQuotable signed 92 = true := by cases signed <;> decide
      have hstep : quoted signed escaped (QuotedChar.render (.escaped char h) ++
          (text.flatMap QuotedChar.render ++ 34 :: rest)) =
          quoted signed true (text.flatMap QuotedChar.render ++ 34 :: rest) := by
        rw [QuotedChar.render, List.cons_append, List.singleton_append, quoted.eq_def]
        simp [hquotable]
      rw [hstep, ih]
      simp [QuotedChar.isLegal, QuotedChar.isEscaped]

/-- What the header begins with when a quoted string has been read, which never becomes a word. -/
def quotedEnds : Bytes → Lexeme
  | [] => .quotedEnd
  | separator :: rest => .piece none separator (rest.dropWhile isSpace)

theorem quotedLexeme_render (signed : Bool) (text : List QuotedChar) (after : Blank) {tail : Bytes}
    (htail : Ended tail) :
    quotedLexeme signed (text.flatMap QuotedChar.render ++ 34 :: (after.chars ++ tail)) =
      if takes signed text after then quotedEnds tail else .illegal := by
  rw [quotedLexeme, quoted_render, takes]
  cases text.all (QuotedChar.isLegal signed) with
  | false => rfl
  | true =>
    cases text.any QuotedChar.isEscaped with
    | false => rfl
    | true =>
      obtain ⟨chars, hblank⟩ := after
      cases chars with
      | nil =>
        cases tail with
        | nil => rfl
        | cons separator rest => exact if_pos (htail separator rfl)
      | cons char chars => rcases hblank char List.mem_cons_self with rfl | rfl <;> rfl

theorem lexeme_quoted (signed : Bool) (before : Blank) (text : Bytes) :
    lexeme signed (before.chars ++ 34 :: text) =
      if before.isPlain then quotedLexeme signed text else .illegal := by
  cases hplain : before.isPlain with
  | false =>
    obtain ⟨rest, hrest⟩ := Blank.dropWhile_of_not_isPlain hplain (34 :: text)
    exact lexeme_of_tab hrest
  | true =>
    rw [lexeme, Blank.dropWhile_of_isPlain hplain]
    rfl

end Words

/-! ## Entries that have been read -/

section Entries

variable {signed : Bool}

theorem lexeme_dropWhile (text : Bytes) : lexeme signed (text.dropWhile isSpace) = lexeme signed text := by
  have htwice : (text.dropWhile isSpace).dropWhile isSpace = text.dropWhile isSpace := by
    induction text with
    | nil => rfl
    | cons char rest ih =>
      cases hchar : isSpace char <;> simp [hchar, ih]
  rw [lexeme, htwice, lexeme]

theorem readHeader_dropWhile (text : Bytes) (draft : Draft Bytes) :
    readHeader signed (text.dropWhile isSpace) draft = readHeader signed text draft := by
  rw [readHeader_eq, readHeader_eq, lexeme_dropWhile]

/-- Nothing, or the beginning of another parameter or element. -/
def EntryEnds (tail : Bytes) : Prop := ∀ char ∈ tail.head?, char = 44 ∨ char = 59

theorem EntryEnds.ended {tail : Bytes} (h : EntryEnds tail) : Ended tail := by
  intro char hchar
  rcases h char hchar with rfl | rfl <;> rfl

def addEntry (draft : Draft Bytes) (param : MediaParam) : Draft Bytes :=
  ⟨draft.done, draft.earlier ++ [draft.current], param.readEntry⟩

/-- The name has been read, and the equals sign. If a quoted string is the last value, the tokenizer looks
behind the end. -/
theorem readHeader_value (value : Padded Value) (done : List (List (Kv Bytes))) (earlier : List (Kv Bytes))
    (name : Bytes) {tail : Bytes} (htail : EntryEnds tail) :
    readHeader signed (value.render Value.render ++ tail) ⟨done, earlier, ⟨some name, none⟩⟩ =
      if valuePasses signed value then
        if value.item.isQuoted && tail.isEmpty then .runsOn
        else continueHeader signed ⟨done, earlier, ⟨some name, value.item.read⟩⟩ tail
      else .rejected := by
  obtain ⟨before, item, after⟩ := value
  cases item with
  | token text =>
    have hplace : (⟨done, earlier, ⟨some name, none⟩⟩ : Draft Bytes).place (some text.chars) =
        some ⟨done, earlier, ⟨some name, some text.chars⟩⟩ := rfl
    exact readHeader_of_wordEnds (lexeme_word signed ⟨before, text, after⟩ htail.ended) hplace
  | quoted text =>
    have hrender : Padded.render Value.render ⟨before, .quoted text, after⟩ ++ tail =
        before.chars ++ 34 :: (text.flatMap QuotedChar.render ++ 34 :: (after.chars ++ tail)) := by
      simp [Padded.render, Value.render]
    have hpasses : valuePasses signed ⟨before, .quoted text, after⟩ =
        (before.isPlain && takes signed text after) := rfl
    rw [hrender, readHeader_eq, lexeme_quoted, quotedLexeme_render signed text after htail.ended, hpasses]
    cases before.isPlain with
    | false => rfl
    | true =>
      cases takes signed text after with
      | false => rfl
      | true =>
        cases tail with
        | nil => rfl
        | cons separator rest => exact readHeader_dropWhile rest _

theorem continueHeader_param (draft : Draft Bytes) (param : MediaParam) {tail : Bytes}
    (htail : EntryEnds tail) : continueHeader signed draft (param.render ++ tail) =
      if param.passes signed then
        if param.isQuoted && tail.isEmpty then .runsOn
        else continueHeader signed (addEntry draft param) tail
      else .rejected := by
  obtain ⟨name, value⟩ := param
  have hplace : (draft.separate 59).place (some name.item.chars) =
      some ⟨draft.done, draft.earlier ++ [draft.current], ⟨some name.item.chars, none⟩⟩ := rfl
  have hrender : continueHeader signed draft (MediaParam.render ⟨name, value⟩ ++ tail) =
      readHeader signed (name.render TokenText.chars ++ (renderValue value ++ tail))
        (draft.separate 59) := by
    rw [MediaParam.render, List.cons_append, List.append_assoc]
    rfl
  have hended : Ended (renderValue value ++ tail) := by
    cases value with
    | none => exact htail.ended
    | some value =>
      rintro char ⟨⟩
      rfl
  rw [hrender, readHeader_of_wordEnds (lexeme_word signed name hended) hplace, MediaParam.passes]
  cases namePasses name with
  | false => rfl
  | true =>
    cases value with
    | none => rfl
    | some value =>
      exact readHeader_value value draft.done (draft.earlier ++ [draft.current]) name.item.chars htail

theorem entryEnds_params (params : List MediaParam) {tail : Bytes} (htail : EntryEnds tail) :
    EntryEnds (params.flatMap MediaParam.render ++ tail) := by
  cases params with
  | nil => exact htail
  | cons param params =>
    rintro char ⟨⟩
    exact Or.inr rfl

theorem items_foldl_addEntry (draft : Draft Bytes) (params : List MediaParam) :
    (params.foldl addEntry draft).items =
      draft.done ++ [draft.earlier ++ [draft.current] ++ params.map MediaParam.readEntry] := by
  induction params generalizing draft with
  | nil => simp [Draft.items]
  | cons param params ih =>
    rw [List.foldl_cons, ih]
    simp [addEntry]

theorem continueHeader_params (params : List MediaParam) (draft : Draft Bytes) {tail : Bytes}
    (htail : EntryEnds tail) :
    continueHeader signed draft (params.flatMap MediaParam.render ++ tail) =
      if params.all (MediaParam.passes signed) then
        if endsQuoted params && tail.isEmpty then .runsOn
        else continueHeader signed (params.foldl addEntry draft) tail
      else .rejected := by
  induction params generalizing draft with
  | nil => simp [endsQuoted]
  | cons param params ih =>
    rw [List.flatMap_cons, List.append_assoc, continueHeader_param draft param
      (entryEnds_params params htail), List.all_cons]
    cases hpasses : param.passes signed with
    | false => rfl
    | true =>
      rw [Bool.true_and, if_pos rfl, ih]
      cases params with
      | nil => simp [endsQuoted]
      | cons next params =>
        have hmore : ((next :: params).flatMap MediaParam.render ++ tail).isEmpty = false := rfl
        simp only [hmore, Bool.and_false, Bool.false_eq_true, if_false, endsQuoted,
          List.getLast?_cons_cons, List.foldl_cons]
        rfl

/-- The header goes on with a media range. -/
def fresh (done : List (List (Kv Bytes))) : Draft Bytes := ⟨done, [], ⟨none, none⟩⟩

theorem readHeader_range (range : MediaRange) (done : List (List (Kv Bytes))) {tail : Bytes}
    (htail : EntryEnds tail) : readHeader signed (range.render ++ tail) (fresh done) =
      if namePasses range.name then
        continueHeader signed ⟨done, [], ⟨some range.name.item.chars, none⟩⟩
          (range.params.flatMap MediaParam.render ++ tail)
      else .rejected := by
  have hword := lexeme_word signed range.name (entryEnds_params range.params htail).ended
  rw [← List.append_assoc] at hword
  exact readHeader_of_wordEnds hword rfl

/-- What comes behind a media range. -/
def renderTail : List MediaRange → Bytes
  | [] => []
  | next :: rest => 44 :: renderRanges (next :: rest)

theorem renderRanges_cons (range : MediaRange) (rest : List MediaRange) :
    renderRanges (range :: rest) = range.render ++ renderTail rest := by
  cases rest with
  | nil => rw [renderRanges, renderTail, List.append_nil]
  | cons next rest => rfl

theorem entryEnds_renderTail (rest : List MediaRange) : EntryEnds (renderTail rest) := by
  intro char hchar
  cases rest with
  | nil => cases hchar
  | cons next rest =>
    cases hchar
    exact Or.inl rfl

theorem readHeader_renderRanges {ranges : List MediaRange} (hne : ranges ≠ [])
    (done : List (List (Kv Bytes))) : readHeader signed (renderRanges ranges) (fresh done) =
      if passes signed ranges then
        if runsOn ranges then .runsOn else .accepted (done ++ ranges.map MediaRange.readEntries)
      else .rejected := by
  induction ranges generalizing done with
  | nil => exact absurd rfl hne
  | cons range rest ih =>
    have htail := entryEnds_renderTail rest
    have hitems : (range.params.foldl addEntry
        ⟨done, [], ⟨some range.name.item.chars, none⟩⟩).items = done ++ [range.readEntries] := by
      rw [items_foldl_addEntry]
      rfl
    rw [renderRanges_cons, readHeader_range range done htail, passes, List.all_cons, MediaRange.passes]
    cases namePasses range.name with
    | false => rfl
    | true =>
      rw [if_pos rfl, continueHeader_params _ _ htail]
      cases range.params.all (MediaParam.passes signed) with
      | false => rfl
      | true =>
        cases rest with
        | nil =>
          simp only [renderTail, continueHeader, hitems, runsOn]
          simp
        | cons next rest =>
          have hmore : (renderTail (next :: rest)).isEmpty = false := rfl
          have hrest := ih (List.cons_ne_nil next rest) (done ++ [range.readEntries])
          have hcontinue : continueHeader signed (range.params.foldl addEntry
              ⟨done, [], ⟨some range.name.item.chars, none⟩⟩) (renderTail (next :: rest)) =
              readHeader signed (renderRanges (next :: rest)) (fresh (done ++ [range.readEntries])) := by
            rw [← hitems]
            rfl
          simp only [hmore, Bool.and_false, Bool.false_eq_true, if_false, if_true, Bool.true_and,
            hcontinue, hrest, runsOn, List.getLast?_cons_cons]
          simp [passes]

theorem renderRanges_ne_nil {ranges : List MediaRange} (hne : ranges ≠ []) : renderRanges ranges ≠ [] := by
  cases ranges with
  | nil => exact absurd rfl hne
  | cons range rest =>
    rw [renderRanges_cons, MediaRange.render, Padded.render]
    simp [range.name.item.ne_nil]

theorem zero_not_mem_padded {α : Type} {text : α → Bytes} {padded : Padded α}
    (h : 0 ∉ text padded.item) : 0 ∉ padded.render text := by
  have hblank (blank : Blank) : 0 ∉ blank.chars := fun hmem ↦ absurd (blank.blank 0 hmem) (by decide)
  simp [Padded.render, h, hblank]

theorem zero_not_mem_token (text : TokenText) : 0 ∉ text.chars := by
  intro hmem
  exact absurd (text.token 0 hmem) (by decide)

theorem zero_not_mem_value (value : Value) : 0 ∉ value.render := by
  cases value with
  | token text => exact zero_not_mem_token text
  | quoted text =>
    have hchars : 0 ∉ text.flatMap QuotedChar.render := by
      intro hmem
      obtain ⟨char, -, hchar⟩ := List.mem_flatMap.mp hmem
      cases char with
      | plain char h =>
        rw [QuotedChar.render, List.mem_singleton] at hchar
        subst hchar
        exact absurd h (by decide)
      | escaped char h => simp [QuotedChar.render, Ne.symm h] at hchar
    simp [Value.render, hchars]

theorem zero_not_mem_param (param : MediaParam) : 0 ∉ param.render := by
  obtain ⟨name, value⟩ := param
  have hname := zero_not_mem_padded (zero_not_mem_token name.item)
  have hvalue : 0 ∉ renderValue value := by
    cases value with
    | none => exact List.not_mem_nil
    | some value => simp [renderValue, zero_not_mem_padded (zero_not_mem_value value.item)]
  simp [MediaParam.render, hname, hvalue]

theorem zero_not_mem_renderRanges (ranges : List MediaRange) : 0 ∉ renderRanges ranges := by
  induction ranges with
  | nil => exact List.not_mem_nil
  | cons range rest ih =>
    have hname := zero_not_mem_padded (zero_not_mem_token range.name.item)
    have hparams : 0 ∉ range.params.flatMap MediaParam.render := by
      intro hmem
      obtain ⟨param, -, hparam⟩ := List.mem_flatMap.mp hmem
      exact zero_not_mem_param param hparam
    have htail : 0 ∉ renderTail rest := by
      cases rest with
      | nil => exact List.not_mem_nil
      | cons next rest => simpa [renderTail] using ih
    rw [renderRanges_cons, MediaRange.render]
    simp [hname, hparams, htail]

end Entries

/-! ## Elements as media ranges -/

section Elements

def plainBlank (count : ℕ) : Blank :=
  ⟨List.replicate count 32, fun _ hmem ↦ Or.inl (List.eq_of_mem_replicate hmem)⟩

theorem isPlain_plainBlank (count : ℕ) : (plainBlank count).isPlain = true := by
  simp [Blank.isPlain, plainBlank, isSpace]

def Spaced.toPadded {α : Type} (spaced : Spaced α) : Padded α :=
  ⟨plainBlank spaced.before, spaced.item, plainBlank spaced.after⟩

def Param.toMediaParam (param : Param) : MediaParam := ⟨param.name.toPadded, some param.value.toPadded⟩

def Element.toRange (element : Element) : MediaRange :=
  ⟨element.name.toPadded, element.params.map Param.toMediaParam⟩

theorem Element.render_toRange (element : Element) : element.toRange.render = element.render := by
  rw [MediaRange.render, Element.toRange, Element.render, List.flatMap_map]
  rfl

theorem renderRanges_toRange (elements : List Element) :
    renderRanges (elements.map Element.toRange) = render elements := by
  induction elements with
  | nil => rfl
  | cons element rest ih =>
    cases rest with
    | nil => exact element.render_toRange
    | cons next rest =>
      rw [render, ← ih, ← element.render_toRange]
      · rfl
      · exact List.cons_ne_nil next rest

theorem namePasses_toPadded (name : Spaced TokenText) : namePasses name.toPadded = true := by
  simp [namePasses, Spaced.toPadded, isPlain_plainBlank]

theorem readEntry_toMediaParam_iff (param : Param) :
    param.toMediaParam.readEntry = param.entry ↔ param.value.item.isQuoted = false := by
  obtain ⟨name, before, item, after⟩ := param
  cases item with
  | token text => exact iff_of_true rfl rfl
  | quoted text => exact iff_of_false nofun nofun

theorem readEntries_toRange_iff (element : Element) : element.toRange.readEntries = element.entries ↔
    ∀ param ∈ element.params, param.value.item.isQuoted = false := by
  have hentries : element.toRange.readEntries = ⟨some element.name.item.chars, none⟩ ::
      element.params.map (MediaParam.readEntry ∘ Param.toMediaParam) := by
    rw [← List.map_map]
    rfl
  rw [hentries, Element.entries, List.cons.injEq, and_iff_right rfl, List.map_inj_left]
  exact forall₂_congr fun param _ ↦ readEntry_toMediaParam_iff param

theorem flatten_readEntries_eq_iff (elements : List Element) :
    ((elements.map Element.toRange).map MediaRange.readEntries).flatten =
      (elements.map Element.entries).flatten ↔
      ∀ element ∈ elements, element.toRange.readEntries = element.entries := by
  induction elements with
  | nil => simp
  | cons element rest ih =>
    have hlength : element.toRange.readEntries.length = element.entries.length := by
      simp [MediaRange.readEntries, Element.toRange, Element.entries]
    rw [List.map_cons, List.map_cons, List.map_cons, List.flatten_cons, List.flatten_cons,
      List.forall_mem_cons, ← ih]
    constructor
    · exact fun hsame ↦ List.append_inj hsame hlength
    · rintro ⟨hfirst, hrest⟩
      rw [hfirst, hrest]

/-- Without quoted strings everything is taken. -/
theorem passes_toRange {signed : Bool} {elements : List Element}
    (hplain : ∀ element ∈ elements, ∀ param ∈ element.params, param.value.item.isQuoted = false) :
    passes signed (elements.map Element.toRange) = true := by
  simp only [passes, List.all_map, List.all_eq_true]
  intro element helement
  simp only [Function.comp_apply, MediaRange.passes, Element.toRange, namePasses_toPadded, Bool.true_and,
    List.all_map, List.all_eq_true]
  intro param hparam
  have hquoted := hplain element helement param hparam
  obtain ⟨name, before, item, after⟩ := param
  cases item with
  | token text =>
    have hvalue : valuePasses signed (Spaced.toPadded ⟨before, .token text, after⟩) = true := by
      simp [valuePasses, Spaced.toPadded, isPlain_plainBlank]
    simp [Param.toMediaParam, MediaParam.passes, namePasses_toPadded, hvalue]
  | quoted text => cases hquoted

theorem not_runsOn_toRange {elements : List Element}
    (hplain : ∀ element ∈ elements, ∀ param ∈ element.params, param.value.item.isQuoted = false) :
    runsOn (elements.map Element.toRange) = false := by
  rw [runsOn, List.getLast?_map, Option.any_map, Option.any_eq_false]
  intro element helement
  rw [Element.toRange, endsQuoted, List.getLast?_map, Option.any_map, Option.any_eq_false]
  intro param hparam
  simpa [Param.toMediaParam, MediaParam.isQuoted, Spaced.toPadded] using
    hplain element (List.mem_of_getLast? helement) param (List.mem_of_getLast? hparam)

end Elements

/-! ## Every list of elements -/

section Headers

variable {signed : Bool} {elements : List Element}

theorem zero_not_mem_render (elements : List Element) : 0 ∉ render elements := by
  rw [← renderRanges_toRange]
  exact zero_not_mem_renderRanges _

theorem readString_eq {memory : Bytes} {out : Option ℕ}
    (hends : ∀ ptr ∈ out, EndsBefore memory memory.length ptr) :
    readString memory out = .ok (out.map (textAt memory)) := by
  cases out with
  | none => rfl
  | some ptr =>
    rw [readString, loadString_eq (hends ptr rfl)]
    rfl

theorem mapM_readEntry {memory : Bytes} {entries : List (Kv ℕ)}
    (hends : EveryPointer (EndsBefore memory memory.length) [entries]) :
    entries.mapM (readEntry memory) = .ok (entries.map (mapEntry (textAt memory))) := by
  have hall := hends entries List.mem_cons_self
  clear hends
  induction entries with
  | nil => rfl
  | cons entry entries ih =>
    obtain ⟨hentry, hentries⟩ := List.forall_mem_cons.mp hall
    rw [List.mapM_cons, readEntry, readString_eq hentry.1, readString_eq hentry.2, ih hentries]
    rfl

theorem starts_mapItems {α β : Type} (f : α → β) (items : List (List (Kv α))) :
    starts (mapItems f items) = starts items := by
  unfold starts mapItems
  rw [List.length_map]
  apply List.map_congr_left
  intro i _
  rw [← List.map_take, ← List.map_flatten, List.length_map]

theorem length_starts {α : Type} (items : List (List α)) : (starts items).length = items.length := by
  simp [starts]

/-- What is read is what the header says. -/
theorem roundTrip_iff_readHeader (hne : render elements ≠ []) : RoundTrip signed elements ↔
    ∃ items, readHeader signed (render elements) Draft.start = .accepted items ∧
      items.flatten = (elements.map Element.entries).flatten ∧
      starts items = starts (elements.map Element.entries) := by
  have hparse := utilParseHttpCn_parses signed hne (zero_not_mem_render elements)
  unfold RoundTrip
  cases hheader : readHeader signed (render elements) Draft.start with
  | rejected =>
    rw [hheader] at hparse
    rw [show utilParseHttpCn signed (some (render elements)) = .ok none from hparse]
    exact iff_of_false (fun ⟨_, _, h, _⟩ ↦ nomatch h) (fun ⟨_, h, _⟩ ↦ nomatch h)
  | runsOn =>
    rw [hheader] at hparse
    rw [show utilParseHttpCn signed (some (render elements)) = .error .readPast from hparse]
    exact iff_of_false (fun ⟨_, _, h, _⟩ ↦ nomatch h) (fun ⟨_, h, _⟩ ↦ nomatch h)
  | accepted items =>
    rw [hheader] at hparse
    obtain ⟨memory, kva, draft, hfound, harrays, rfl, hends⟩ := hparse
    have hkv : kva.kv.take kva.kvlen = draft.items.flatten := by
      obtain ⟨n, hkv⟩ := harrays.kv
      rw [hkv, harrays.kvlen, List.take_left]
    have hindex : kva.index.take kva.indexlen = starts draft.items := by
      obtain ⟨n, hindex⟩ := harrays.index
      rw [hindex, harrays.indexlen, ← length_starts draft.items, List.take_left]
    have hentries : (kva.kv.take kva.kvlen).mapM (readEntry memory) =
        .ok (mapItems (textAt memory) draft.items).flatten := by
      rw [hkv, mapM_readEntry, mapItems, List.map_flatten]
      intro item hitem entry hentry
      rw [List.mem_singleton.mp hitem] at hentry
      obtain ⟨list, hlist, hmem⟩ := List.mem_flatten.mp hentry
      exact hends list hlist entry hmem
    rw [hfound]
    constructor
    · rintro ⟨memory', kva', hsame, hread, hstarts⟩
      cases hsame
      rw [hentries] at hread
      refine ⟨_, rfl, Except.ok.inj hread, ?_⟩
      rw [starts_mapItems, ← hindex, hstarts]
    · rintro ⟨items, hsame, hflatten, hstarts⟩
      cases hsame
      refine ⟨memory, kva, rfl, ?_, ?_⟩
      · rw [hentries, hflatten]
      · rw [hindex, ← starts_mapItems (textAt memory), hstarts]

/-- A header comes back exactly if it has an element, and no quoted string. -/
theorem round_trip_iff (signed : Bool) (elements : List Element) : RoundTrip signed elements ↔
    elements ≠ [] ∧ ∀ element ∈ elements, ∀ param ∈ element.params,
      param.value.item.isQuoted = false := by
  by_cases hne : elements = []
  · subst hne
    refine iff_of_false ?_ fun h ↦ h.1 rfl
    rintro ⟨memory, kva, hrun, -⟩
    cases hrun
  · have hranges : elements.map Element.toRange ≠ [] := by simpa using hne
    have htext : render elements ≠ [] := by
      rw [← renderRanges_toRange]
      exact renderRanges_ne_nil hranges
    have hread : readHeader signed (render elements) Draft.start =
        if passes signed (elements.map Element.toRange) then
          if runsOn (elements.map Element.toRange) then .runsOn
          else .accepted ((elements.map Element.toRange).map MediaRange.readEntries)
        else .rejected := by
      rw [← renderRanges_toRange]
      exact readHeader_renderRanges hranges []
    rw [and_iff_right hne, roundTrip_iff_readHeader htext, hread]
    constructor
    · rintro ⟨items, haccepted, hflatten, -⟩
      split at haccepted
      · split at haccepted
        · cases haccepted
        · cases haccepted
          rw [flatten_readEntries_eq_iff] at hflatten
          exact fun element helement ↦
            (readEntries_toRange_iff element).mp (hflatten element helement)
      · cases haccepted
    · intro hplain
      have hentries : (elements.map Element.toRange).map MediaRange.readEntries =
          elements.map Element.entries := by
        rw [List.map_map]
        exact List.map_congr_left fun element helement ↦
          (readEntries_toRange_iff element).mpr (hplain element helement)
      rw [passes_toRange hplain, not_runsOn_toRange hplain, hentries]
      exact ⟨elements.map Element.entries, rfl, rfl, rfl⟩

end Headers

def tokenA : TokenText := ⟨bytes "a", by decide +kernel, by decide +kernel⟩

def quotedParam : Param := ⟨⟨0, tokenA, 0⟩, ⟨0, .quoted [.plain 98 (by decide +kernel)], 0⟩⟩

/-- The header `a;a="b"` is rejected. -/
theorem quoted_value_lost : ¬ ∀ signed elements, RoundTrip signed elements := by
  intro hall
  obtain ⟨memory, kva, hrun, -⟩ := hall true [⟨⟨0, tokenA, 0⟩, [quotedParam]⟩]
  have hnone : utilParseHttpCn true (some (bytes "a;a=\"b\"")) = .ok none := by decide +kernel
  cases hnone.symm.trans hrun

end Icecast.Util.AcceptRoundTrip
