import Icecast.Lib.CString
import Icecast.Util.AcceptParser
import Mathlib.Data.List.TakeWhile

/-!
# The words of an Accept header

The header is taken apart here without memory: words with separators between them. A quoted string is only
taken if there is an escape in it, and it never becomes a word.

On memory the tokenizer writes zero bytes behind the words, and moves quoted strings to the front over
their escapes. What it writes is never ahead of what it reads, so it finds the same words. Only behind a
quoted string that ends the header does it look for more than there is.
-/

namespace Icecast.Util.AcceptTokens

open AcceptParser Lib.Checked
open Format.Comments (Bytes bytes)

/-! ## Words -/

def isSeparator (char : UInt8) : Bool := char = 44 || char = 61 || char = 59

/-- The rest behind the closing quote of a string, and whether there was an escape. -/
def quoted (signed escaped : Bool) : Bytes → Option (Bool × Bytes)
  | [] => none
  | char :: rest =>
    if isQuotable signed char then quoted signed escaped rest
    else if char = 92 then
      match rest with
      | [] => none
      | _ :: rest => quoted signed true rest
    else if char = 34 then some (escaped, rest)
    else none

/-- What the header begins with: something illegal, a quoted string that ends the header, the last word, or
a word and a separator. -/
inductive Lexeme where
  | illegal
  | quotedEnd
  | last (word : Option Bytes)
  | piece (word : Option Bytes) (separator : UInt8) (rest : Bytes)
  deriving DecidableEq

/-- The text goes on behind an opening quote. -/
def quotedLexeme (signed : Bool) (text : Bytes) : Lexeme :=
  match quoted signed false text with
  | some (true, []) => .quotedEnd
  | some (true, separator :: rest) =>
    if isSeparator separator then .piece none separator (rest.dropWhile isSpace) else .illegal
  | some (false, _) => .illegal
  | none => .illegal

def wordLexeme (text : Bytes) : Lexeme :=
  match (text.dropWhile isToken).dropWhile isSpace with
  | [] => .last (some (text.takeWhile isToken))
  | separator :: rest =>
    if isSeparator separator then .piece (some (text.takeWhile isToken)) separator rest else .illegal

def lexeme (signed : Bool) (text : Bytes) : Lexeme :=
  match text.dropWhile isSpace with
  | [] => .last none
  | char :: rest =>
    if isSeparator char then .illegal
    else if char = 34 then quotedLexeme signed rest
    else wordLexeme (char :: rest)

theorem quoted_suffix {signed escaped found : Bool} {text rest : Bytes}
    (h : quoted signed escaped text = some (found, rest)) : rest <:+ text := by
  fun_induction quoted signed escaped text with
  | case1 => cases h
  | case2 escaped char text hquotable ih => exact (ih h).trans (List.suffix_cons char text)
  | case3 => cases h
  | case4 escaped char text hquotable ih =>
    exact (ih h).trans ((List.suffix_cons char text).trans (List.suffix_cons 92 (char :: text)))
  | case5 escaped text =>
    rw [(Prod.mk.inj (Option.some.inj h)).2]
    exact List.suffix_cons 34 rest
  | case6 => cases h

section Pieces

variable {signed : Bool} {text rest : Bytes} {word : Option Bytes} {separator : UInt8}

theorem piece_of_wordLexeme (h : wordLexeme text = .piece word separator rest) :
    isSeparator separator = true ∧ rest <:+ text ∧ rest.length < text.length := by
  unfold wordLexeme at h
  split at h
  · cases h
  · rename_i found behind hbehind
    have hsuffix : found :: behind <:+ text := by
      rw [← hbehind]
      exact (List.dropWhile_suffix isSpace).trans (List.dropWhile_suffix isToken)
    have hlength := hsuffix.length_le
    rw [List.length_cons] at hlength
    split at h
    · rename_i hseparator
      obtain ⟨-, rfl, rfl⟩ := Lexeme.piece.inj h
      exact ⟨hseparator, (List.suffix_cons found behind).trans hsuffix, hlength⟩
    · cases h

theorem piece_of_quotedLexeme (h : quotedLexeme signed text = .piece word separator rest) :
    isSeparator separator = true ∧ rest <:+ text ∧ rest.length < text.length := by
  unfold quotedLexeme at h
  split at h
  · cases h
  · rename_i found behind hquoted
    have hsuffix := quoted_suffix hquoted
    have hlength := hsuffix.length_le
    have hspaces := (List.dropWhile_suffix isSpace (l := behind)).length_le
    rw [List.length_cons] at hlength
    split at h
    · rename_i hseparator
      obtain ⟨-, rfl, rfl⟩ := Lexeme.piece.inj h
      refine ⟨hseparator, ?_, by omega⟩
      exact (List.dropWhile_suffix isSpace).trans ((List.suffix_cons found behind).trans hsuffix)
    · cases h
  · cases h
  · cases h

/-- A piece ends with a separator, and what is behind it is shorter. -/
theorem piece_of_lexeme (h : lexeme signed text = .piece word separator rest) :
    isSeparator separator = true ∧ rest <:+ text ∧ rest.length < text.length := by
  unfold lexeme at h
  split at h
  · cases h
  · rename_i char behind hbehind
    have hsuffix : char :: behind <:+ text := by
      rw [← hbehind]
      exact List.dropWhile_suffix isSpace
    have hlength := hsuffix.length_le
    rw [List.length_cons] at hlength
    split_ifs at h
    · obtain ⟨hseparator, hrest, hless⟩ := piece_of_quotedLexeme h
      exact ⟨hseparator, hrest.trans ((List.suffix_cons char behind).trans hsuffix), by omega⟩
    · obtain ⟨hseparator, hrest, hless⟩ := piece_of_wordLexeme h
      rw [List.length_cons] at hless
      exact ⟨hseparator, hrest.trans hsuffix, by omega⟩

end Pieces

/-! ## The tokenizer on memory -/

section Memory

variable {memory : Bytes} {ptr : ℕ} {test : UInt8 → Bool} {text more : Bytes}

theorem span_append (htest : test 0 = false) (text more : Bytes) :
    span test (text ++ 0 :: more) = some (text.takeWhile test).length := by
  induction text with
  | nil => simp [span, htest]
  | cons char text ih =>
    rw [List.cons_append, span]
    cases hchar : test char with
    | true => simp [ih, hchar]
    | false => simp [hchar]

theorem scan_eq (htest : test 0 = false) (hmemory : memory.drop ptr = text ++ 0 :: more) :
    scan test memory ptr = .ok (ptr + (text.takeWhile test).length) := by
  rw [scan, hmemory, span_append htest]

theorem drop_scan (hmemory : memory.drop ptr = text ++ 0 :: more) :
    memory.drop (ptr + (text.takeWhile test).length) = text.dropWhile test ++ 0 :: more := by
  have hsplit : text ++ 0 :: more = text.takeWhile test ++ (text.dropWhile test ++ 0 :: more) := by
    rw [← List.append_assoc, List.takeWhile_append_dropWhile]
  rw [← List.drop_drop, hmemory, hsplit, List.drop_left]

theorem lt_length_of_drop {char : UInt8} {rest : Bytes} (hmemory : memory.drop ptr = char :: rest) :
    ptr + rest.length + 1 = memory.length := by
  have hlength := congrArg List.length hmemory
  rw [List.length_drop, List.length_cons] at hlength
  omega

end Memory

section Strings

variable {signed : Bool}

/-- One turn of the loop over a quoted string. -/
theorem stringLoop_step (signed : Bool) {memory : Bytes} {o ptr : ℕ} {char : UInt8} {rest : Bytes}
    (hmemory : memory.drop ptr = char :: rest) (hlt : o < memory.length) :
    stringLoop signed memory o (rest.length + 1) =
      if char = 0 then .ok none
      else if isQuotable signed char then stringLoop signed (memory.set o char) (o + 1) rest.length
      else if char = 92 then
        match rest with
        | [] => .error .readPast
        | escaped :: rest =>
          if escaped = 0 then .ok none
          else stringLoop signed (memory.set o escaped) (o + 1) rest.length
      else if char = 34 then .ok (some (memory.set o 0, ptr))
      else .ok none := by
  have hlength := lt_length_of_drop hmemory
  have hptr : memory.length - (rest.length + 1) = ptr := by omega
  rw [stringLoop.eq_def]
  simp only [hptr, load_of_drop hmemory, store_of_lt hlt, ok_bind]
  split_ifs
  · rfl
  · rfl
  · cases rest with
    | nil => rfl
    | cons escaped rest =>
      have hnext : memory.drop (ptr + 1) = escaped :: rest := by
        rw [← List.drop_drop, hmemory, List.drop_one, List.tail_cons]
      simp only [List.length_cons, load_of_drop hnext, ok_bind]
      rfl
  · rfl
  · rfl

/-- The loop over a quoted string has come to this end. What was written stays in front of what was read;
if there was no escape, the zero byte was written over the closing quote. -/
def StringEnds (memory : Bytes) (o ptr : ℕ) (run : Run (Option (Bytes × ℕ))) : Option (Bool × Bytes) → Prop
  | none => run = .ok none
  | some (escaped, rest) => ∃ after close, run = .ok (some (after, close)) ∧
      after.length = memory.length ∧ after.take o = memory.take o ∧ ptr ≤ close ∧
      after.drop close = (if escaped then 34 else 0) :: (rest ++ [0])

theorem StringEnds.written {memory : Bytes} {o ptr further : ℕ} {char : UInt8}
    {run : Run (Option (Bytes × ℕ))} {found : Option (Bool × Bytes)}
    (h : StringEnds (memory.set o char) (o + 1) further run found) (hle : ptr ≤ further) :
    StringEnds memory o ptr run found := by
  cases found with
  | none => exact h
  | some found =>
    obtain ⟨after, close, hrun, hlength, htake, hclose, hdrop⟩ := h
    refine ⟨after, close, hrun, ?_, ?_, hle.trans hclose, hdrop⟩
    · rw [hlength, List.length_set]
    · have hless := congrArg (List.take o) htake
      rw [List.take_take, List.take_take, Nat.min_eq_left (Nat.le_succ o),
        List.take_set_of_le (Nat.le_refl o)] at hless
      exact hless

theorem stringLoop_ends {text : Bytes} {escaped : Bool} {memory : Bytes} {o ptr : ℕ}
    (hmemory : memory.drop ptr = text ++ [0]) (hclean : 0 ∉ text) (hle : o ≤ ptr)
    (hescaped : escaped = decide (o < ptr)) :
    StringEnds memory o ptr (stringLoop signed memory o (text.length + 1))
      (quoted signed escaped text) := by
  fun_induction quoted signed escaped text generalizing memory o ptr with
  | case1 escaped =>
    have hlength := lt_length_of_drop hmemory
    exact (stringLoop_step signed hmemory (by omega)).trans (if_pos rfl)
  | case2 escaped char rest hquotable ih =>
    have hlength := lt_length_of_drop hmemory
    have hchar : char ≠ 0 := fun heq ↦ hclean (heq ▸ List.mem_cons_self)
    have hrest : 0 ∉ rest := fun hmem ↦ hclean (List.mem_cons_of_mem char hmem)
    have hnext : (memory.set o char).drop (ptr + 1) = rest ++ [0] := by
      rw [List.drop_set_of_lt (by omega), ← List.drop_drop, hmemory]
      rfl
    have hstep := stringLoop_step signed hmemory (by omega : o < memory.length)
    rw [if_neg hchar, if_pos hquotable] at hstep
    simp only [List.append_eq, List.length_append, List.length_singleton] at hstep
    rw [List.length_cons, hstep]
    exact (ih hnext hrest (by omega) (by simp [hescaped])).written (Nat.le_succ ptr)
  | case3 escaped hquotable =>
    have hlength := lt_length_of_drop hmemory
    have hstep := stringLoop_step signed hmemory (by omega : o < memory.length)
    rw [if_neg (by decide), if_neg hquotable, if_pos rfl] at hstep
    exact hstep
  | case4 escaped char rest hquotable ih =>
    have hlength := lt_length_of_drop hmemory
    have hchar : char ≠ 0 := fun heq ↦ hclean (by simp [heq])
    have hrest : 0 ∉ rest := fun hmem ↦ hclean (by simp [hmem])
    have hnext : (memory.set o char).drop (ptr + 2) = rest ++ [0] := by
      rw [List.drop_set_of_lt (by omega), ← List.drop_drop, hmemory]
      rfl
    have hstep := stringLoop_step signed hmemory (by omega : o < memory.length)
    rw [if_neg (by decide), if_neg hquotable, if_pos rfl] at hstep
    simp only [List.append_eq, List.cons_append, List.length_cons, List.length_append,
      List.length_nil, if_neg hchar] at hstep
    rw [List.length_cons, List.length_cons, hstep]
    have hends : StringEnds (memory.set o char) (o + 1) (ptr + 2) _ _ :=
      ih hnext hrest (by omega) (by simp; omega)
    exact hends.written (Nat.le_add_right ptr 2)
  | case5 escaped rest hquotable hescape =>
    have hlength := lt_length_of_drop hmemory
    have hstep := stringLoop_step signed hmemory (by omega : o < memory.length)
    rw [if_neg (by decide), if_neg hquotable, if_neg hescape, if_pos rfl] at hstep
    simp only [List.append_eq, List.length_append, List.length_singleton] at hstep
    refine ⟨memory.set o 0, ptr, hstep, List.length_set, List.take_set_of_le (Nat.le_refl o),
      Nat.le_refl ptr, ?_⟩
    rw [hescaped]
    rcases Nat.lt_or_eq_of_le hle with hlt | heq
    · rw [List.drop_set_of_lt hlt, hmemory, if_pos (decide_eq_true hlt)]
      rfl
    · rw [heq, List.drop_set, if_neg (Nat.lt_irrefl ptr), hmemory, Nat.sub_self]
      simp
  | case6 escaped char rest hquotable hescape hquote =>
    have hlength := lt_length_of_drop hmemory
    have hchar : char ≠ 0 := fun heq ↦ hclean (heq ▸ List.mem_cons_self)
    have hstep := stringLoop_step signed hmemory (by omega : o < memory.length)
    rw [if_neg hchar, if_neg hquotable, if_neg hescape, if_neg hquote] at hstep
    simp only [List.append_eq, List.length_append, List.length_singleton] at hstep
    exact hstep

end Strings

section Tokens

variable {signed : Bool} {memory : Bytes} {next : ℕ}

/-- The string at a pointer. -/
def textAt (memory : Bytes) (ptr : ℕ) : Bytes := (memory.drop ptr).takeWhile (· ≠ 0)

/-- The string at a pointer ends before this place. -/
def EndsBefore (memory : Bytes) (bound ptr : ℕ) : Prop :=
  ∃ last, ptr ≤ last ∧ last < bound ∧ memory[last]? = some 0

/-- The tokenizer has left what is in front of it alone, and the token it points to is the word. -/
structure Written (memory : Bytes) (next bound : ℕ) (word : Option Bytes) (token : Token) : Prop where
  length : token.memory.length = memory.length
  kept : token.memory.take next = memory.take next
  word : token.out.map (textAt token.memory) = word
  ends : ∀ ptr ∈ token.out, EndsBefore token.memory bound ptr

/-- A call of the tokenizer agrees with what the text begins with. -/
def Tokenizes (memory : Bytes) (next : ℕ) (run : Run Token) : Lexeme → Prop
  | .illegal => ∃ token, run = .ok token ∧ token.result = .ilseq
  | .quotedEnd => run = .error .readPast
  | .last word => ∃ token, run = .ok token ∧ token.result = .eos ∧
      Written memory next memory.length word token
  | .piece word separator rest => ∃ token, run = .ok token ∧
      token.result = tokenizerResFromChar separator ∧ token.memory.drop token.next = rest ++ [0] ∧
      next ≤ token.next ∧ Written memory next token.next word token

theorem EndsBefore.congr {after : Bytes} {bound further ptr : ℕ}
    (hkept : after.take bound = memory.take bound) (hle : bound ≤ further)
    (hends : EndsBefore memory bound ptr) : EndsBefore after further ptr := by
  obtain ⟨last, hptr, hlast, hzero⟩ := hends
  refine ⟨last, hptr, by omega, ?_⟩
  rw [← List.getElem?_take_of_lt hlast, hkept, List.getElem?_take_of_lt hlast, hzero]

theorem EndsBefore.textAt_take {bound ptr : ℕ} (hends : EndsBefore memory bound ptr) :
    textAt (memory.take bound) ptr = textAt memory ptr := by
  obtain ⟨last, hptr, hlast, hzero⟩ := hends
  have hlt := (List.getElem?_eq_some_iff.mp hzero).1
  have hmem : 0 ∈ (memory.take bound).drop ptr := by
    apply List.mem_of_getElem? (i := last - ptr)
    rw [List.getElem?_drop, Nat.add_sub_cancel' hptr, List.getElem?_take_of_lt hlast, hzero]
  have hsplit : memory.drop ptr = (memory.take bound).drop ptr ++ memory.drop bound := by
    conv_lhs => rw [← List.take_append_drop bound memory]
    apply List.drop_append_of_le_length
    rw [List.length_take]
    omega
  have hshort : (((memory.take bound).drop ptr).takeWhile (· ≠ 0)).length ≠
      ((memory.take bound).drop ptr).length := by
    intro hall
    have hsame := (List.takeWhile_prefix fun byte : UInt8 ↦ decide (byte ≠ 0)).eq_of_length hall
    rw [← hsame] at hmem
    simpa using List.mem_takeWhile_imp hmem
  rw [textAt, textAt, hsplit, List.takeWhile_append, if_neg hshort]

theorem textAt_congr {after : Bytes} {bound ptr : ℕ} (hkept : after.take bound = memory.take bound)
    (hends : EndsBefore memory bound ptr) : textAt after ptr = textAt memory ptr := by
  have hafter := hends.congr hkept (Nat.le_refl bound)
  rw [← hafter.textAt_take, hkept, hends.textAt_take]

/-- The string at a pointer can be read if it ends in memory. -/
theorem loadString_eq {bound ptr : ℕ} (hends : EndsBefore memory bound ptr) :
    loadString memory ptr = .ok (textAt memory ptr) := by
  obtain ⟨last, hptr, -, hzero⟩ := hends
  have hmem : 0 ∈ memory.drop ptr := by
    apply List.mem_of_getElem? (i := last - ptr)
    rw [List.getElem?_drop, Nat.add_sub_cancel' hptr, hzero]
  have hsplit := List.takeWhile_append_dropWhile (p := fun byte ↦ decide (byte ≠ 0)) (l := memory.drop ptr)
  cases hrest : (memory.drop ptr).dropWhile (fun byte ↦ decide (byte ≠ 0)) with
  | nil =>
    have hall := List.dropWhile_eq_nil_iff.mp hrest 0 hmem
    exact absurd hall (by decide)
  | cons char more =>
    have hchar := List.head?_dropWhile_not (fun byte ↦ decide (byte ≠ 0)) (memory.drop ptr)
    rw [hrest] at hchar hsplit
    simp only [List.head?_cons, decide_not, Bool.not_eq_false', decide_eq_true_eq] at hchar
    subst hchar
    have hscan : scan (· ≠ 0) memory ptr = .ok (ptr + (textAt memory ptr).length) := by
      have hfound : scan (fun byte ↦ decide (byte ≠ 0)) memory ptr = _ :=
        scan_eq (by decide) hsplit.symm
      rwa [List.takeWhile_idem] at hfound
    have htake : (memory.drop ptr).take (textAt memory ptr).length = textAt memory ptr := by
      conv_lhs => rw [← hsplit]
      exact List.take_left
    rw [loadString, hscan, ok_bind, Nat.add_sub_cancel_left, htake]
    rfl

theorem isSeparator_iff {char : UInt8} :
    isSeparator char = true ↔ char = 61 ∨ char = 44 ∨ char = 59 := by
  simp only [isSeparator, Bool.or_eq_true, decide_eq_true_eq]
  tauto

theorem tokenizerResFromChar_of_not {char : UInt8} (hzero : char ≠ 0)
    (hseparator : ¬ isSeparator char = true) : tokenizerResFromChar char = .ilseq := by
  rw [isSeparator_iff, not_or, not_or] at hseparator
  rw [tokenizerResFromChar, if_neg hzero, if_neg hseparator.2.1, if_neg hseparator.1,
    if_neg hseparator.2.2]

theorem tokenizerResFromChar_of_separator {char : UInt8} (hseparator : isSeparator char = true) :
    tokenizerResFromChar char ≠ .ilseq ∧ tokenizerResFromChar char ≠ .eos := by
  rcases isSeparator_iff.mp hseparator with rfl | rfl | rfl
  · decide
  · decide
  · decide

theorem textAt_set {ptr : ℕ} {word tail : Bytes} {char : UInt8}
    (hmemory : memory.drop ptr = word ++ char :: tail) (hclean : 0 ∉ word) :
    textAt (memory.set (ptr + word.length) 0) ptr = word := by
  have hset : (memory.set (ptr + word.length) 0).drop ptr = word ++ 0 :: tail := by
    rw [List.drop_set, if_neg (by omega), hmemory, Nat.add_sub_cancel_left,
      List.set_append_right _ _ (Nat.le_refl _), Nat.sub_self, List.set_cons_zero]
  rw [textAt, hset]
  exact Lib.CString.takeWhile_ne_append_cons hclean tail

theorem zero_not_mem_of_suffix {text rest : Bytes} (hclean : 0 ∉ text) (h : rest <:+ text) : 0 ∉ rest :=
  fun hmem ↦ hclean (h.subset hmem)

theorem tokenizes_quoted {start : ℕ} {text : Bytes} (hmemory : memory.drop start = 34 :: text ++ [0])
    (hclean : 0 ∉ text) (hle : next ≤ start) :
    Tokenizes memory next (tokenizerStr signed memory start) (quotedLexeme signed text) := by
  have hlength := lt_length_of_drop hmemory
  have hnext : memory.drop (start + 1) = text ++ [0] := by
    rw [← List.drop_drop, hmemory]
    rfl
  have hahead : memory.length - (start + 1) = text.length + 1 := by
    have hrest := congrArg List.length hnext
    rw [List.length_drop, List.length_append, List.length_singleton] at hrest
    exact hrest
  have hscan : scan isSpace memory start = .ok start := scan_eq (by decide) hmemory
  have hends : StringEnds memory (start + 1) (start + 1)
      (stringLoop signed memory (start + 1) (text.length + 1)) (quoted signed false text) :=
    stringLoop_ends hnext hclean (Nat.le_refl (start + 1)) (by simp)
  -- Everything up to the result of the loop over the string.
  unfold tokenizerStr
  simp only [hscan, ok_bind, load_of_drop hmemory, ne_eq, not_true, if_false, hahead]
  unfold quotedLexeme
  cases hquoted : quoted signed false text with
  | none =>
    rw [hquoted] at hends
    rw [show stringLoop signed memory (start + 1) (text.length + 1) = .ok none from hends]
    exact ⟨_, rfl, rfl⟩
  | some found =>
    obtain ⟨escaped, rest⟩ := found
    rw [hquoted] at hends
    obtain ⟨after, close, hrun, hafter, htake, hclose, hdrop⟩ := hends
    have hrest := zero_not_mem_of_suffix hclean (quoted_suffix hquoted)
    simp only [hrun, ok_bind, load_of_drop hdrop]
    cases escaped with
    | false => exact ⟨_, rfl, rfl⟩
    | true =>
      have hbehind : after.drop (close + 1) = rest ++ [0] := by
        rw [← List.drop_drop, hdrop]
        rfl
      simp only [if_true]
      cases rest with
      | nil =>
        have hover : scan isSpace after (close + 2) = .error .readPast := by
          have hnil : after.drop (close + 2) = [] := by
            rw [show close + 2 = close + 1 + 1 from rfl, ← List.drop_drop, hbehind]
            rfl
          rw [scan, hnil, span]
        simp only [hover, error_bind]
        exact rfl
      | cons separator rest =>
        have hfurther : after.drop (close + 2) = rest ++ [0] := by
          rw [show close + 2 = close + 1 + 1 from rfl, ← List.drop_drop, hbehind]
          rfl
        have hzero : separator ≠ 0 := fun heq ↦ hrest (heq ▸ List.mem_cons_self)
        have hspaces : scan isSpace after (close + 2) =
            .ok (close + 2 + (rest.takeWhile isSpace).length) := scan_eq (by decide) hfurther
        simp only [hspaces, ok_bind, load_of_drop hbehind]
        by_cases hseparator : isSeparator separator = true
        · rw [if_pos hseparator]
          refine ⟨_, rfl, rfl, drop_scan hfurther, ?_, hafter, ?_, rfl, nofun⟩
          · dsimp only
            omega
          · have hless := congrArg (List.take next) htake
            rw [List.take_take, List.take_take, Nat.min_eq_left (by omega)] at hless
            exact hless
        · rw [if_neg hseparator]
          exact ⟨_, rfl, tokenizerResFromChar_of_not hzero hseparator⟩

/-- A word has been cut off by a zero byte behind it. -/
theorem written_word {start bound : ℕ} {word tail : Bytes} {char : UInt8} {result : TokenizerResult}
    {further : ℕ} (hmemory : memory.drop start = word ++ char :: tail) (hclean : 0 ∉ word)
    (hle : next ≤ start) (hbound : start + word.length < bound) :
    Written memory next bound (some word)
      ⟨result, some start, memory.set (start + word.length) 0, further⟩ := by
  have hlength := congrArg List.length hmemory
  rw [List.length_drop, List.length_append, List.length_cons] at hlength
  refine ⟨List.length_set, List.take_set_of_le (by omega), ?_, ?_⟩
  · exact congrArg some (textAt_set hmemory hclean)
  · intro ptr hptr
    rw [← Option.some.inj hptr]
    refine ⟨start + word.length, Nat.le_add_right start _, hbound, ?_⟩
    exact List.getElem?_set_self (by omega)

/-- A word ends with the string, with spaces and the string, or with a separator. -/
theorem tokenizes_word {start : ℕ} {text : Bytes} (hmemory : memory.drop start = text ++ [0])
    (hclean : 0 ∉ text) (hle : next ≤ start) :
    Tokenizes memory next (tokenizerWord memory start) (wordLexeme text) := by
  have hword : scan isToken memory start = .ok (start + (text.takeWhile isToken).length) :=
    scan_eq (by decide) hmemory
  have hbehind : memory.drop (start + (text.takeWhile isToken).length) =
      text.dropWhile isToken ++ [0] := drop_scan hmemory
  have hsplit : memory.drop start = text.takeWhile isToken ++ (text.dropWhile isToken ++ [0]) := by
    rw [← List.append_assoc, List.takeWhile_append_dropWhile]
    exact hmemory
  have hclear : 0 ∉ text.takeWhile isToken :=
    fun hmem ↦ hclean ((List.takeWhile_prefix isToken).subset hmem)
  have hrest := zero_not_mem_of_suffix hclean (List.dropWhile_suffix isToken)
  unfold tokenizerWord wordLexeme
  generalize text.takeWhile isToken = word at hword hbehind hsplit hclear ⊢
  simp only [hword, ok_bind]
  cases hended : text.dropWhile isToken with
  | nil =>
    rw [hended] at hbehind hsplit
    have hlength := lt_length_of_drop hbehind
    have hlt : start + word.length < memory.length := by omega
    simp only [load_of_drop hbehind, ok_bind, if_true, store_of_lt hlt, List.dropWhile_nil]
    exact ⟨_, rfl, rfl, written_word hsplit hclear hle hlt⟩
  | cons char tail =>
    rw [hended] at hbehind hsplit hrest
    have hlength := lt_length_of_drop hbehind
    have hlt : start + word.length < memory.length := by omega
    have hchar : char ≠ 0 := fun heq ↦ hrest (heq ▸ List.mem_cons_self)
    have hspaces : scan isSpace memory (start + word.length) =
        .ok (start + word.length + ((char :: tail).takeWhile isSpace).length) :=
      scan_eq (by decide) hbehind
    have hfurther : memory.drop (start + word.length + ((char :: tail).takeWhile isSpace).length) =
        (char :: tail).dropWhile isSpace ++ [0] := drop_scan hbehind
    have hfar := Nat.le_add_right (start + word.length) ((char :: tail).takeWhile isSpace).length
    have hlast := zero_not_mem_of_suffix hrest (List.dropWhile_suffix isSpace)
    generalize start + word.length + ((char :: tail).takeWhile isSpace).length = behind at *
    simp only [load_of_drop hbehind, ok_bind, if_neg hchar, hspaces, store_of_lt hlt]
    cases hsecond : (char :: tail).dropWhile isSpace with
    | nil =>
      rw [hsecond] at hfurther
      simp only [load_of_drop hfurther, ok_bind]
      exact ⟨_, rfl, rfl, written_word hsplit hclear hle hlt⟩
    | cons separator rest =>
      rw [hsecond] at hfurther hlast
      have hzero : separator ≠ 0 := fun heq ↦ hlast (heq ▸ List.mem_cons_self)
      have hpassed : start + word.length < behind + 1 := by omega
      simp only [load_of_drop hfurther, ok_bind, ne_eq, hzero, not_false_eq_true, if_true]
      by_cases hlegal : isSeparator separator = true
      · rw [if_pos hlegal]
        refine ⟨_, rfl, rfl, ?_, ?_, written_word hsplit hclear hle hpassed⟩
        · dsimp only
          rw [List.drop_set_of_lt hpassed, ← List.drop_drop, hfurther]
          rfl
        · dsimp only
          omega
      · rw [if_neg hlegal]
        exact ⟨_, rfl, tokenizerResFromChar_of_not hzero hlegal⟩

/-- The tokenizer agrees with what the text begins with. -/
theorem tokenizes {text : Bytes} (hmemory : memory.drop next = text ++ [0]) (hclean : 0 ∉ text) :
    Tokenizes memory next (tokenizer signed memory next) (lexeme signed text) := by
  have hscan : scan isSpace memory next = .ok (next + (text.takeWhile isSpace).length) :=
    scan_eq (by decide) hmemory
  have hstart : memory.drop (next + (text.takeWhile isSpace).length) = text.dropWhile isSpace ++ [0] :=
    drop_scan hmemory
  have hle : next ≤ next + (text.takeWhile isSpace).length := Nat.le_add_right next _
  have hsuffix := zero_not_mem_of_suffix hclean (List.dropWhile_suffix isSpace)
  unfold lexeme tokenizer
  cases hfirst : text.dropWhile isSpace with
  | nil =>
    rw [hfirst] at hstart
    simp only [hscan, ok_bind, load_of_drop hstart]
    exact ⟨_, rfl, rfl, rfl, rfl, rfl, nofun⟩
  | cons char rest =>
    rw [hfirst] at hstart hsuffix
    have hchar : char ≠ 0 := fun heq ↦ hsuffix (heq ▸ List.mem_cons_self)
    simp only [hscan, ok_bind, load_of_drop hstart, if_neg hchar, ← isSeparator_iff]
    split_ifs with hseparator hquote
    · exact ⟨_, rfl, rfl⟩
    · subst hquote
      exact tokenizes_quoted hstart (fun hmem ↦ hsuffix (List.mem_cons_of_mem 34 hmem)) hle
    · exact tokenizes_word hstart hsuffix hle

end Tokens

end Icecast.Util.AcceptTokens
