import Icecast.Format.Comments
import Icecast.Lib.CString
import Icecast.Lib.Checked

/-!
# Selecting an answer by the Accept header

`util_http_select_best` reads the header of a client as a list of items, each with its parameters, and
picks one of several content types by their quality. The header is copied and taken apart in place:
`util_parse_http_cn` calls the tokenizer until the string ends, and keeps pointers to the tokens in an
array of keys and values. A second array says where in the first the items begin.

Here memory is explicit. The copy is a list of bytes with its terminating zero, a pointer into it is an
offset, and both arrays have the length that was allocated for them. An access outside of them, or
through a null pointer, is a fault.
-/

namespace Icecast.Util.AcceptParser

open Lib.CString Lib.Checked
open Format.Comments (Bytes bytes toLower)

/-! ## Memory -/

inductive Fault where
  | readPast
  | writePast
  | kvOutOfRange
  | indexOutOfRange
  | nullDereference
  deriving DecidableEq, Repr

abbrev Run := Except Fault

/-- The number of bytes that pass the test, if memory does not end with them. -/
def span (test : UInt8 → Bool) : Bytes → Option ℕ
  | [] => none
  | char :: rest => if test char then (span test rest).map (· + 1) else some 0

/-- A pointer is moved on as long as the byte it points to passes the test. -/
def scan (test : UInt8 → Bool) (memory : Bytes) (ptr : ℕ) : Run ℕ :=
  match span test (memory.drop ptr) with
  | some n => .ok (ptr + n)
  | none => .error .readPast

/-- The string at a pointer. -/
def loadString (memory : Bytes) (ptr : ℕ) : Run Bytes := do
  let last ← scan (· ≠ 0) memory ptr
  return (memory.drop ptr).take (last - ptr)

/-! ## The tokenizer -/

inductive TokenizerResult where
  | comma
  | eq
  | semicolon
  | ilseq
  | eos
  deriving DecidableEq, Repr

def isSpace (char : UInt8) : Bool := char = 32

def isToken (char : UInt8) : Bool :=
  97 ≤ char && char ≤ 122 || 65 ≤ char && char ≤ 90 || 48 ≤ char && char ≤ 57 ||
    char ∈ bytes "!#$%&'*+-.^_|~/"

/-- The bytes that stand for themselves in a quoted string. Where `char` is signed, none of the upper
half is among them. -/
def isQuotable (signed : Bool) (char : UInt8) : Bool :=
  char = 9 || char = 32 || char = 33 || 35 ≤ char && char ≤ 91 || 93 ≤ char && char ≤ 126 ||
    !signed && 128 ≤ char

def tokenizerResFromChar (char : UInt8) : TokenizerResult :=
  if char = 0 then .eos
  else if char = 44 then .comma
  else if char = 61 then .eq
  else if char = 59 then .semicolon
  else .ilseq

/-- A call of the tokenizer: what it returns, the token it points to, the memory it leaves and where it
goes on. -/
structure Token where
  result : TokenizerResult
  out : Option ℕ
  memory : Bytes
  next : ℕ
  deriving DecidableEq

/-- The loop over a quoted string, with so many bytes of memory ahead. The string is moved to the front
over its escapes. There is no result if it is illegal, otherwise the memory and the place of the closing
quote. -/
def stringLoop (signed : Bool) (memory : Bytes) (o : ℕ) : ℕ → Run (Option (Bytes × ℕ))
  | 0 => .error .readPast
  | ahead + 1 => do
    let ptr := memory.length - (ahead + 1)
    let char ← load .readPast memory ptr
    if char = 0 then return none
    else if isQuotable signed char then
      stringLoop signed (← store .writePast memory o char) (o + 1) ahead
    else if char = 92 then
      match ahead with
      | 0 => .error .readPast
      | ahead + 1 =>
        let char ← load .readPast memory (ptr + 1)
        if char = 0 then return none
        else stringLoop signed (← store .writePast memory o char) (o + 1) ahead
    else if char = 34 then return some (← store .writePast memory o 0, ptr)
    else return none

/-- The token is not passed on to the caller. -/
def tokenizerStr (signed : Bool) (memory : Bytes) (next : ℕ) : Run Token := do
  let start ← scan isSpace memory next
  if (← load .readPast memory start) ≠ 34 then return ⟨.ilseq, none, memory, start⟩
  match ← stringLoop signed memory (start + 1) (memory.length - (start + 1)) with
  | none => return ⟨.ilseq, none, memory, start⟩
  | some (memory, ptr) =>
    -- The zero byte has replaced the quote if there was no escape.
    if (← load .readPast memory ptr) = 34 then
      let next ← scan isSpace memory (ptr + 2)
      return ⟨tokenizerResFromChar (← load .readPast memory (ptr + 1)), none, memory, next⟩
    else return ⟨.ilseq, none, memory, start⟩

/-- A token is ended by a zero byte, in the place of the byte behind it. -/
def tokenizerWord (memory : Bytes) (start : ℕ) : Run Token := do
  let ptr ← scan isToken memory start
  if (← load .readPast memory ptr) = 0 then
    return ⟨.eos, some start, ← store .writePast memory ptr 0, ptr⟩
  else
    let behind ← scan isSpace memory ptr
    let char ← load .readPast memory behind
    let next := if char ≠ 0 then behind + 1 else behind
    return ⟨tokenizerResFromChar char, some start, ← store .writePast memory ptr 0, next⟩

def tokenizer (signed : Bool) (memory : Bytes) (next : ℕ) : Run Token := do
  let start ← scan isSpace memory next
  let char ← load .readPast memory start
  if char = 61 ∨ char = 44 ∨ char = 59 then return ⟨.ilseq, none, memory, start⟩
  else if char = 0 then return ⟨.eos, none, memory, start⟩
  else if char = 34 then tokenizerStr signed memory start
  else tokenizerWord memory start

theorem le_of_scan {memory : Bytes} {ptr last : ℕ} {test : UInt8 → Bool}
    (h : scan test memory ptr = .ok last) : ptr ≤ last := by
  unfold scan at h
  split at h
  · rw [← Except.ok.inj h]
    exact Nat.le_add_right ptr _
  · cases h

section Advances

variable {signed : Bool} {memory : Bytes} {next : ℕ}

/-- The closing quote is in what was ahead. -/
theorem stringLoop_bounds {o ahead : ℕ} {after : Bytes} {ptr : ℕ} (hle : ahead ≤ memory.length)
    (h : stringLoop signed memory o ahead = .ok (some (after, ptr))) :
    after.length = memory.length ∧ memory.length - ahead ≤ ptr ∧ ptr < memory.length := by
  induction ahead using Nat.strongRecOn generalizing memory o with
  | _ ahead ih =>
    cases ahead with
    | zero => cases h
    | succ ahead =>
      unfold stringLoop at h
      simp only [bind_eq_ok] at h
      obtain ⟨char, hload, h⟩ := h
      have hlt := lt_of_load hload
      split at h
      · cases h
      · split at h
        · obtain ⟨written, hstore, h⟩ := bind_eq_ok.mp h
          have hlength := length_of_store hstore
          have hrest := ih ahead (Nat.lt_succ_self ahead) (by omega) h
          omega
        · split at h
          · cases ahead with
            | zero => cases h
            | succ ahead =>
              simp only [bind_eq_ok] at h
              obtain ⟨escaped, -, h⟩ := h
              split at h
              · cases h
              · obtain ⟨written, hstore, h⟩ := bind_eq_ok.mp h
                have hlength := length_of_store hstore
                have hrest := ih ahead (by omega) (by omega) h
                omega
          · split at h
            · obtain ⟨written, hstore, h⟩ := bind_eq_ok.mp h
              have hlength := length_of_store hstore
              obtain ⟨rfl, rfl⟩ := Prod.mk.inj (Option.some.inj (Except.ok.inj h))
              omega
            · cases h

theorem tokenizerStr_advances {token : Token} (h : tokenizerStr signed memory next = .ok token)
    (hlegal : token.result ≠ .ilseq) :
    next < token.next ∧ next < memory.length ∧ token.memory.length = memory.length := by
  simp only [tokenizerStr, bind_eq_ok] at h
  obtain ⟨start, hstart, char, hload, h⟩ := h
  have hle := le_of_scan hstart
  have hlt := lt_of_load hload
  split at h
  · rw [← Except.ok.inj h] at hlegal
    exact absurd rfl hlegal
  · obtain ⟨string, hstring, h⟩ := bind_eq_ok.mp h
    cases string with
    | none =>
      rw [← Except.ok.inj h] at hlegal
      exact absurd rfl hlegal
    | some found =>
      obtain ⟨after, ptr⟩ := found
      have hbounds := stringLoop_bounds (by omega) hstring
      simp only [bind_eq_ok] at h
      obtain ⟨quote, -, h⟩ := h
      split at h
      · simp only [bind_eq_ok] at h
        obtain ⟨behind, hbehind, separator, -, h⟩ := h
        have hmoved := le_of_scan hbehind
        rw [← Except.ok.inj h]
        exact ⟨by dsimp only; omega, by omega, hbounds.1⟩
      · rw [← Except.ok.inj h] at hlegal
        exact absurd rfl hlegal

theorem tokenizerWord_advances {token : Token} (h : tokenizerWord memory next = .ok token)
    (hmore : token.result ≠ .eos) :
    next < token.next ∧ token.memory.length = memory.length := by
  simp only [tokenizerWord, bind_eq_ok] at h
  obtain ⟨ptr, hptr, ended, -, h⟩ := h
  have hmoved := le_of_scan hptr
  split at h
  · obtain ⟨after, -, h⟩ := bind_eq_ok.mp h
    rw [← Except.ok.inj h] at hmore
    exact absurd rfl hmore
  · simp only [bind_eq_ok] at h
    obtain ⟨behind, hbehind, separator, -, after, hstore, h⟩ := h
    have hfurther := le_of_scan hbehind
    have hlength := length_of_store hstore
    rw [← Except.ok.inj h] at hmore ⊢
    have hne : separator ≠ 0 := by
      intro heq
      rw [heq] at hmore
      exact hmore rfl
    dsimp only
    rw [if_pos hne]
    omega

/-- A token that is not the last one takes the pointer on, so the loop over the tokens ends. -/
theorem tokenizer_advances {token : Token} (h : tokenizer signed memory next = .ok token)
    (hlegal : token.result ≠ .ilseq) (hmore : token.result ≠ .eos) :
    next < token.next ∧ next < memory.length ∧ token.memory.length = memory.length := by
  simp only [tokenizer, bind_eq_ok] at h
  obtain ⟨start, hstart, char, hload, h⟩ := h
  have hle := le_of_scan hstart
  have hlt := lt_of_load hload
  split at h
  · rw [← Except.ok.inj h] at hlegal
    exact absurd rfl hlegal
  · split at h
    · rw [← Except.ok.inj h] at hmore
      exact absurd rfl hmore
    · split at h
      · have hstring := tokenizerStr_advances h hlegal
        omega
      · have hword := tokenizerWord_advances h hmore
        omega

end Advances

/-! ## Keys and values -/

structure Kv (α : Type*) where
  key : Option α
  value : Option α
  deriving DecidableEq

/-- A token becomes the key, or else the value. There is no room for a third one. -/
def Kv.place {α : Type*} (entry : Kv α) (out : Option α) : Option (Kv α) :=
  match entry.key, entry.value with
  | none, value => some ⟨out, value⟩
  | some key, none => some ⟨some key, out⟩
  | some _, some _ => none

/-- The two arrays, with how much of them is used. -/
structure Kva where
  kv : List (Kv ℕ)
  kvlen : ℕ
  index : List ℕ
  indexlen : ℕ
  deriving DecidableEq

def httpCnIndexIncrement : ℕ := 8
def httpCnKvIncrement : ℕ := 8

def resizeArray {α : Type*} (zero : α) (array : List α) (revlen inc : ℕ) : List α :=
  if revlen < array.length then array else array ++ List.replicate inc zero

def loadKv (kv : List (Kv ℕ)) (i : ℕ) : Run (Kv ℕ) := load .kvOutOfRange kv i

def loadIndex (index : List ℕ) (i : ℕ) : Run ℕ := load .indexOutOfRange index i

/-- At minimum there is one token. -/
def Kva.start : Kva where
  kv := List.replicate httpCnKvIncrement ⟨none, none⟩
  kvlen := 1
  index := List.replicate httpCnIndexIncrement 0
  indexlen := 1

def Kva.resize (kva : Kva) : Kva :=
  { kva with
    kv := resizeArray ⟨none, none⟩ kva.kv kva.kvlen httpCnKvIncrement
    index := resizeArray 0 kva.index kva.indexlen httpCnIndexIncrement }

/-- The token goes into the current entry. -/
def Kva.fill (kva : Kva) (out : Option ℕ) : Run (Option Kva) := do
  let entry ← loadKv kva.kv (kva.kvlen - 1)
  match entry.place out with
  | some entry => return some { kva with kv := kva.kv.set (kva.kvlen - 1) entry }
  | none => return none

/-- What follows on a token that is not the last one. -/
def Kva.separate (kva : Kva) : TokenizerResult → Run Kva
  | .comma =>
    if kva.indexlen < kva.index.length then
      .ok
        { kva with
          index := kva.index.set kva.indexlen kva.kvlen
          indexlen := kva.indexlen + 1
          kvlen := kva.kvlen + 1 }
    else .error .indexOutOfRange
  | .semicolon => .ok { kva with kvlen := kva.kvlen + 1 }
  | _ => .ok kva

/-- The loop over the tokens. There is no result if the header is not accepted, otherwise the memory that
the pointers are into, and the arrays. -/
def parseLoop (signed : Bool) (memory : Bytes) (next : ℕ) (kva : Kva) : Run (Option (Bytes × Kva)) :=
  match _ : tokenizer signed memory next with
  | .error fault => .error fault
  | .ok token =>
    if _ : token.result = .ilseq then .ok none
    else
      match kva.resize.fill token.out with
      | .error fault => .error fault
      | .ok none => .ok none
      | .ok (some kva) =>
        if _ : token.result = .eos then .ok (some (token.memory, kva))
        else
          match kva.separate token.result with
          | .error fault => .error fault
          | .ok kva => parseLoop signed token.memory token.next kva
termination_by memory.length - next
decreasing_by
  have hadvances := tokenizer_advances ‹_› ‹_› ‹_›
  omega

/-- The string is given without its terminating zero. -/
def utilParseHttpCn (signed : Bool) (cnstr : Option Bytes) : Run (Option (Bytes × Kva)) :=
  match cnstr with
  | none => .ok none
  | some [] => .ok none
  | some text => parseLoop signed (text ++ [0]) 0 Kva.start

/-! ## The selection -/

/-- A decimal number in thousandths. A second point makes the next digit tenths again. -/
def parseQLoop (ret mul : ℤ) : Bytes → ℤ
  | [] => ret
  | char :: rest =>
    if 48 ≤ char ∧ char ≤ 57 then parseQLoop (ret + mul * (char.toNat - 48)) (mul / 10) rest
    else if char = 46 then parseQLoop ret 100 rest
    else -1

def parseQ (memory : Bytes) (str : Option ℕ) : Run ℤ :=
  match str with
  | none => .error .nullDereference
  | some ptr => do return parseQLoop 0 1000 (← loadString memory ptr)

def strcasecmp (first second : Bytes) : Bool := first.map toLower = second.map toLower

/-- The loop over the entries from `i` to `last`, so many of them. -/
def findQLoop (memory : Bytes) (kva : Kva) (i : ℕ) : ℕ → Run ℤ
  | 0 => .ok 1000
  | count + 1 => do
    let entry ← loadKv kva.kv i
    match entry.key with
    | none => findQLoop memory kva (i + 1) count
    | some key =>
      if strcasecmp (← loadString memory key) (bytes "q") then parseQ memory entry.value
      else findQLoop memory kva (i + 1) count

def findQInIndex (memory : Bytes) (kva : Kva) (idx : ℕ) : Run ℤ := do
  let i := (← loadIndex kva.index idx) + 1
  let last ←
    if kva.indexlen ≤ idx + 1 then pure (kva.kvlen - 1)
    else (· - 1) <$> loadIndex kva.index (idx + 1)
  findQLoop memory kva i (last + 1 - i)

/-- A content type to choose, its group, and the best qualities for each. -/
structure Arg where
  comp : Bytes
  group : Bytes
  bestComp : ℤ
  bestGroup : ℤ
  deriving DecidableEq

def fillArg (str : Bytes) : Arg where
  comp := str
  group :=
    match strstr (bytes "/") str with
    | some delm => str.take delm ++ bytes "/*"
    | none => str
  bestComp := 0
  bestGroup := 0

def selectBestMaxArgs : ℕ := 8

/-- One item is looked at for one content type. -/
def selectItem (memory : Bytes) (kva : Kva) (state : ℤ × Arg) (i : ℕ) : Run (ℤ × Arg) := do
  let entry ← loadKv kva.kv (← loadIndex kva.index i)
  match entry.key with
  | none => return state
  | some ptr =>
    let q ← findQInIndex memory kva i
    let p ← loadString memory ptr
    let arg := state.2
    return (max state.1 q,
      { arg with
        bestComp := if strcasecmp p arg.comp then max arg.bestComp q else arg.bestComp
        bestGroup := if strcasecmp p arg.group then max arg.bestGroup q else arg.bestGroup })

/-- All items are looked at for each content type. -/
def selectLoop (memory : Bytes) (kva : Kva) (bestQ : ℤ) : List Arg → Run (ℤ × List Arg)
  | [] => .ok (bestQ, [])
  | arg :: args => do
    let (bestQ, arg) ← (List.range kva.indexlen).foldlM (selectItem memory kva) (bestQ, arg)
    let (bestQ, args) ← selectLoop memory kva bestQ args
    return (bestQ, arg :: args)

def pickBest (bestQ : ℤ) (args : List Arg) : Option Bytes :=
  match args.find? fun arg ↦ arg.bestComp = bestQ with
  | some arg => some arg.comp
  | none => (args.find? fun arg ↦ arg.bestGroup = bestQ).map (·.comp)

def utilHttpSelectBest (signed : Bool) (input : Option Bytes) (first : Bytes) (others : List Bytes) :
    Run Bytes := do
  let args := ((first :: others).take selectBestMaxArgs).map fillArg
  match ← utilParseHttpCn signed input with
  | none => return first
  | some (memory, kva) =>
    let (bestQ, args) ← selectLoop memory kva 0 args
    return (pickBest bestQ args).getD first

end Icecast.Util.AcceptParser
