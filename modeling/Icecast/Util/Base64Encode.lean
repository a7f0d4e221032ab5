import Icecast.Lib.CString
import Icecast.Lib.Checked
import Icecast.Lib.MachineInt
import Icecast.Util.Base64

/-!
# The base64 encoder on memory

`util_base64_encode` (`util.c`) reads two bytes for the first two digits of a group, also where the
group has one byte only. What follows the data then gets into the second digit. The two callers in
`slave.c` put a name and a password together in a buffer and encode all of it, with the zero byte that
ends the text.
-/

namespace Icecast.Util.Base64Encode

open Format.Comments (Bytes CString bytes bytes_ofList zero_not_mem_replicate)
open Lib.CString Lib.Checked Lib.MachineInt
open Base64 (base64table digit encodedBytes_encode)

/-- What goes wrong: a byte behind the end of the memory is read, or one is written behind the end of
what has been allocated, or so much cannot be allocated, or a number is not an `int`. -/
inductive Fault where
  | outOfRange
  | overflow
  | noMemory
  | intOverflow
  deriving DecidableEq

abbrev Run := Except Fault

/-! ## The encoder -/

/-- Characters are written behind those that are there. -/
def put (capacity : ℕ) (out chars : Bytes) : Run Bytes :=
  if out.length + chars.length ≤ capacity then .ok (out ++ chars) else .error .overflow

def encodeLoop (capacity : ℕ) (memory : Bytes) (data : ℕ) (out : Bytes) : ℕ → Run Bytes
  | 0 => .ok out
  | 1 => do
    let a ← load .outOfRange memory data
    let b ← load .outOfRange memory (data + 1)
    put capacity out [digit ((a &&& 0xFC) >>> 2), digit (((a &&& 0x03) <<< 4) ||| ((b &&& 0xF0) >>> 4)),
      61, 61]
  | 2 => do
    let a ← load .outOfRange memory data
    let b ← load .outOfRange memory (data + 1)
    put capacity out [digit ((a &&& 0xFC) >>> 2), digit (((a &&& 0x03) <<< 4) ||| ((b &&& 0xF0) >>> 4)),
      digit ((b &&& 0x0F) <<< 2), 61]
  | len + 3 => do
    let a ← load .outOfRange memory data
    let b ← load .outOfRange memory (data + 1)
    let c ← load .outOfRange memory (data + 2)
    let out ← put capacity out
      [digit ((a &&& 0xFC) >>> 2), digit (((a &&& 0x03) <<< 4) ||| ((b &&& 0xF0) >>> 4)),
        digit (((b &&& 0x0F) <<< 2) ||| ((c &&& 0xC0) >>> 6)), digit (c &&& 0x3F)]
    encodeLoop capacity memory (data + 3) out len

/-- The size of the allocation is computed in `size_t`. -/
def allocated (len : ℕ) : ℕ := len * 4 % 2 ^ 64 / 3 + 4

/-- The text that is returned, without its zero byte. -/
def utilBase64Encode (memory : Bytes) (len : ℕ) : Run Bytes := do
  let out ← encodeLoop (allocated len) memory 0 [] len
  let _ ← put (allocated len) out [0]
  return out

/-! ## The decoder -/

def decodeLoop (capacity : ℕ) (out : Bytes) : Bytes → Run (Option Bytes)
  | [] => return some out
  | a :: b :: c :: d :: rest => do
    let out ← put capacity out (Base64.decodeQuadruple a b c d)
    decodeLoop capacity out rest
  | _ => return none

/-- The null pointer or what is in the buffer. The length is an `int`. -/
def utilBase64Decode (data : Bytes) : Run (Option Bytes) :=
  let len := toSigned 32 data.length
  if ¬ (-2 ^ 31 ≤ len * 3 ∧ len * 3 < 2 ^ 31) then .error .intOverflow
  else if (len * 3).tdiv 4 + 5 < 0 then .error .noMemory
  else do
    let capacity := ((len * 3).tdiv 4 + 5).toNat
    match ← decodeLoop capacity [] (data.take len.toNat) with
    | none => return none
    | some out => return some (← put capacity out [0])

/-! ## Callers of the encoder -/

/-- What `snprintf` stores. -/
def stored (size : ℕ) (text : Bytes) : Bytes := if size = 0 then [] else text.take (size - 1) ++ [0]

def userpass (username password : Bytes) : Bytes := username ++ 58 :: password

def authorization (encoded : Bytes) : Bytes := bytes "Authorization: Basic " ++ encoded ++ [13, 10]

/-- The header of `open_relay_connection`, where all lengths are of the type `unsigned`. -/
def openRelayConnection (username password : Bytes) : Run Bytes := do
  let len := (username.length + password.length + 2) % 2 ^ 32
  let escAuthorisation ← utilBase64Encode (stored len (userpass username password)) len
  let size := (escAuthorisation.length + 24) % 2 ^ 32
  if size = 0 then .error .outOfRange else return (authorization escAuthorisation).take (size - 1)

/-- The header of `update_from_master`, where the length is an `int`. -/
def updateFromMaster (username password : Bytes) : Run Bytes := do
  let len := toSigned 32 (username.length + password.length + 2)
  if len < 0 then .error .noMemory
  else
    let data ← utilBase64Encode (stored len.toNat (userpass username password)) len.toNat
    return authorization data

/-! ## What it is for -/

/-- The encoding of RFC 4648: the digits, and padding up to a multiple of four. -/
def rfc4648 (data : Bytes) : Bytes :=
  (Lib.Base64.sextets (data.map UInt8.toNat)).map (base64table.getD · 0) ++
    List.replicate ((3 - data.length % 3) % 3) 61

/-- A buffer with the bytes that are to be encoded at its start. -/
structure Buffer where
  memory : Bytes
  len : ℕ
  len_le : len ≤ memory.length
  len_lt : len < 2 ^ 64

def Buffer.data (buffer : Buffer) : Bytes := buffer.memory.take buffer.len

/-- The encoder returns the encoding of these bytes, and stays within its allocation. -/
def Standard (buffer : Buffer) : Prop :=
  utilBase64Encode buffer.memory buffer.len = .ok (rfc4648 buffer.data)

/-- A text that is encoded and decoded comes back, and both functions stay within their allocations. -/
def RoundTrip (text : CString) : Prop :=
  ∃ encoded contents, utilBase64Encode (text.1 ++ [0]) text.1.length = .ok encoded ∧
    utilBase64Decode encoded = .ok (some contents) ∧ contents.takeWhile (· ≠ 0) = text.1

/-- The header has the encoding of the name, a colon and the password. -/
def Authorizes (header : Bytes → Bytes → Run Bytes) (username password : CString) : Prop :=
  header username password = .ok (authorization (rfc4648 (userpass username password)))

/-! ## The digits -/

/-- The digits of the data, with the byte that follows it. -/
def encodeBefore (next : UInt8) : Bytes → Bytes
  | [] => []
  | a :: b :: c :: rest =>
    digit ((a &&& 0xFC) >>> 2) :: digit (((a &&& 0x03) <<< 4) ||| ((b &&& 0xF0) >>> 4)) ::
      digit (((b &&& 0x0F) <<< 2) ||| ((c &&& 0xC0) >>> 6)) :: digit (c &&& 0x3F) ::
      encodeBefore next rest
  | [a, b] =>
    [digit ((a &&& 0xFC) >>> 2), digit (((a &&& 0x03) <<< 4) ||| ((b &&& 0xF0) >>> 4)),
      digit ((b &&& 0x0F) <<< 2), 61]
  | [a] =>
    [digit ((a &&& 0xFC) >>> 2), digit (((a &&& 0x03) <<< 4) ||| ((next &&& 0xF0) >>> 4)), 61, 61]

theorem encodeBefore_zero (data : Bytes) : encodeBefore 0 data = Base64.utilBase64Encode data := by
  induction data using encodeBefore.induct with
  | case1 => rfl
  | case2 a b c rest ih => rw [encodeBefore, ih, Base64.utilBase64Encode]
  | case3 a b => rfl
  | case4 a => rfl

theorem rfc4648_eq (data : Bytes) : rfc4648 data = Base64.utilBase64Encode data := by
  induction data using encodeBefore.induct with
  | case1 => rfl
  | case2 a b c rest ih =>
    have hpadding : (3 - (a :: b :: c :: rest).length % 3) % 3 = (3 - rest.length % 3) % 3 := by
      simp only [List.length_cons]
      omega
    rw [Base64.utilBase64Encode, ← ih, rfc4648, hpadding, rfc4648]
    simp only [digit, (Base64.upper_bits a).1, Base64.second_position, Base64.third_position,
      (Base64.lower_bits c).2.2]
    rfl
  | case3 a b =>
    rw [Base64.utilBase64Encode, rfc4648]
    simp only [digit, (Base64.upper_bits a).1, Base64.second_position, Base64.last_third_position]
    rfl
  | case4 a =>
    rw [Base64.utilBase64Encode, rfc4648]
    simp only [digit, (Base64.upper_bits a).1, Base64.last_second_position]
    rfl

theorem length_encodeBefore (next : UInt8) (data : Bytes) :
    (encodeBefore next data).length = 4 * ((data.length + 2) / 3) := by
  induction data using encodeBefore.induct with
  | case1 => rfl
  | case2 a b c rest ih =>
    simp only [encodeBefore, List.length_cons, ih]
    omega
  | case3 a b => simp [encodeBefore]
  | case4 a => simp [encodeBefore]

theorem getD_injective {m n : ℕ} (hm : m < 64) (hn : n < 64)
    (h : base64table.getD m 0 = base64table.getD n 0) : m = n := by
  calc m = base64table.idxOf (base64table.getD m 0) := (Base64.digit_mem m hm).2.symm
    _ = base64table.idxOf (base64table.getD n 0) := by rw [h]
    _ = n := (Base64.digit_mem n hn).2

/-- The byte behind the data counts if the last group has one byte, and then only its upper half. -/
theorem encodeBefore_eq_iff (next : UInt8) (data : Bytes) :
    encodeBefore next data = encodeBefore 0 data ↔ data.length % 3 ≠ 1 ∨ next.toNat < 16 := by
  induction data using encodeBefore.induct with
  | case1 => simp [encodeBefore]
  | case2 a b c rest ih =>
    have hlength : (a :: b :: c :: rest).length % 3 = rest.length % 3 := by
      simp only [List.length_cons]
      omega
    rw [encodeBefore, encodeBefore, hlength, ← ih]
    simp
  | case3 a b => simp [encodeBefore]
  | case4 a =>
    have ha := a.toNat_lt
    have hnext := next.toNat_lt
    have hlength : ¬ [a].length % 3 ≠ 1 := by simp
    simp only [encodeBefore, List.cons.injEq, true_and, and_true, hlength, false_or, digit,
      Base64.second_position]
    constructor
    · intro hdigit
      have hsame := getD_injective (by omega) (by simp; omega) hdigit
      simp at hsame
      omega
    · intro hsmall
      rw [Nat.div_eq_of_lt hsmall]
      rfl

/-! ## The encoder on memory -/

section Loop

variable {capacity data : ℕ} {memory out chars : Bytes}

theorem put_of_le (hle : out.length + chars.length ≤ capacity) :
    put capacity out chars = .ok (out ++ chars) := if_pos hle

theorem le_of_put {after : Bytes} (h : put capacity out chars = .ok after) :
    out.length + chars.length ≤ capacity ∧ after = out ++ chars := by
  unfold put at h
  split at h
  · rename_i hle
    exact ⟨hle, (Except.ok.inj h).symm⟩
  · cases h

/-- The bytes at some place of the memory. -/
theorem load_of_drop_append {bytes rest : Bytes} (hmemory : memory.drop data = bytes ++ rest) (i : ℕ)
    {byte : UInt8} (hbyte : (bytes ++ rest)[i]? = some byte) :
    load Fault.outOfRange memory (data + i) = .ok byte := by
  apply load_of_getElem?
  rw [← List.getElem?_drop, hmemory, hbyte]

theorem encodeLoop_of_drop {bytes rest : Bytes} (hmemory : memory.drop data = bytes ++ rest)
    (hrest : bytes.length % 3 ≠ 1 ∨ rest ≠ [])
    (hroom : out.length + 4 * ((bytes.length + 2) / 3) ≤ capacity) :
    encodeLoop capacity memory data out bytes.length = .ok (out ++ encodeBefore (rest.headD 0) bytes) := by
  induction bytes using encodeBefore.induct generalizing data out with
  | case1 => simp [encodeLoop, encodeBefore]
  | case2 a b c bytes ih =>
    have ha := load_of_drop_append hmemory 0 rfl
    have hb := load_of_drop_append hmemory 1 rfl
    have hc := load_of_drop_append hmemory 2 rfl
    have hlength : (a :: b :: c :: bytes).length = bytes.length + 3 := rfl
    have hbehind : memory.drop (data + 3) = bytes ++ rest := by
      rw [← List.drop_drop, hmemory]
      rfl
    have hfour : (bytes.length + 3 + 2) / 3 = (bytes.length + 2) / 3 + 1 := by omega
    rw [hlength] at hrest
    rw [hlength, hfour] at hroom
    rw [Nat.add_zero] at ha
    rw [hlength, encodeLoop, ha, ok_bind, hb, ok_bind, hc, ok_bind, put_of_le (by simp; omega), ok_bind,
      ih hbehind (hrest.imp_left (by omega)) (by simp; omega), encodeBefore, List.append_assoc]
    rfl
  | case3 a b =>
    have ha := load_of_drop_append hmemory 0 rfl
    have hb := load_of_drop_append hmemory 1 rfl
    rw [Nat.add_zero] at ha
    have hlength : [a, b].length = 2 := rfl
    rw [hlength, encodeLoop, ha, ok_bind, hb, ok_bind, put_of_le (by simpa using hroom), encodeBefore]
  | case4 a =>
    have hlength : [a].length = 1 := rfl
    have hnonempty : rest ≠ [] := hrest.resolve_left (by simp)
    obtain ⟨next, rest, rfl⟩ := List.exists_cons_of_ne_nil hnonempty
    have ha := load_of_drop_append hmemory 0 rfl
    have hb := load_of_drop_append hmemory 1 rfl
    rw [Nat.add_zero] at ha
    rw [hlength, encodeLoop, ha, ok_bind, hb, ok_bind, put_of_le (by simpa using hroom), encodeBefore,
      List.headD_cons]

/-- Nothing follows the data, and its last group has one byte. -/
theorem encodeLoop_behind_end {bytes : Bytes} (hmemory : memory.drop data = bytes)
    (hlength : bytes.length % 3 = 1) :
    ∃ fault, encodeLoop capacity memory data out bytes.length = .error fault := by
  induction bytes using encodeBefore.induct generalizing data out with
  | case1 => simp at hlength
  | case2 a b c bytes ih =>
    have hsize : (a :: b :: c :: bytes).length = bytes.length + 3 := rfl
    rw [← List.append_nil (a :: b :: c :: bytes)] at hmemory
    have ha := load_of_drop_append hmemory 0 rfl
    have hb := load_of_drop_append hmemory 1 rfl
    have hc := load_of_drop_append hmemory 2 rfl
    have hbehind : memory.drop (data + 3) = bytes := by
      rw [← List.drop_drop, hmemory]
      simp
    rw [Nat.add_zero] at ha
    rw [hsize] at hlength
    rw [hsize, encodeLoop, ha, ok_bind, hb, ok_bind, hc, ok_bind]
    unfold put
    split
    · exact ih hbehind (by omega)
    · exact ⟨.overflow, rfl⟩
  | case3 a b => simp at hlength
  | case4 a =>
    have hsize : [a].length = 1 := rfl
    have ha : load Fault.outOfRange memory data = .ok a := load_of_drop hmemory
    have hend : memory[data + 1]? = none := by
      rw [← List.getElem?_drop, hmemory]
      rfl
    refine ⟨.outOfRange, ?_⟩
    rw [hsize, encodeLoop, ha, ok_bind, load, hend]
    rfl

/-- The number of characters depends on the length only. -/
theorem length_encodeLoop {len : ℕ} {text : Bytes}
    (h : encodeLoop capacity memory data out len = .ok text) :
    text.length = out.length + 4 * ((len + 2) / 3) := by
  induction len using Nat.strongRecOn generalizing data out with
  | ind len ih =>
    match len, ih, h with
    | 0, ih, h =>
      rw [← Except.ok.inj h]
      rfl
    | 1, ih, h =>
      obtain ⟨a, -, h⟩ := bind_eq_ok.mp h
      obtain ⟨b, -, h⟩ := bind_eq_ok.mp h
      rw [(le_of_put h).2, List.length_append]
      rfl
    | 2, ih, h =>
      obtain ⟨a, -, h⟩ := bind_eq_ok.mp h
      obtain ⟨b, -, h⟩ := bind_eq_ok.mp h
      rw [(le_of_put h).2, List.length_append]
      rfl
    | len + 3, ih, h =>
      obtain ⟨a, -, h⟩ := bind_eq_ok.mp h
      obtain ⟨b, -, h⟩ := bind_eq_ok.mp h
      obtain ⟨c, -, h⟩ := bind_eq_ok.mp h
      obtain ⟨after, hput, h⟩ := bind_eq_ok.mp h
      have hlength := ih len (by omega) h
      rw [(le_of_put hput).2, List.length_append] at hlength
      simp only [List.length_cons, List.length_nil] at hlength
      omega

end Loop

/-- Every length whose fourfold is a `size_t` gets enough room, and no other. -/
theorem room_iff {len : ℕ} (hlen : len < 2 ^ 64) :
    4 * ((len + 2) / 3) + 1 ≤ allocated len ↔ len < 2 ^ 62 := by
  unfold allocated
  omega

theorem utilBase64Encode_of_room {memory : Bytes} {len : ℕ} (hle : len ≤ memory.length)
    (hroom : 4 * ((len + 2) / 3) + 1 ≤ allocated len) (hnext : len % 3 ≠ 1 ∨ len < memory.length) :
    utilBase64Encode memory len = .ok (encodeBefore ((memory.drop len).headD 0) (memory.take len)) := by
  have hlength : (memory.take len).length = len := List.length_take_of_le hle
  have hparts : memory.drop 0 = memory.take len ++ memory.drop len := (List.take_append_drop len memory).symm
  have hrest : (memory.take len).length % 3 ≠ 1 ∨ memory.drop len ≠ [] := by
    rw [hlength, ne_eq (memory.drop len), List.drop_eq_nil_iff, Nat.not_le]
    exact hnext
  have hloop := @encodeLoop_of_drop (allocated len) 0 memory [] _ _ hparts hrest (by
    rw [hlength, List.length_nil]
    omega)
  rw [hlength, List.nil_append] at hloop
  rw [utilBase64Encode, hloop, ok_bind, put_of_le, ok_bind]
  · rfl
  · rw [length_encodeBefore, hlength]
    exact hroom

theorem standard_iff (buffer : Buffer) : Standard buffer ↔
    buffer.len < 2 ^ 62 ∧
      (buffer.len % 3 ≠ 1 ∨ ∃ next, buffer.memory[buffer.len]? = some next ∧ next.toNat < 16) := by
  have hlength : buffer.data.length = buffer.len := List.length_take_of_le buffer.len_le
  have hresult : rfc4648 buffer.data = encodeBefore 0 buffer.data := by
    rw [rfc4648_eq, encodeBefore_zero]
  unfold Standard
  rw [hresult, ← room_iff buffer.len_lt]
  by_cases hroom : 4 * ((buffer.len + 2) / 3) + 1 ≤ allocated buffer.len
  · by_cases hnext : buffer.len % 3 ≠ 1 ∨ buffer.len < buffer.memory.length
    · have hencoded := utilBase64Encode_of_room buffer.len_le hroom hnext
      have hdata := encodeBefore_eq_iff ((buffer.memory.drop buffer.len).headD 0) buffer.data
      rw [hlength] at hdata
      rw [hencoded, Except.ok.injEq]
      refine hdata.trans ?_
      rw [and_iff_right hroom]
      by_cases hgroup : buffer.len % 3 ≠ 1
      · simp [hgroup]
      · have hlt := hnext.resolve_left hgroup
        simp [hgroup, hlt, List.headD_eq_head?_getD, List.head?_drop]
    · rw [not_or, not_not, Nat.not_lt] at hnext
      have hall : buffer.memory.length = buffer.len := Nat.le_antisymm hnext.2 buffer.len_le
      obtain ⟨fault, hfault⟩ := @encodeLoop_behind_end (allocated buffer.len) 0 buffer.memory []
        buffer.memory rfl (hall ▸ hnext.1)
      rw [hall] at hfault
      have hend : buffer.memory[buffer.len]? = none := List.getElem?_eq_none hnext.2
      rw [utilBase64Encode, hfault, error_bind]
      simp [hnext.1, hend]
  · refine iff_of_false ?_ fun hboth ↦ hroom hboth.1
    intro hencoded
    obtain ⟨out, hloop, hencoded⟩ := bind_eq_ok.mp hencoded
    obtain ⟨text, hput, -⟩ := bind_eq_ok.mp hencoded
    have hout := length_encodeLoop hloop
    have hfits := (le_of_put hput).1
    simp only [List.length_nil, List.length_cons, Nat.zero_add] at hout hfits
    omega

/-! ## The headers -/

theorem mem_rfc4648 {data : Bytes} {char : UInt8} (h : char ∈ rfc4648 data) :
    char ∈ base64table ∨ char = 61 := by
  rw [rfc4648, List.mem_append] at h
  rcases h with hdigit | hpad
  · obtain ⟨position, hposition, rfl⟩ := List.mem_map.mp hdigit
    have hlt := Lib.Base64.sextets_lt (Base64.toNat_lt_of_mem data) position hposition
    exact Or.inl (Base64.digit_mem position hlt).1
  · exact Or.inr (List.eq_of_mem_replicate hpad)

theorem cr_not_mem (data : Bytes) : 13 ∉ rfc4648 data := by
  intro hmem
  have htable : (13 : UInt8) ∉ base64table := by
    rw [base64table, bytes_ofList]
    decide
  rcases mem_rfc4648 hmem with hdigit | hpad
  · exact htable hdigit
  · exact absurd hpad (by decide)

theorem rfc4648_injective {first second : Bytes} (h : rfc4648 first = rfc4648 second) :
    first = second := by
  rw [rfc4648_eq, rfc4648_eq] at h
  calc first = Base64.encodedBytes (Base64.utilBase64Encode first) := (encodedBytes_encode first).2.symm
    _ = Base64.encodedBytes (Base64.utilBase64Encode second) := by rw [h]
    _ = second := (encodedBytes_encode second).2

theorem length_stored {size : ℕ} {text : Bytes} (hle : size ≤ text.length + 1) :
    (stored size text).length = size := by
  unfold stored
  split
  · rename_i hzero
    rw [hzero, List.length_nil]
  · rw [List.length_append, List.length_take, List.length_singleton]
    omega

theorem length_userpass (username password : Bytes) :
    (userpass username password).length = username.length + password.length + 1 := by
  rw [userpass, List.length_append, List.length_cons, Nat.add_assoc]

theorem utilBase64Encode_all {memory : Bytes} (hlt : memory.length < 2 ^ 62)
    (hgroup : memory.length % 3 ≠ 1) : utilBase64Encode memory memory.length = .ok (rfc4648 memory) := by
  have hroom := (room_iff (by omega)).mpr hlt
  rw [utilBase64Encode_of_room le_rfl hroom (Or.inl hgroup), List.take_length, List.drop_length,
    List.headD_nil, encodeBefore_zero, rfc4648_eq]

/-- All of the memory is encoded, if anything is. -/
theorem eq_of_utilBase64Encode_all {memory encoded : Bytes} (hlt : memory.length < 2 ^ 62)
    (h : utilBase64Encode memory memory.length = .ok encoded) : encoded = rfc4648 memory := by
  by_cases hgroup : memory.length % 3 ≠ 1
  · rw [utilBase64Encode_all hlt hgroup] at h
    exact (Except.ok.inj h).symm
  · obtain ⟨fault, hfault⟩ := @encodeLoop_behind_end (allocated memory.length) 0 memory [] memory rfl
      (not_not.mp hgroup)
    rw [utilBase64Encode, hfault] at h
    cases h

/-- The buffer has the zero byte in it, or nothing at all. -/
theorem stored_ne {size : ℕ} {text : Bytes} (hnul : 0 ∉ text) (hne : text ≠ []) : stored size text ≠ text := by
  unfold stored
  split
  · exact hne.symm
  · intro hsame
    exact hnul (hsame ▸ List.mem_append_right _ List.mem_cons_self)

theorem userpass_text (username password : CString) : 0 ∉ userpass username password := by
  intro hmem
  rcases List.mem_append.mp hmem with husername | hrest
  · exact username.2 husername
  · rcases List.mem_cons.mp hrest with hcolon | hpassword
    · exact absurd hcolon (by decide)
    · exact password.2 hpassword

theorem userpass_ne_nil (username password : Bytes) : userpass username password ≠ [] := by
  simp [userpass]

/-- The line ends behind the encoding, so that it cannot begin with that of something else. -/
theorem eq_of_prefix_authorization {first second : Bytes}
    (h : authorization (rfc4648 first) <+: authorization (rfc4648 second)) : first = second := by
  apply rfc4648_injective
  rw [authorization, authorization, List.append_assoc, List.append_assoc, List.prefix_append_right_inj] at h
  have hbegin (data rest : Bytes) : (rfc4648 data ++ 13 :: rest).takeWhile (· ≠ 13) = rfc4648 data :=
    takeWhile_ne_append_cons (cr_not_mem data) rest
  obtain ⟨rest, hrest⟩ := h
  calc rfc4648 first = (rfc4648 first ++ 13 :: 10 :: rest).takeWhile (· ≠ 13) := (hbegin first _).symm
    _ = (rfc4648 second ++ 13 :: [10]).takeWhile (· ≠ 13) := by
      rw [← hrest, List.append_assoc]
      rfl
    _ = rfc4648 second := hbegin second _

theorem not_authorizes_of_encoded {username password : CString} {len : ℕ} {encoded : Bytes}
    (hle : len ≤ username.1.length + password.1.length + 2) (hlt : len < 2 ^ 62)
    (h : utilBase64Encode (stored len (userpass username password)) len = .ok encoded) :
    ¬ authorization (rfc4648 (userpass username password)) <+: authorization encoded := by
  have hlength : (stored len (userpass username password)).length = len :=
    length_stored (by rw [length_userpass]; omega)
  have hencoded : encoded = rfc4648 (stored len (userpass username password)) :=
    eq_of_utilBase64Encode_all (by rw [hlength]; exact hlt) (by rw [hlength]; exact h)
  rw [hencoded]
  intro hbegin
  exact stored_ne (userpass_text username password) (userpass_ne_nil _ _)
    (eq_of_prefix_authorization hbegin).symm

theorem openRelayConnection_not_authorizes (username password : CString) :
    ¬ Authorizes openRelayConnection username password := by
  intro hheader
  obtain ⟨encoded, hencoded, hheader⟩ := bind_eq_ok.mp hheader
  have hle := Nat.mod_le (username.1.length + password.1.length + 2) (2 ^ 32)
  have hlt := Nat.mod_lt (username.1.length + password.1.length + 2) (by decide : 0 < 2 ^ 32)
  apply not_authorizes_of_encoded hle (by omega) hencoded
  dsimp only at hheader
  split at hheader
  · cases hheader
  · rw [← Except.ok.inj hheader]
    exact List.take_prefix _ _

theorem updateFromMaster_not_authorizes (username password : CString) :
    ¬ Authorizes updateFromMaster username password := by
  intro hheader
  unfold Authorizes updateFromMaster at hheader
  dsimp only at hheader
  split at hheader
  · cases hheader
  · rename_i hnonneg
    obtain ⟨encoded, hencoded, hheader⟩ := bind_eq_ok.mp hheader
    have hbounds : (toSigned 32 (username.1.length + password.1.length + 2)).toNat < 2 ^ 31 ∧
        (toSigned 32 (username.1.length + password.1.length + 2)).toNat ≤
          username.1.length + password.1.length + 2 := by
      rw [toSigned, Int.bmod_def] at hnonneg ⊢
      omega
    apply not_authorizes_of_encoded hbounds.2 (by omega) hencoded
    rw [← Except.ok.inj hheader]

theorem length_rfc4648 (data : Bytes) : (rfc4648 data).length = 4 * ((data.length + 2) / 3) := by
  rw [rfc4648_eq, ← encodeBefore_zero, length_encodeBefore]

theorem stored_userpass (username password : Bytes) :
    stored (username.length + password.length + 2) (userpass username password) =
      userpass username password ++ [0] := by
  have hlength := length_userpass username password
  rw [stored, if_neg (by omega), List.take_of_length_le (by omega)]

/-- What is sent if the lengths are usual ones and nothing is read behind the end of the buffer: the
zero byte belongs to the password. -/
theorem openRelayConnection_eq {username password : Bytes}
    (hlen : username.length + password.length < 2 ^ 31)
    (hgroup : (username.length + password.length + 2) % 3 ≠ 1) :
    openRelayConnection username password =
      .ok (authorization (rfc4648 (userpass username password ++ [0]))) := by
  have hlength : (userpass username password ++ [0]).length = username.length + password.length + 2 := by
    rw [List.length_append, length_userpass, List.length_singleton]
  have hencoded : utilBase64Encode (userpass username password ++ [0])
      (username.length + password.length + 2) = .ok (rfc4648 (userpass username password ++ [0])) := by
    rw [← hlength]
    exact utilBase64Encode_all (by omega) (by omega)
  have hsize := length_rfc4648 (userpass username password ++ [0])
  rw [hlength] at hsize
  have hline : (authorization (rfc4648 (userpass username password ++ [0]))).length =
      (rfc4648 (userpass username password ++ [0])).length + 23 := by
    rw [authorization, List.length_append, List.length_append, Nat.add_right_comm, Nat.add_comm _ 23]
    rw [bytes_ofList]
    rfl
  rw [openRelayConnection, Nat.mod_eq_of_lt (by omega), stored_userpass, hencoded, ok_bind]
  dsimp only
  rw [Nat.mod_eq_of_lt (by omega), if_neg (by omega), List.take_of_length_le (by omega)]
  rfl

example : openRelayConnection (bytes "source") (bytes "hackme") =
    .ok (authorization (bytes "c291cmNlOmhhY2ttZQA=")) := by
  rw [bytes_ofList, bytes_ofList, bytes_ofList]
  rfl

/-! ## Every buffer, every name and password -/

/-- The encoder is right for the buffers in which the byte behind a last group of one byte has no bits in
its upper half. Both headers are never right. -/
theorem base64_encode_standard_iff (buffer : Buffer) (username password : CString) :
    (Standard buffer ↔ buffer.len < 2 ^ 62 ∧
      (buffer.len % 3 ≠ 1 ∨ ∃ next, buffer.memory[buffer.len]? = some next ∧ next.toNat < 16)) ∧
    ¬ Authorizes openRelayConnection username password ∧ ¬ Authorizes updateFromMaster username password :=
  ⟨standard_iff buffer, openRelayConnection_not_authorizes username password,
    updateFromMaster_not_authorizes username password⟩

/-- A byte behind the data has changed the second digit. -/
theorem utilBase64Encode_followed : utilBase64Encode [97, 255] 1 = .ok (bytes "Yf==") ∧
    rfc4648 [97] = bytes "YQ==" := by
  simp only [utilBase64Encode, encodeLoop, rfc4648, digit, base64table]
  rw [bytes_ofList, bytes_ofList, bytes_ofList]
  exact ⟨rfl, rfl⟩

theorem base64_encode_not_standard :
    ¬ ((∀ buffer : Buffer, Standard buffer) ∧
      ∀ username password : CString, Authorizes openRelayConnection username password ∧
        Authorizes updateFromMaster username password) := by
  rintro ⟨hall, -⟩
  have hbuffer : utilBase64Encode [97, 255] 1 = .ok (rfc4648 [97]) :=
    hall ⟨[97, 255], 1, by decide, by decide⟩
  rw [utilBase64Encode_followed.1, utilBase64Encode_followed.2, bytes_ofList, bytes_ofList] at hbuffer
  exact absurd (Except.ok.inj hbuffer) (by decide)

/-! ## There and back -/

theorem length_decodeQuadruple_le (a b c d : UInt8) : (Base64.decodeQuadruple a b c d).length ≤ 3 := by
  unfold Base64.decodeQuadruple
  split <;> simp

/-- With enough room the decoder is the one that does not look at its buffer. -/
theorem decodeLoop_eq {capacity : ℕ} {out data : Bytes}
    (hroom : out.length + 3 * (data.length / 4) ≤ capacity) :
    decodeLoop capacity out data = .ok ((Base64.decodeLoop data).map (out ++ ·)) := by
  induction data using Base64.decodeLoop.induct generalizing out with
  | case1 =>
    rw [decodeLoop, Base64.decodeLoop, Option.map_some, List.append_nil]
    rfl
  | case2 a b c d rest ih =>
    have hquadruple := length_decodeQuadruple_le a b c d
    have hlength : (a :: b :: c :: d :: rest).length / 4 = rest.length / 4 + 1 := by
      simp only [List.length_cons]
      omega
    rw [hlength] at hroom
    rw [decodeLoop, put_of_le (by omega), ok_bind, ih (by rw [List.length_append]; omega),
      Base64.decodeLoop, Option.map_map]
    congr 2
    funext more
    exact List.append_assoc out _ more
  | case3 data hnil hquadruple =>
    rw [decodeLoop.eq_3 capacity out data hnil hquadruple, Base64.decodeLoop.eq_3 data hnil hquadruple]
    rfl

theorem length_decodeLoop {capacity : ℕ} {out data contents : Bytes}
    (h : decodeLoop capacity out data = .ok (some contents)) :
    contents.length ≤ out.length + 3 * (data.length / 4) := by
  induction data using Base64.decodeLoop.induct generalizing out with
  | case1 =>
    rw [← Option.some.inj (Except.ok.inj h)]
    exact Nat.le_add_right _ _
  | case2 a b c d rest ih =>
    have hquadruple := length_decodeQuadruple_le a b c d
    obtain ⟨after, hput, h⟩ := bind_eq_ok.mp h
    have hlength := ih h
    rw [(le_of_put hput).2, List.length_append] at hlength
    simp only [List.length_cons]
    omega
  | case3 data hnil hquadruple =>
    rw [decodeLoop.eq_3 capacity out data hnil hquadruple] at h
    cases h

theorem length_utilBase64Encode {memory text : Bytes} {len : ℕ}
    (h : utilBase64Encode memory len = .ok text) : text.length = 4 * ((len + 2) / 3) := by
  obtain ⟨out, hloop, h⟩ := bind_eq_ok.mp h
  obtain ⟨filled, -, h⟩ := bind_eq_ok.mp h
  rw [← Except.ok.inj h, length_encodeLoop hloop, List.length_nil, Nat.zero_add]

/-- The decoder takes the length for what it is only if that is an `int`, and gives no more than three
bytes for four characters. -/
theorem length_utilBase64Decode {data contents : Bytes}
    (h : utilBase64Decode data = .ok (some contents)) :
    toSigned 32 data.length * 3 < 2 ^ 31 ∧
      (contents.takeWhile (· ≠ 0)).length ≤ 3 * ((toSigned 32 data.length).toNat / 4) := by
  unfold utilBase64Decode at h
  dsimp only at h
  split at h
  · cases h
  · rename_i hint
    split at h
    · cases h
    · obtain ⟨result, hloop, h⟩ := bind_eq_ok.mp h
      cases result with
      | none => cases h
      | some out =>
        obtain ⟨filled, hput, h⟩ := bind_eq_ok.mp h
        have hcontents : contents = out ++ [0] := by
          rw [← (le_of_put hput).2]
          exact (Option.some.inj (Except.ok.inj h)).symm
        have hout := length_decodeLoop hloop
        rw [List.length_take, List.length_nil] at hout
        have htext : ((out ++ [0]).takeWhile (· ≠ 0)).length ≤ out.length := length_takeWhile_ne_le out []
        rw [hcontents]
        exact ⟨by omega, by omega⟩

theorem utilBase64Decode_of_lt {data : Bytes} (hlt : data.length * 3 < 2 ^ 31) {contents : Bytes}
    (h : Base64.decodeLoop data = some contents) : utilBase64Decode data = .ok (some (contents ++ [0])) := by
  have hlen : toSigned 32 data.length = data.length := toSigned_of_lt (by omega)
  have hdiv : ((data.length : ℤ) * 3).tdiv 4 = (data.length * 3 / 4 : ℕ) := by
    rw [Int.tdiv_eq_ediv_of_nonneg (by omega)]
    omega
  have hloop : decodeLoop (data.length * 3 / 4 + 5) [] data = .ok (some contents) := by
    rw [decodeLoop_eq (by rw [List.length_nil]; omega), h]
    rfl
  have hcontents := length_decodeLoop hloop
  rw [List.length_nil] at hcontents
  have hcapacity : ((data.length * 3 / 4 : ℕ) + 5 : ℤ).toNat = data.length * 3 / 4 + 5 := by omega
  unfold utilBase64Decode
  dsimp only
  rw [hlen, hdiv, if_neg (by omega), if_neg (by omega), hcapacity, Int.toNat_natCast, List.take_length,
    hloop, ok_bind]
  dsimp only
  rw [put_of_le (by rw [List.length_singleton]; omega), ok_bind]
  rfl

theorem utilBase64Encode_text (text : CString) (hlt : text.1.length < 2 ^ 62) :
    utilBase64Encode (text.1 ++ [0]) text.1.length = .ok (Base64.utilBase64Encode text.1) := by
  have hroom := (room_iff (by omega)).mpr hlt
  rw [utilBase64Encode_of_room (by simp) hroom (Or.inr (by simp)), List.take_left, List.drop_left,
    List.headD_cons, encodeBefore_zero]

/-- The text comes back if and only if the number of its digits, times three, is an `int`. -/
theorem base64_round_trip_iff (text : CString) : RoundTrip text ↔ text.1.length ≤ 536870910 := by
  constructor
  · rintro ⟨encoded, contents, hencoded, hdecoded, hcontents⟩
    have hlength := length_utilBase64Encode hencoded
    obtain ⟨hint, hle⟩ := length_utilBase64Decode hdecoded
    rw [hcontents] at hle
    rw [toSigned, Int.bmod_def] at hint hle
    omega
  · intro hle
    have hlength := length_rfc4648 text.1
    rw [rfc4648_eq] at hlength
    obtain ⟨nuls, hdecoded⟩ := Base64.decodeLoop_of_wellFormed (encodedBytes_encode text.1).1
    rw [(encodedBytes_encode text.1).2] at hdecoded
    refine ⟨_, _, utilBase64Encode_text text (by omega), utilBase64Decode_of_lt (by omega) hdecoded, ?_⟩
    rw [List.append_assoc, takeWhile_ne_append text.2]
    cases nuls with
    | zero => simp
    | succ nuls => simp [List.replicate_succ]

theorem length_le_of_roundTrip {text : CString} (h : RoundTrip text) :
    toSigned 32 (4 * ((text.1.length + 2) / 3)) * 3 < 2 ^ 31 := by
  obtain ⟨encoded, contents, hencoded, hdecoded, -⟩ := h
  rw [← length_utilBase64Encode hencoded]
  exact (length_utilBase64Decode hdecoded).1

def letters (n : ℕ) : CString := ⟨List.replicate n 97, zero_not_mem_replicate n⟩

theorem not_roundTrip_letters {n : ℕ} (hn : n = 536870911) : ¬ RoundTrip (letters n) := by
  intro hback
  have hint := length_le_of_roundTrip hback
  have hlength : (letters n).1.length = n := List.length_replicate
  rw [hlength, toSigned, Int.bmod_def] at hint
  omega

/-- Half a gigabyte of one letter. -/
theorem base64_round_trip_overflow : ¬ ∀ text : CString, RoundTrip text :=
  fun hall ↦ not_roundTrip_letters rfl (hall _)

end Icecast.Util.Base64Encode
