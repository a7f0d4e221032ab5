import Icecast.Format.Comments
import Icecast.Lib.Base64
import Icecast.Lib.CString
import Mathlib.Algebra.Group.Nat.Defs
import Mathlib.Data.List.GetD

/-!
# Base64

`util_base64_encode` and `util_base64_decode` (`util.c`), and how `auth_client_setup` (`auth.c`) takes the
name and password of a client from its Authorization header. The decoder gives up if the length is not a
multiple of four. A quadruple that has something else than a digit in it, or the sign for padding in front,
is passed over.
-/

namespace Icecast.Util.Base64

open Format.Comments (Bytes bytes bytes_ofList)
open Lib.CString

/-! ## The functions -/

def base64table : Bytes := bytes "ABCDEFGHIJKLMNOPQRSTUVWXYZabcdefghijklmnopqrstuvwxyz0123456789+/"

/-- The value of a digit; -1 is the sign for padding. -/
def base64decode : List Int8 := [
  -2, -2, -2, -2, -2, -2, -2, -2, -2, -2, -2, -2, -2, -2, -2, -2,
  -2, -2, -2, -2, -2, -2, -2, -2, -2, -2, -2, -2, -2, -2, -2, -2,
  -2, -2, -2, -2, -2, -2, -2, -2, -2, -2, -2, 62, -2, -2, -2, 63,
  52, 53, 54, 55, 56, 57, 58, 59, 60, 61, -2, -2, -2, -1, -2, -2,
  -2, 0, 1, 2, 3, 4, 5, 6, 7, 8, 9, 10, 11, 12, 13, 14,
  15, 16, 17, 18, 19, 20, 21, 22, 23, 24, 25, -2, -2, -2, -2, -2,
  -2, 26, 27, 28, 29, 30, 31, 32, 33, 34, 35, 36, 37, 38, 39, 40,
  41, 42, 43, 44, 45, 46, 47, 48, 49, 50, 51, -2, -2, -2, -2, -2,
  -2, -2, -2, -2, -2, -2, -2, -2, -2, -2, -2, -2, -2, -2, -2, -2,
  -2, -2, -2, -2, -2, -2, -2, -2, -2, -2, -2, -2, -2, -2, -2, -2,
  -2, -2, -2, -2, -2, -2, -2, -2, -2, -2, -2, -2, -2, -2, -2, -2,
  -2, -2, -2, -2, -2, -2, -2, -2, -2, -2, -2, -2, -2, -2, -2, -2,
  -2, -2, -2, -2, -2, -2, -2, -2, -2, -2, -2, -2, -2, -2, -2, -2,
  -2, -2, -2, -2, -2, -2, -2, -2, -2, -2, -2, -2, -2, -2, -2, -2,
  -2, -2, -2, -2, -2, -2, -2, -2, -2, -2, -2, -2, -2, -2, -2, -2,
  -2, -2, -2, -2, -2, -2, -2, -2, -2, -2, -2, -2, -2, -2, -2, -2
]

def digit (position : UInt8) : UInt8 := base64table.getD position.toNat 0

/-- The data is followed by a zero byte. -/
def utilBase64Encode : Bytes → Bytes
  | [] => []
  | a :: b :: c :: rest =>
    digit ((a &&& 0xFC) >>> 2) :: digit (((a &&& 0x03) <<< 4) ||| ((b &&& 0xF0) >>> 4)) ::
      digit (((b &&& 0x0F) <<< 2) ||| ((c &&& 0xC0) >>> 6)) :: digit (c &&& 0x3F) ::
      utilBase64Encode rest
  | [a, b] =>
    [digit ((a &&& 0xFC) >>> 2), digit (((a &&& 0x03) <<< 4) ||| ((b &&& 0xF0) >>> 4)),
      digit ((b &&& 0x0F) <<< 2), 61]
  | [a] => [digit ((a &&& 0xFC) >>> 2), digit (((a &&& 0x03) <<< 4) ||| (((0 : UInt8) &&& 0xF0) >>> 4)), 61, 61]

def value (char : UInt8) : Int8 := base64decode.getD char.toNat 0

/-- What a turn of the loop adds to the output. -/
def decodeQuadruple (a b c d : UInt8) : Bytes :=
  if value a < 0 ∨ value b < 0 ∨ value c < -1 ∨ value d < -1 then []
  else
    [((value a <<< 2) ||| (value b >>> 4)).toUInt8,
      if value c ≥ 0 then (((value b &&& 0x0F) <<< 4) ||| (value c >>> 2)).toUInt8 else 0,
      if value d ≥ 0 then (((value c &&& 0x03) <<< 6) ||| value d).toUInt8 else 0]

def decodeLoop : Bytes → Option Bytes
  | [] => some []
  | a :: b :: c :: d :: rest => (decodeLoop rest).map (decodeQuadruple a b c d ++ ·)
  | _ => none

/-- The return value: the null pointer or a buffer. For texts whose length times three is not an `int`
there is no telling. -/
inductive Decoded where
  | null
  | buffer (contents : Bytes)
  | overflow
  deriving DecidableEq

def utilBase64Decode (data : Bytes) : Decoded :=
  if 2 ^ 31 ≤ data.length * 3 then .overflow
  else
    match decodeLoop data with
    | none => .null
    | some out => .buffer (out ++ [0])

structure Client where
  username : Option Bytes
  password : Option Bytes
  deriving DecidableEq

/-- `auth_client_setup`, with the value of the Authorization header. -/
def authClientSetup (client : Client) (authorization : Option Bytes) : Client :=
  if client.username.isSome || client.password.isSome then client
  else
    match authorization with
    | none => client
    | some header =>
      if header.take 6 = bytes "Basic " then
        match utilBase64Decode (header.drop 6) with
        | .buffer userpass =>
          match strchr 58 (userpass.takeWhile (· ≠ 0)) with
          | none => client
          | some (username, password) => ⟨some username, some password⟩
        | _ => client
      else client

/-! ## What it is for -/

/-- Quadruples of digits; at the end of the last one there may be padding. -/
def WellFormed (data : Bytes) : Prop :=
  4 ∣ data.length ∧ ∃ digits padding, data = digits ++ padding ∧ (∀ char ∈ digits, char ∈ base64table) ∧
    padding ∈ [[], [61], [61, 61]]

def encodedBytes (data : Bytes) : Bytes :=
  (Lib.Base64.octets ((data.takeWhile (· ∈ base64table)).map base64table.idxOf)).map UInt8.ofNat

/-- A text that is not well formed gives the null pointer, and no name or password. -/
structure Strict (data : Bytes) : Prop where
  rejects : ¬ WellFormed data → utilBase64Decode data = .null
  decodes : WellFormed data →
    ∃ nuls, 0 < nuls ∧ utilBase64Decode data = .buffer (encodedBytes data ++ List.replicate nuls 0)
  credentials : ¬ WellFormed data → ∀ client,
    authClientSetup client (some (bytes "Basic " ++ data)) = client

/-! ## Digits -/

theorem length_base64table : base64table.length = 64 := by
  rw [base64table, bytes_ofList]
  rfl

theorem idxOf_lt {char : UInt8} (h : char ∈ base64table) : base64table.idxOf char < 64 := by
  rw [← length_base64table]
  exact List.idxOf_lt_length_of_mem h

theorem getD_idxOf {char : UInt8} (h : char ∈ base64table) :
    base64table.getD (base64table.idxOf char) 0 = char := by
  have hlt : base64table.idxOf char < base64table.length := List.idxOf_lt_length_of_mem h
  rw [List.getD_eq_getElem _ _ hlt, List.getElem_idxOf]

/-- The second table undoes the first. -/
theorem value_digit : ∀ n < 64, value (base64table.getD n 0) = Int8.ofNat n := by
  rw [base64table, bytes_ofList]
  decide +kernel

theorem value_of_mem {char : UInt8} (h : char ∈ base64table) :
    value char = Int8.ofNat (base64table.idxOf char) := by
  calc
    value char = value (base64table.getD (base64table.idxOf char) 0) := by rw [getD_idxOf h]
    _ = Int8.ofNat (base64table.idxOf char) := value_digit _ (idxOf_lt h)

theorem digit_mem (n : ℕ) (hn : n < 64) : base64table.getD n 0 ∈ base64table ∧
    base64table.idxOf (base64table.getD n 0) = n := by
  have hmem : base64table.getD n 0 ∈ base64table := by
    have hlt : n < base64table.length := by rwa [length_base64table]
    rw [List.getD_eq_getElem _ _ hlt]
    exact List.getElem_mem hlt
  have hlt := idxOf_lt hmem
  have hsame : Int8.ofNat (base64table.idxOf (base64table.getD n 0)) = Int8.ofNat n := by
    rw [← value_of_mem hmem, value_digit n hn]
  have hint := congrArg Int8.toInt hsame
  rw [Int8.toInt_ofNat_of_lt (by omega), Int8.toInt_ofNat_of_lt (by omega)] at hint
  exact ⟨hmem, Int.ofNat_inj.mp hint⟩

theorem value_nonneg {char : UInt8} (h : char ∈ base64table) :
    0 ≤ value char ∧ ¬ value char < 0 ∧ ¬ value char < -1 := by
  have hlt := idxOf_lt h
  have hindex : (Int8.ofNat (base64table.idxOf char)).toInt = base64table.idxOf char :=
    Int8.toInt_ofNat_of_lt (by omega)
  have hminus : (-1 : Int8).toInt = -1 := rfl
  rw [value_of_mem h]
  simp only [Int8.le_iff_toInt_le, Int8.lt_iff_toInt_lt, hindex, Int8.toInt_zero, hminus]
  omega

theorem value_pad : ¬ 0 ≤ value 61 ∧ ¬ value 61 < -1 := by
  have hpad : value 61 = -1 := rfl
  rw [hpad]
  decide

theorem pad_not_mem : 61 ∉ base64table := by
  rw [base64table, bytes_ofList]
  decide

/-- The upper and the lower bits of a digit. -/
theorem bits_eq : ∀ width ∈ [2, 4], ∀ n < 64,
    Int8.ofNat n >>> Int8.ofNat width = Int8.ofNat (n / 2 ^ width) ∧
      Int8.ofNat n &&& Int8.ofNat (2 ^ width - 1) = Int8.ofNat (n % 2 ^ width) := by decide +kernel

theorem or_eq : ∀ shift ∈ [2, 4, 6], ∀ high < 2 ^ (8 - shift), ∀ low < 2 ^ shift,
    ((Int8.ofNat high <<< Int8.ofNat shift) ||| Int8.ofNat low).toUInt8 =
      UInt8.ofNat (high * 2 ^ shift + low) := by decide +kernel

theorem first_byte {a b : UInt8} (ha : a ∈ base64table) (hb : b ∈ base64table) :
    ((value a <<< 2) ||| (value b >>> 4)).toUInt8 =
      UInt8.ofNat (base64table.idxOf a * 4 + base64table.idxOf b / 16) := by
  have hlow : base64table.idxOf b / 2 ^ 4 < 2 ^ 2 := by
    have := idxOf_lt hb
    omega
  rw [value_of_mem ha, value_of_mem hb]
  calc _ = ((Int8.ofNat (base64table.idxOf a) <<< 2) |||
        Int8.ofNat (base64table.idxOf b / 2 ^ 4)).toUInt8 := by
          rw [← (bits_eq 4 (by decide) _ (idxOf_lt hb)).1]
          rfl
    _ = _ := or_eq 2 (by decide) _ (idxOf_lt ha) _ hlow

theorem second_byte {b c : UInt8} (hb : b ∈ base64table) (hc : c ∈ base64table) :
    (((value b &&& 0x0F) <<< 4) ||| (value c >>> 2)).toUInt8 =
      UInt8.ofNat (base64table.idxOf b % 16 * 16 + base64table.idxOf c / 4) := by
  have hlow : base64table.idxOf c / 2 ^ 2 < 2 ^ 4 := by
    have := idxOf_lt hc
    omega
  rw [value_of_mem hb, value_of_mem hc]
  calc _ = ((Int8.ofNat (base64table.idxOf b % 2 ^ 4) <<< 4) |||
        Int8.ofNat (base64table.idxOf c / 2 ^ 2)).toUInt8 := by
          rw [← (bits_eq 2 (by decide) _ (idxOf_lt hc)).1, ← (bits_eq 4 (by decide) _ (idxOf_lt hb)).2]
          rfl
    _ = _ := or_eq 4 (by decide) _ (Nat.mod_lt _ (by decide)) _ hlow

theorem third_byte {c d : UInt8} (hc : c ∈ base64table) (hd : d ∈ base64table) :
    (((value c &&& 0x03) <<< 6) ||| value d).toUInt8 =
      UInt8.ofNat (base64table.idxOf c % 4 * 64 + base64table.idxOf d) := by
  rw [value_of_mem hc, value_of_mem hd]
  calc _ = ((Int8.ofNat (base64table.idxOf c % 2 ^ 2) <<< 6) |||
        Int8.ofNat (base64table.idxOf d)).toUInt8 := by
          rw [← (bits_eq 2 (by decide) _ (idxOf_lt hc)).2]
          rfl
    _ = _ := or_eq 6 (by decide) _ (Nat.mod_lt _ (by decide)) _ (idxOf_lt hd)

theorem decodeQuadruple_digits {a b c d : UInt8} (ha : a ∈ base64table) (hb : b ∈ base64table)
    (hc : c ∈ base64table) (hd : d ∈ base64table) :
    decodeQuadruple a b c d =
      [UInt8.ofNat (base64table.idxOf a * 4 + base64table.idxOf b / 16),
        UInt8.ofNat (base64table.idxOf b % 16 * 16 + base64table.idxOf c / 4),
        UInt8.ofNat (base64table.idxOf c % 4 * 64 + base64table.idxOf d)] := by
  have hvalid : ¬ (value a < 0 ∨ value b < 0 ∨ value c < -1 ∨ value d < -1) := by
    simp [value_nonneg ha, value_nonneg hb, value_nonneg hc, value_nonneg hd]
  rw [decodeQuadruple, if_neg hvalid, if_pos (value_nonneg hc).1, if_pos (value_nonneg hd).1,
    first_byte ha hb, second_byte hb hc, third_byte hc hd]

theorem decodeQuadruple_pad {a b c : UInt8} (ha : a ∈ base64table) (hb : b ∈ base64table)
    (hc : c ∈ base64table) :
    decodeQuadruple a b c 61 =
      [UInt8.ofNat (base64table.idxOf a * 4 + base64table.idxOf b / 16),
        UInt8.ofNat (base64table.idxOf b % 16 * 16 + base64table.idxOf c / 4), 0] := by
  have hvalid : ¬ (value a < 0 ∨ value b < 0 ∨ value c < -1 ∨ value 61 < -1) := by
    simp [value_nonneg ha, value_nonneg hb, value_nonneg hc, value_pad.2]
  rw [decodeQuadruple, if_neg hvalid, if_pos (value_nonneg hc).1, if_neg value_pad.1,
    first_byte ha hb, second_byte hb hc]

theorem decodeQuadruple_pads {a b : UInt8} (ha : a ∈ base64table) (hb : b ∈ base64table) :
    decodeQuadruple a b 61 61 =
      [UInt8.ofNat (base64table.idxOf a * 4 + base64table.idxOf b / 16), 0, 0] := by
  have hvalid : ¬ (value a < 0 ∨ value b < 0 ∨ value 61 < -1 ∨ value 61 < -1) := by
    simp [value_nonneg ha, value_nonneg hb, value_pad.2]
  rw [decodeQuadruple, if_neg hvalid, if_neg value_pad.1, if_neg value_pad.1, first_byte ha hb]

/-! ## Well-formed texts -/

theorem wellFormed_cons {a b c d : UInt8} {rest : Bytes} (h : WellFormed (a :: b :: c :: d :: rest)) :
    a ∈ base64table ∧ b ∈ base64table ∧
      (c ∈ base64table ∧ (d ∈ base64table ∧ WellFormed rest ∨ d = 61 ∧ rest = []) ∨
        c = 61 ∧ d = 61 ∧ rest = []) := by
  obtain ⟨hlength, digits, padding, hsplit, hdigits, hpadding⟩ := h
  have hrest : 4 ∣ rest.length := by
    simp only [List.length_cons] at hlength
    omega
  rcases digits with _ | ⟨a', _ | ⟨b', _ | ⟨c', _ | ⟨d', digits⟩⟩⟩⟩
  · simp at hpadding
    rcases hpadding with rfl | rfl | rfl <;> simp at hsplit
  · simp at hpadding
    rcases hpadding with rfl | rfl | rfl <;> simp at hsplit
  · simp at hpadding hdigits
    rcases hpadding with rfl | rfl | rfl <;> simp at hsplit
    obtain ⟨rfl, rfl, rfl, rfl, rfl⟩ := hsplit
    simp [hdigits]
  · simp at hpadding hdigits
    rcases hpadding with rfl | rfl | rfl <;> simp at hsplit
    · obtain ⟨rfl, rfl, rfl, rfl, rfl⟩ := hsplit
      simp [hdigits]
    · obtain ⟨rfl, rfl, rfl, rfl, rfl⟩ := hsplit
      simp at hrest
  · simp only [List.cons_append, List.cons.injEq] at hsplit
    obtain ⟨rfl, rfl, rfl, rfl, rfl⟩ := hsplit
    simp only [List.forall_mem_cons] at hdigits
    obtain ⟨ha, hb, hc, hd, hdigits⟩ := hdigits
    exact ⟨ha, hb, Or.inl ⟨hc, Or.inl ⟨hd, hrest, digits, padding, rfl, hdigits, hpadding⟩⟩⟩

theorem decodeLoop_isSome_iff (data : Bytes) : (decodeLoop data).isSome = true ↔ 4 ∣ data.length := by
  induction data using decodeLoop.induct with
  | case1 => simp [decodeLoop]
  | case2 a b c d rest ih =>
    rw [decodeLoop, Option.isSome_map, ih]
    simp only [List.length_cons]
    omega
  | case3 data hnil hquadruple =>
    rcases data with _ | ⟨a, _ | ⟨b, _ | ⟨c, _ | ⟨d, rest⟩⟩⟩⟩
    · exact absurd rfl hnil
    · simp [decodeLoop]
    · simp [decodeLoop]
    · simp [decodeLoop]
    · exact absurd rfl (hquadruple a b c d rest)

theorem encodedBytes_cons {a b c d : UInt8} (ha : a ∈ base64table) (hb : b ∈ base64table)
    (hc : c ∈ base64table) (hd : d ∈ base64table) (rest : Bytes) :
    encodedBytes (a :: b :: c :: d :: rest) = decodeQuadruple a b c d ++ encodedBytes rest := by
  rw [decodeQuadruple_digits ha hb hc hd]
  simp [encodedBytes, Lib.Base64.octets, ha, hb, hc, hd]

/-- A well-formed text is decoded, and zero bytes stand for the padding. -/
theorem decodeLoop_of_wellFormed {data : Bytes} (h : WellFormed data) :
    ∃ nuls, decodeLoop data = some (encodedBytes data ++ List.replicate nuls 0) := by
  have hpad := pad_not_mem
  induction data using decodeLoop.induct with
  | case1 => exact ⟨0, rfl⟩
  | case2 a b c d rest ih =>
    obtain ⟨ha, hb, ⟨hc, ⟨hd, hrest⟩ | ⟨rfl, rfl⟩⟩ | ⟨rfl, rfl, rfl⟩⟩ := wellFormed_cons h
    · obtain ⟨nuls, hnuls⟩ := ih hrest
      refine ⟨nuls, ?_⟩
      rw [decodeLoop, hnuls, Option.map_some, encodedBytes_cons ha hb hc hd, List.append_assoc]
    · refine ⟨1, ?_⟩
      rw [decodeLoop, decodeLoop, decodeQuadruple_pad ha hb hc]
      simp [encodedBytes, Lib.Base64.octets, ha, hb, hc, hpad]
    · refine ⟨2, ?_⟩
      rw [decodeLoop, decodeLoop, decodeQuadruple_pads ha hb]
      simp [encodedBytes, Lib.Base64.octets, ha, hb, hpad, List.replicate]
  | case3 data hnil hquadruple =>
    have hlength := h.1
    rw [← decodeLoop_isSome_iff, Option.isSome_iff_exists] at hlength
    obtain ⟨out, hout⟩ := hlength
    rw [decodeLoop.eq_3 data hnil hquadruple] at hout
    cases hout

theorem utilBase64Decode_of_wellFormed {data : Bytes} (h : WellFormed data)
    (hfits : data.length * 3 < 2 ^ 31) :
    ∃ nuls, 0 < nuls ∧ utilBase64Decode data = .buffer (encodedBytes data ++ List.replicate nuls 0) := by
  obtain ⟨nuls, hnuls⟩ := decodeLoop_of_wellFormed h
  refine ⟨nuls + 1, nuls.succ_pos, ?_⟩
  rw [utilBase64Decode, if_neg (Nat.not_le.mpr hfits), hnuls, List.replicate_succ']
  simp

/-! ## What the encoder makes -/

theorem shiftRight_and {n mask shift : ℕ} (hshift : shift ≤ 8) (hmask : mask >>> shift = 2 ^ (8 - shift) - 1)
    (hn : n < 256) : (n &&& mask) >>> shift = n / 2 ^ shift := by
  have hpow : 2 ^ shift * 2 ^ (8 - shift) = 2 ^ 8 := by
    rw [← Nat.pow_add, Nat.add_sub_cancel' hshift]
  have hlt : n / 2 ^ shift < 2 ^ (8 - shift) := Nat.div_lt_of_lt_mul (hpow.symm ▸ hn)
  rw [Nat.shiftRight_and_distrib, hmask, Nat.and_two_pow_sub_one_eq_mod, Nat.shiftRight_eq_div_pow,
    Nat.mod_eq_of_lt hlt]

/-- The upper bits of a byte, at the end of a digit. -/
theorem upper_bits (byte : UInt8) : ((byte &&& 0xFC) >>> 2).toNat = byte.toNat / 4 ∧
    (byte &&& 0xF0) >>> 4 = UInt8.ofNat (byte.toNat / 16) ∧
    (byte &&& 0xC0) >>> 6 = UInt8.ofNat (byte.toNat / 64) := by
  have hlt := byte.toNat_lt
  have htwo : ((byte &&& 0xFC) >>> 2).toNat = byte.toNat / 4 := @shiftRight_and _ 252 2 (by decide) rfl hlt
  have hfour : ((byte &&& 0xF0) >>> 4).toNat = byte.toNat / 16 := @shiftRight_and _ 240 4 (by decide) rfl hlt
  have hsix : ((byte &&& 0xC0) >>> 6).toNat = byte.toNat / 64 := @shiftRight_and _ 192 6 (by decide) rfl hlt
  exact ⟨htwo, by rw [← hfour, UInt8.ofNat_toNat], by rw [← hsix, UInt8.ofNat_toNat]⟩

/-- The lower bits of a byte, at the beginning of a digit. -/
theorem lower_bits (byte : UInt8) : (byte &&& 0x03) <<< 4 = UInt8.ofNat (byte.toNat % 4 * 16) ∧
    (byte &&& 0x0F) <<< 2 = UInt8.ofNat (byte.toNat % 16 * 4) ∧
    (byte &&& 0x3F).toNat = byte.toNat % 64 := by
  refine ⟨?_, ?_, Nat.and_two_pow_sub_one_eq_mod _ 6⟩
  · apply UInt8.toNat.inj
    have hmod : byte.toNat &&& 3 = byte.toNat % 4 := Nat.and_two_pow_sub_one_eq_mod _ 2
    rw [UInt8.toNat_shiftLeft, UInt8.toNat_and, UInt8.toNat_ofNat', Nat.shiftLeft_eq]
    exact congrArg (· * 16 % 256) hmod
  · apply UInt8.toNat.inj
    have hmod : byte.toNat &&& 15 = byte.toNat % 16 := Nat.and_two_pow_sub_one_eq_mod _ 4
    rw [UInt8.toNat_shiftLeft, UInt8.toNat_and, UInt8.toNat_ofNat', Nat.shiftLeft_eq]
    exact congrArg (· * 4 % 256) hmod

theorem or_digit {width high low : ℕ} (hwidth : width ≤ 6) (hhigh : high < 2 ^ (6 - width))
    (hlow : low < 2 ^ width) :
    (UInt8.ofNat (high * 2 ^ width) ||| UInt8.ofNat low).toNat = high * 2 ^ width + low := by
  have hpow : 2 ^ (6 - width) * 2 ^ width = 2 ^ 6 := by
    rw [← Nat.pow_add, Nat.sub_add_cancel hwidth]
  have hfits : high * 2 ^ width + low < 64 := by
    have hle : (high + 1) * 2 ^ width ≤ 2 ^ 6 := hpow ▸ Nat.mul_le_mul_right _ hhigh
    rw [Nat.succ_mul] at hle
    omega
  rw [UInt8.toNat_or, UInt8.toNat_ofNat', UInt8.toNat_ofNat', Nat.mod_eq_of_lt (by omega),
    Nat.mod_eq_of_lt (by omega), Nat.mul_comm, ← Nat.two_pow_add_eq_or_of_lt hlow]

theorem second_position (a b : UInt8) : (((a &&& 0x03) <<< 4) ||| ((b &&& 0xF0) >>> 4)).toNat =
    a.toNat % 4 * 16 + b.toNat / 16 := by
  have hb := b.toNat_lt
  rw [(lower_bits a).1, (upper_bits b).2.1]
  have hlow : b.toNat / 16 < 2 ^ 4 := by omega
  exact @or_digit 4 _ _ (by decide) (Nat.mod_lt _ (by decide)) hlow

theorem third_position (b c : UInt8) : (((b &&& 0x0F) <<< 2) ||| ((c &&& 0xC0) >>> 6)).toNat =
    b.toNat % 16 * 4 + c.toNat / 64 := by
  have hc := c.toNat_lt
  rw [(lower_bits b).2.1, (upper_bits c).2.2]
  have hlow : c.toNat / 64 < 2 ^ 2 := by omega
  exact @or_digit 2 _ _ (by decide) (Nat.mod_lt _ (by decide)) hlow

theorem last_third_position (b : UInt8) : ((b &&& 0x0F) <<< 2).toNat = b.toNat % 16 * 4 := by
  have hall := third_position b 0
  simpa using hall

theorem last_second_position (a : UInt8) :
    (((a &&& 0x03) <<< 4) ||| (((0 : UInt8) &&& 0xF0) >>> 4)).toNat = a.toNat % 4 * 16 :=
  second_position a 0

/-- The digits of the data, with padding. -/
theorem utilBase64Encode_eq (data : Bytes) : 4 ∣ (utilBase64Encode data).length ∧
    ∃ padding ∈ [[], [61], [61, 61]], utilBase64Encode data =
      (Lib.Base64.sextets (data.map UInt8.toNat)).map (base64table.getD · 0) ++ padding := by
  induction data using utilBase64Encode.induct with
  | case1 => exact ⟨⟨0, rfl⟩, [], by decide, rfl⟩
  | case2 a b c rest ih =>
    obtain ⟨hlength, padding, hpadding, hrest⟩ := ih
    refine ⟨?_, padding, hpadding, ?_⟩
    · simp only [utilBase64Encode, List.length_cons]
      omega
    · rw [utilBase64Encode, hrest]
      simp only [digit, (upper_bits a).1, second_position, third_position, (lower_bits c).2.2]
      rfl
  | case3 a b =>
    refine ⟨⟨1, rfl⟩, [61], by decide, ?_⟩
    rw [utilBase64Encode]
    simp only [digit, (upper_bits a).1, second_position, last_third_position]
    rfl
  | case4 a =>
    refine ⟨⟨1, rfl⟩, [61, 61], by decide, ?_⟩
    rw [utilBase64Encode]
    simp only [digit, (upper_bits a).1, last_second_position]
    rfl

theorem toNat_lt_of_mem (data : Bytes) : ∀ byte ∈ data.map UInt8.toNat, byte < 256 := by
  intro byte hmem
  obtain ⟨char, -, rfl⟩ := List.mem_map.mp hmem
  exact char.toNat_lt

/-- The encoder makes a well-formed text, and its encoded bytes are the data. -/
theorem encodedBytes_encode (data : Bytes) :
    WellFormed (utilBase64Encode data) ∧ encodedBytes (utilBase64Encode data) = data := by
  obtain ⟨hlength, padding, hpadding, htext⟩ := utilBase64Encode_eq data
  have hlt := Lib.Base64.sextets_lt (toNat_lt_of_mem data)
  have hdigits : ∀ char ∈ (Lib.Base64.sextets (data.map UInt8.toNat)).map (base64table.getD · 0),
      char ∈ base64table := by
    intro char hmem
    obtain ⟨position, hposition, rfl⟩ := List.mem_map.mp hmem
    exact (digit_mem position (hlt position hposition)).1
  have hpads : padding.takeWhile (· ∈ base64table) = [] := by
    simp only [List.mem_cons, List.not_mem_nil, or_false] at hpadding
    rcases hpadding with rfl | rfl | rfl <;> simp [pad_not_mem]
  have hback : ((Lib.Base64.sextets (data.map UInt8.toNat)).map (base64table.getD · 0)).map
      base64table.idxOf = Lib.Base64.sextets (data.map UInt8.toNat) := by
    rw [List.map_map]
    calc _ = (Lib.Base64.sextets (data.map UInt8.toNat)).map id :=
          List.map_congr_left fun position hposition ↦ (digit_mem position (hlt position hposition)).2
      _ = _ := List.map_id _
  constructor
  · exact ⟨hlength, _, padding, htext, hdigits, hpadding⟩
  · rw [encodedBytes, htext, List.takeWhile_append_of_pos (by simpa using hdigits), hpads,
      List.append_nil, hback, Lib.Base64.octets_sextets (toNat_lt_of_mem data), List.map_map]
    simp [Function.comp_def]

/-- The data comes back, unless its digits are too many. -/
theorem utilBase64Decode_encode {data : Bytes}
    (hfits : (utilBase64Encode data).length * 3 < 2 ^ 31) :
    ∃ nuls, 0 < nuls ∧
      utilBase64Decode (utilBase64Encode data) = .buffer (data ++ List.replicate nuls 0) := by
  obtain ⟨hwellFormed, hbytes⟩ := encodedBytes_encode data
  simpa only [hbytes] using utilBase64Decode_of_wellFormed hwellFormed hfits

/-! ## Every text -/

theorem authClientSetup_of_null {data : Bytes} (hnull : utilBase64Decode data = .null)
    (client : Client) : authClientSetup client (some (bytes "Basic " ++ data)) = client := by
  have htake : (bytes "Basic " ++ data).take 6 = bytes "Basic " := List.take_left' rfl
  have hdrop : (bytes "Basic " ++ data).drop 6 = data := List.drop_left' rfl
  simp only [authClientSetup, htake, hdrop, hnull, if_true]
  split <;> rfl

/-- Exactly then: the text is well formed, or already its length is not that of a well-formed text. -/
theorem strict_iff (data : Bytes) : Strict data ↔
    data.length * 3 < 2 ^ 31 ∧ (4 ∣ data.length → WellFormed data) := by
  constructor
  · intro hstrict
    have hfits : data.length * 3 < 2 ^ 31 := by
      by_contra hlong
      have hoverflow : utilBase64Decode data = .overflow := if_pos (Nat.not_lt.mp hlong)
      by_cases hwellFormed : WellFormed data
      · obtain ⟨nuls, -, hbuffer⟩ := hstrict.decodes hwellFormed
        cases hoverflow.symm.trans hbuffer
      · cases hoverflow.symm.trans (hstrict.rejects hwellFormed)
    refine ⟨hfits, fun hlength ↦ ?_⟩
    by_contra hwellFormed
    have hnull := hstrict.rejects hwellFormed
    obtain ⟨out, hout⟩ := Option.isSome_iff_exists.mp ((decodeLoop_isSome_iff data).mpr hlength)
    rw [utilBase64Decode, if_neg (Nat.not_le.mpr hfits), hout] at hnull
    cases hnull
  · rintro ⟨hfits, hlength⟩
    have hrejects : ¬ WellFormed data → utilBase64Decode data = .null := by
      intro hwellFormed
      have hnone : decodeLoop data = none := by
        rw [← Option.not_isSome_iff_eq_none, decodeLoop_isSome_iff]
        exact fun h ↦ hwellFormed (hlength h)
      rw [utilBase64Decode, if_neg (Nat.not_le.mpr hfits), hnone]
    exact ⟨hrejects, fun hwellFormed ↦ utilBase64Decode_of_wellFormed hwellFormed hfits,
      fun hwellFormed ↦ authClientSetup_of_null (hrejects hwellFormed)⟩

/-- A quadruple that is no base64 is passed over, and the rest gives a name and a password. -/
theorem base64_decode_not_strict : ¬ ∀ data, Strict data := by
  intro hall
  have hcredentials := (hall (bytes "!!!!dTpw")).credentials ?_ ⟨none, none⟩
  · exact absurd hcredentials (by decide +kernel)
  · intro hwellFormed
    exact absurd (wellFormed_cons hwellFormed).1 (by decide +kernel)

end Icecast.Util.Base64
