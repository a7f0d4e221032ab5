import Icecast.Format.EbmlKeyframes
import Icecast.Lib.BigEndian

/-!
# The numbers of an EBML stream

What `ebml_parse_var_int`, `ebml_parse_tag` and `ebml_parse_sized_int` (`format_ebml.c`) make of a buffer,
said with the number that its first bytes are: a var-int of so many bytes has a marker in front of seven
bits for each of them. The parser of sized integers wants one byte more than it reads.
-/

namespace Icecast.Format.Ebml

open Lib.BigEndian

/-! ## What the numbers are -/

/-- A var-int with all data bits set stands for "unknown". -/
def dataValue (length data : ℕ) : ℕ := if data = 2 ^ (7 * length) - 1 then ebmlUnknown else data

structure VarInt (input : Bytes) (length value : ℕ) : Prop where
  length_pos : 1 ≤ length
  length_le : length ≤ 8
  available : length ≤ input.length
  value_eq : ∃ data < 2 ^ (7 * length), bigEndian (input.take length) = 2 ^ (7 * length) + data ∧
    value = dataValue length data

/-- A tag is two numbers. -/
structure Tag (input : Bytes) (length tagId payload : ℕ) : Prop where
  parts : ∃ typeLength sizeLength, VarInt input typeLength tagId ∧
    VarInt (input.drop typeLength) sizeLength payload ∧ length = typeLength + sizeLength

/-- It is not there, but more bytes could make it. -/
def Incomplete (There : Bytes → Prop) (input : Bytes) : Prop :=
  ¬ There input ∧ ∃ more, There (input ++ more)

/-- What `*tag_id` is set to. -/
def ebmlTagId (buffer : Bytes) : ℕ :=
  match ebmlParseVarInt buffer with
  | .done _ tagId => tagId
  | _ => 0

/-- The number in the first bytes; a negative one as an unsigned number of 64 bits. -/
def sizedValue (isSigned : Bool) (digits : Bytes) : ℕ :=
  if isSigned then (signed digits % 2 ^ 64).toNat else bigEndian digits

/-- The integer is read exactly when it is there. -/
structure SizedIntRead (input : Bytes) (len : ℕ) (isSigned : Bool) : Prop where
  there : len ≤ input.length →
    ebmlParseSizedInt input len isSigned = .done len (sizedValue isSigned (input.take len))
  missing : input.length < len → ebmlParseSizedInt input len isSigned = .wait

structure ReadsNumbers (input : Bytes) (len : ℕ) (isSigned : Bool) : Prop where
  varInt_done : ∀ length value, ebmlParseVarInt input = .done length value ↔ VarInt input length value
  varInt_corrupt : ebmlParseVarInt input = .corrupt ↔ input.head? = some 0
  varInt_wait : ebmlParseVarInt input = .wait ↔
    Incomplete (fun buffer ↦ ∃ length value, VarInt buffer length value) input
  tag_done : ∀ length payload,
    ebmlParseTag input = .done length payload ↔ Tag input length (ebmlTagId input) payload
  tag_corrupt : ebmlParseTag input = .corrupt ↔ input.head? = some 0 ∨
    ∃ length value, VarInt input length value ∧ input[length]? = some 0
  tag_wait : ebmlParseTag input = .wait ↔
    Incomplete (fun buffer ↦ ∃ length tagId payload, Tag buffer length tagId payload) input
  sizedInt : 1 ≤ len → len ≤ 8 → SizedIntRead input len isSigned
  varInt_more : ∀ length value more, ebmlParseVarInt input = .done length value →
    ebmlParseVarInt (input ++ more) = .done length value
  tag_more : ∀ length payload more, ebmlParseTag input = .done length payload →
    ebmlParseTag (input ++ more) = .done length payload ∧ ebmlTagId (input ++ more) = ebmlTagId input
  sizedInt_more : ∀ length value more, ebmlParseSizedInt input len isSigned = .done length value →
    ebmlParseSizedInt (input ++ more) len isSigned = .done length value

/-! ## Var-ints -/

/-- What the search for the marker finds in a byte. -/
structure Marked (first size digits marker : ℕ) : Prop where
  size_pos : 1 ≤ size
  size_le : size ≤ 8
  first_eq : first = 2 ^ (8 - size) + digits
  digits_lt : digits < 2 ^ (8 - size)
  marker_eq : marker + 1 = 2 ^ (8 - size)

theorem findMarker_spec {first size digits marker : ℕ} (hfirst : first < 256)
    (h : findMarker first 8 = some (size, digits, marker)) : Marked first size digits marker := by
  have hall : ∀ first < 256, ∀ found ∈ findMarker first 8, 1 ≤ found.1 ∧ found.1 ≤ 8 ∧
      first = 2 ^ (8 - found.1) + found.2.1 ∧ found.2.1 < 2 ^ (8 - found.1) ∧
      found.2.2 + 1 = 2 ^ (8 - found.1) := by decide +kernel
  obtain ⟨hpos, hle, heq, hdigits, hmarker⟩ := hall first hfirst (size, digits, marker) h
  exact ⟨hpos, hle, heq, hdigits, hmarker⟩

theorem findMarker_eq_none_iff {first : ℕ} (hfirst : first < 256) :
    findMarker first 8 = none ↔ first = 0 := by
  have hall : ∀ first < 256, findMarker first 8 = none ↔ first = 0 := by decide +kernel
  exact hall first hfirst

theorem pow_marker {size : ℕ} (hpos : 1 ≤ size) (hle : size ≤ 8) :
    2 ^ (8 - size) * 256 ^ (size - 1) = 2 ^ (7 * size) := by
  have hbase : 256 = 2 ^ 8 := rfl
  rw [hbase, ← Nat.pow_mul, ← Nat.pow_add]
  congr 1
  omega

/-- The number in front of which the marker stands. -/
theorem Marked.varInt {first : UInt8} {rest : Bytes} {size digits marker : ℕ}
    (h : Marked first.toNat size digits marker) (havailable : size - 1 ≤ rest.length) :
    VarInt (first :: rest) size
      (if (rest.take (size - 1)).foldl (fun value digit ↦ value * 256 + digit.toNat) digits =
          (rest.take (size - 1)).foldl (fun marker _ ↦ marker * 256 + 0xFF) marker
        then ebmlUnknown
        else (rest.take (size - 1)).foldl (fun value digit ↦ value * 256 + digit.toNat) digits) := by
  have hlength : (rest.take (size - 1)).length = size - 1 := List.length_take_of_le havailable
  have hpow := pow_marker h.size_pos h.size_le
  have hrest := bigEndian_lt (rest.take (size - 1))
  have hvalue := foldl_eq (rest.take (size - 1)) digits
  have hones := foldl_ones_eq (rest.take (size - 1)) marker
  have hbound : (digits + 1) * 256 ^ (size - 1) ≤ 2 ^ (8 - size) * 256 ^ (size - 1) :=
    Nat.mul_le_mul_right _ h.digits_lt
  have htake : (first :: rest).take size = first :: rest.take (size - 1) := by
    obtain ⟨n, rfl⟩ := Nat.exists_eq_add_of_le' h.size_pos
    rfl
  rw [hlength] at hrest hvalue hones
  rw [h.marker_eq, hpow] at hones
  rw [Nat.succ_mul, hpow] at hbound
  refine ⟨h.size_pos, h.size_le, by rw [List.length_cons]; omega,
    (rest.take (size - 1)).foldl (fun value digit ↦ value * 256 + digit.toNat) digits, ?_, ?_, ?_⟩
  · omega
  · rw [htake, bigEndian_cons, hlength, h.first_eq, Nat.add_mul, hpow, hvalue, Nat.add_assoc]
  · rw [dataValue, ← Nat.eq_sub_of_add_eq hones]

theorem varInt_of_parse {input : Bytes} {length value : ℕ}
    (h : ebmlParseVarInt input = .done length value) : VarInt input length value := by
  cases input with
  | nil => cases h
  | cons first rest =>
    rw [ebmlParseVarInt] at h
    split at h
    · cases h
    · rename_i size digits marker hmarker
      split at h
      · cases h
      · rename_i havailable
        obtain ⟨rfl, rfl⟩ := Parsed.done.inj h
        exact (findMarker_spec first.toNat_lt hmarker).varInt (Nat.le_of_not_lt havailable)

/-- The first byte of a number tells its length. -/
theorem VarInt.first_bounds {first : UInt8} {rest : Bytes} {length value : ℕ}
    (h : VarInt (first :: rest) length value) :
    2 ^ (8 - length) ≤ first.toNat ∧ first.toNat < 2 * 2 ^ (8 - length) := by
  obtain ⟨data, hdata, hnumber, -⟩ := h.value_eq
  have hpow := pow_marker h.length_pos h.length_le
  have hrest := bigEndian_lt (rest.take (length - 1))
  have hlength : (rest.take (length - 1)).length = length - 1 := by
    have havailable := h.available
    rw [List.length_cons] at havailable
    exact List.length_take_of_le (by omega)
  have htake : (first :: rest).take length = first :: rest.take (length - 1) := by
    obtain ⟨n, rfl⟩ := Nat.exists_eq_add_of_le' h.length_pos
    rfl
  rw [hlength] at hrest
  rw [htake, bigEndian_cons, hlength, ← hpow] at hnumber
  rw [← hpow] at hdata
  constructor
  · by_contra hsmall
    have hle : (first.toNat + 1) * 256 ^ (length - 1) ≤ 2 ^ (8 - length) * 256 ^ (length - 1) :=
      Nat.mul_le_mul_right _ (by omega)
    rw [Nat.succ_mul] at hle
    omega
  · by_contra hlarge
    have hle : 2 * 2 ^ (8 - length) * 256 ^ (length - 1) ≤ first.toNat * 256 ^ (length - 1) :=
      Nat.mul_le_mul_right _ (by omega)
    rw [Nat.mul_assoc] at hle
    omega

/-- Only one length goes with a byte. -/
theorem length_unique {first length size : ℕ} (hle : length ≤ 8) (hle' : size ≤ 8)
    (hlow : 2 ^ (8 - length) ≤ first) (hhigh : first < 2 * 2 ^ (8 - length))
    (hlow' : 2 ^ (8 - size) ≤ first) (hhigh' : first < 2 * 2 ^ (8 - size)) : length = size := by
  have hshorter {m n : ℕ} (hm : m ≤ 8) (hlt : n < m) (hn : 2 ^ (8 - n) ≤ first) :
      2 * 2 ^ (8 - m) ≤ first := by
    rw [← Nat.pow_succ']
    exact (Nat.pow_le_pow_right (by decide) (by omega)).trans hn
  rcases Nat.lt_trichotomy length size with hlt | heq | hgt
  · have := hshorter hle' hlt hlow
    omega
  · exact heq
  · have := hshorter hle hgt hlow'
    omega

theorem VarInt.value_unique {input : Bytes} {length value value' : ℕ} (h : VarInt input length value)
    (h' : VarInt input length value') : value = value' := by
  obtain ⟨data, -, hnumber, rfl⟩ := h.value_eq
  obtain ⟨data', -, hnumber', rfl⟩ := h'.value_eq
  rw [Nat.add_left_cancel (hnumber.symm.trans hnumber')]

theorem VarInt.parse {input : Bytes} {length value : ℕ} (h : VarInt input length value) :
    ebmlParseVarInt input = .done length value := by
  cases input with
  | nil =>
    have hpos := h.length_pos
    have havailable := h.available
    rw [List.length_nil] at havailable
    omega
  | cons first rest =>
    obtain ⟨hlow, hhigh⟩ := h.first_bounds
    cases hparse : ebmlParseVarInt (first :: rest) with
    | done size value' =>
      have h' := varInt_of_parse hparse
      obtain ⟨hlow', hhigh'⟩ := h'.first_bounds
      obtain rfl := length_unique h.length_le h'.length_le hlow hhigh hlow' hhigh'
      rw [h.value_unique h']
    | corrupt =>
      rw [ebmlParseVarInt] at hparse
      split at hparse
      · rename_i hmarker
        rw [findMarker_eq_none_iff first.toNat_lt] at hmarker
        have hpos := Nat.two_pow_pos (8 - length)
        omega
      · split at hparse
        · cases hparse
        · cases hparse
    | wait =>
      rw [ebmlParseVarInt] at hparse
      split at hparse
      · cases hparse
      · rename_i size digits marker hmarker
        have hmarked := findMarker_spec first.toNat_lt hmarker
        have hfirst := hmarked.first_eq
        have hdigits := hmarked.digits_lt
        obtain rfl := length_unique h.length_le hmarked.size_le hlow hhigh (by omega) (by omega)
        have havailable := h.available
        rw [List.length_cons] at havailable
        split at hparse
        · omega
        · cases hparse

theorem ebmlParseVarInt_done_iff {input : Bytes} {length value : ℕ} :
    ebmlParseVarInt input = .done length value ↔ VarInt input length value :=
  ⟨varInt_of_parse, VarInt.parse⟩

theorem ebmlParseVarInt_corrupt_iff {input : Bytes} :
    ebmlParseVarInt input = .corrupt ↔ input.head? = some 0 := by
  cases input with
  | nil => simp [ebmlParseVarInt]
  | cons first rest =>
    have hzero : first.toNat = 0 ↔ first = 0 := by
      rw [← UInt8.toNat_inj]
      rfl
    rw [List.head?_cons, Option.some.injEq, ← hzero, ← findMarker_eq_none_iff first.toNat_lt,
      ebmlParseVarInt]
    cases findMarker first.toNat 8 with
    | none => exact iff_of_true rfl rfl
    | some found =>
      refine iff_of_false ?_ (by rintro ⟨⟩)
      dsimp only
      split
      · rintro ⟨⟩
      · rintro ⟨⟩

/-- A number that is waited for can be completed without any byte to spare. -/
theorem exists_varInt_of_wait {input : Bytes} (h : ebmlParseVarInt input = .wait) :
    ∃ more value, VarInt (input ++ more) (input ++ more).length value := by
  cases input with
  | nil => exact ⟨[0x80], 0, varInt_of_parse (by rfl)⟩
  | cons first rest =>
    rw [ebmlParseVarInt] at h
    split at h
    · cases h
    · rename_i size digits marker hmarker
      have hmarked := findMarker_spec first.toNat_lt hmarker
      split at h
      · rename_i hshort
        have hlength : (rest ++ List.replicate (size - 1 - rest.length) 0).length = size - 1 := by
          rw [List.length_append, List.length_replicate]
          omega
        obtain ⟨value, hnumber⟩ : ∃ value, VarInt
            (first :: (rest ++ List.replicate (size - 1 - rest.length) 0)) size value :=
          ⟨_, hmarked.varInt (Nat.le_of_eq hlength.symm)⟩
        have hsize : (first :: rest ++ List.replicate (size - 1 - rest.length) 0).length = size := by
          rw [List.cons_append, List.length_cons, hlength]
          exact Nat.sub_add_cancel hmarked.size_pos
        refine ⟨List.replicate (size - 1 - rest.length) 0, value, ?_⟩
        rw [hsize]
        exact hnumber
      · cases h

theorem head?_append_of_head? {input : Bytes} {byte : UInt8} (h : input.head? = some byte) (more : Bytes) :
    (input ++ more).head? = some byte := by
  rw [List.head?_append, h, Option.some_or]

theorem ebmlParseVarInt_wait_iff {input : Bytes} : ebmlParseVarInt input = .wait ↔
    Incomplete (fun buffer ↦ ∃ length value, VarInt buffer length value) input := by
  constructor
  · intro h
    constructor
    · rintro ⟨length, value, hnumber⟩
      rw [hnumber.parse] at h
      cases h
    · obtain ⟨more, value, hnumber⟩ := exists_varInt_of_wait h
      exact ⟨more, _, value, hnumber⟩
  · rintro ⟨hnot, more, length, value, hnumber⟩
    cases hparse : ebmlParseVarInt input with
    | wait => rfl
    | corrupt =>
      have hcorrupt := head?_append_of_head? (ebmlParseVarInt_corrupt_iff.mp hparse) more
      rw [← ebmlParseVarInt_corrupt_iff, hnumber.parse] at hcorrupt
      cases hcorrupt
    | done size found => exact absurd ⟨size, found, varInt_of_parse hparse⟩ hnot

/-! ## Tags -/

theorem ebmlTagId_of_varInt {input : Bytes} {length tagId : ℕ} (h : VarInt input length tagId) :
    ebmlTagId input = tagId := by
  rw [ebmlTagId, h.parse]

theorem ebmlParseTag_done_iff {input : Bytes} {length payload : ℕ} :
    ebmlParseTag input = .done length payload ↔ Tag input length (ebmlTagId input) payload := by
  constructor
  · intro h
    obtain ⟨typeLength, tagId, sizeLength, htype, hsize, hlength⟩ := ebmlParseTag_cases h
    have htype' := varInt_of_parse htype
    rw [ebmlTagId_of_varInt htype']
    exact ⟨typeLength, sizeLength, htype', varInt_of_parse hsize, hlength⟩
  · rintro ⟨typeLength, sizeLength, htype, hsize, rfl⟩
    rw [ebmlParseTag, htype.parse]
    dsimp only
    rw [hsize.parse]

/-- A size is corrupt behind a type if it is by itself. -/
theorem corrupt_behind_iff (typeLength : ℕ) (size : Parsed) :
    (match size with
      | .done sizeLength payloadLength => Parsed.done (typeLength + sizeLength) payloadLength
      | result => result) = .corrupt ↔ size = .corrupt := by
  cases size with
  | wait => simp
  | corrupt => simp
  | done sizeLength payloadLength => simp

theorem ebmlParseTag_corrupt_iff {input : Bytes} : ebmlParseTag input = .corrupt ↔
    input.head? = some 0 ∨ ∃ length value, VarInt input length value ∧ input[length]? = some 0 := by
  rw [← ebmlParseVarInt_corrupt_iff, ebmlParseTag]
  cases htype : ebmlParseVarInt input with
  | wait =>
    refine iff_of_false (by rintro ⟨⟩) ?_
    rintro (hcorrupt | ⟨length, value, hnumber, -⟩)
    · cases hcorrupt
    · rw [hnumber.parse] at htype
      cases htype
  | corrupt => exact iff_of_true rfl (Or.inl rfl)
  | done typeLength tagId =>
    have hsize : ebmlParseVarInt (input.drop typeLength) = .corrupt ↔ input[typeLength]? = some 0 := by
      rw [ebmlParseVarInt_corrupt_iff, List.head?_drop]
    refine (corrupt_behind_iff typeLength _).trans
      (hsize.trans ⟨fun hzero ↦ Or.inr ⟨_, _, varInt_of_parse htype, hzero⟩, ?_⟩)
    rintro (hcorrupt | ⟨length, value, hnumber, hzero⟩)
    · cases hcorrupt
    · rw [hnumber.parse] at htype
      rw [← (Parsed.done.inj htype).1]
      exact hzero

theorem VarInt.append {input : Bytes} {length value : ℕ} (h : VarInt input length value) (more : Bytes) :
    VarInt (input ++ more) length value :=
  varInt_of_parse (ebmlParseVarInt_append h.parse more).1

/-- A byte for the smallest number there is. -/
theorem varInt_zero : VarInt [0x80] 1 0 := varInt_of_parse (by rfl)

theorem exists_tag_iff {input : Bytes} : (∃ length tagId payload, Tag input length tagId payload) ↔
    ∃ length payload, ebmlParseTag input = .done length payload := by
  constructor
  · rintro ⟨length, tagId, payload, htag⟩
    obtain ⟨typeLength, sizeLength, htype, -, -⟩ := htag.parts
    exact ⟨length, payload, ebmlParseTag_done_iff.mpr (ebmlTagId_of_varInt htype ▸ htag)⟩
  · rintro ⟨length, payload, hparse⟩
    exact ⟨length, _, payload, ebmlParseTag_done_iff.mp hparse⟩

/-- More bytes complete a tag that is waited for. -/
theorem exists_tag_of_wait {input : Bytes} (h : ebmlParseTag input = .wait) :
    ∃ more length tagId payload, Tag (input ++ more) length tagId payload := by
  rw [ebmlParseTag] at h
  cases htype : ebmlParseVarInt input with
  | wait =>
    obtain ⟨more, tagId, hnumber⟩ := exists_varInt_of_wait htype
    refine ⟨more ++ [0x80], (input ++ more).length + 1, tagId, 0, (input ++ more).length, 1, ?_, ?_, rfl⟩
    · rw [← List.append_assoc]
      exact hnumber.append [0x80]
    · rw [← List.append_assoc, List.drop_left]
      exact varInt_zero
  | corrupt =>
    rw [htype] at h
    cases h
  | done typeLength tagId =>
    have hnumber := varInt_of_parse htype
    have hsize : ebmlParseVarInt (input.drop typeLength) = .wait := by
      rw [htype] at h
      dsimp only at h
      split at h
      · cases h
      · exact h
    obtain ⟨more, payload, hpayload⟩ := exists_varInt_of_wait hsize
    rw [← List.drop_append_of_le_length hnumber.available] at hpayload
    exact ⟨more, _, tagId, payload, typeLength, _, hnumber.append more, hpayload, rfl⟩

theorem ebmlParseTag_corrupt_append {input : Bytes} (h : ebmlParseTag input = .corrupt) (more : Bytes) :
    ebmlParseTag (input ++ more) = .corrupt := by
  rw [ebmlParseTag_corrupt_iff] at h ⊢
  rcases h with hzero | ⟨length, value, hnumber, hzero⟩
  · exact Or.inl (head?_append_of_head? hzero more)
  · refine Or.inr ⟨length, value, hnumber.append more, ?_⟩
    rw [List.getElem?_append_left (List.getElem?_eq_some_iff.mp hzero).1, hzero]

theorem ebmlParseTag_wait_iff {input : Bytes} : ebmlParseTag input = .wait ↔
    Incomplete (fun buffer ↦ ∃ length tagId payload, Tag buffer length tagId payload) input := by
  constructor
  · intro h
    refine ⟨fun htag ↦ ?_, exists_tag_of_wait h⟩
    obtain ⟨length, payload, hdone⟩ := exists_tag_iff.mp htag
    rw [h] at hdone
    cases hdone
  · rintro ⟨hnot, more, hmore⟩
    obtain ⟨length, payload, hdone⟩ := exists_tag_iff.mp hmore
    cases hparse : ebmlParseTag input with
    | wait => rfl
    | corrupt =>
      rw [ebmlParseTag_corrupt_append hparse more] at hdone
      cases hdone
    | done size found => exact absurd (exists_tag_iff.mpr ⟨size, found, hparse⟩) hnot

/-! ## Sized integers -/

theorem bigEndian_lt_word {digits : Bytes} (h : digits.length ≤ 8) : bigEndian digits < 2 ^ 64 :=
  calc bigEndian digits < 256 ^ digits.length := bigEndian_lt digits
    _ ≤ 256 ^ 8 := Nat.pow_le_pow_right (by decide) h
    _ = 2 ^ 64 := rfl

/-- The digits behind a word with all bits set make the negative number of these digits. -/
theorem ones_mod_eq {power value : ℕ} : ((2 ^ 64 - 1) * power + value) % 2 ^ 64 =
    (((value : ℤ) - power) % 2 ^ 64).toNat := by
  have hsum : (((2 ^ 64 - 1) * power + value : ℕ) : ℤ) = (value : ℤ) - power + 2 ^ 64 * power := by
    push_cast
    ring
  have hmod : ((value : ℤ) - power) % 2 ^ 64 = (((2 ^ 64 - 1) * power + value) % 2 ^ 64 : ℕ) := by
    rw [Int.natCast_emod, hsum]
    exact (Int.add_mul_emod_self_left _ _ _).symm
  rw [hmod, Int.toNat_natCast]

/-- What the loop over the digits computes. -/
theorem foldl_sized (isSigned : Bool) (first : UInt8) {rest : Bytes} (hle : (first :: rest).length ≤ 8) :
    (first :: rest).foldl (fun value digit ↦ (value * 256 + digit.toNat) % 2 ^ 64)
      (if isSigned && (first ≥ 0x80) then 2 ^ 64 - 1 else 0) = sizedValue isSigned (first :: rest) := by
  have hlt := bigEndian_lt_word hle
  have hpositive : (first :: rest).foldl (fun value digit ↦ (value * 256 + digit.toNat) % 2 ^ 64) 0 =
      bigEndian (first :: rest) := by
    have hloop := foldl_mod_eq (first :: rest) 0 (2 ^ 64)
    rw [Nat.zero_mod, Nat.zero_mul, Nat.zero_add, Nat.mod_eq_of_lt hlt] at hloop
    exact hloop
  cases isSigned with
  | false => exact hpositive
  | true =>
    have hsign : first ≥ 0x80 ↔ 128 ≤ first.toNat := UInt8.le_iff_toNat_le
    rw [sizedValue, if_pos rfl, signed_cons]
    by_cases hfirst : 128 ≤ first.toNat
    · have hloop := foldl_mod_eq (first :: rest) (2 ^ 64 - 1) (2 ^ 64)
      have hcast : ((256 ^ (first :: rest).length : ℕ) : ℤ) = (256 : ℤ) ^ (first :: rest).length := by
        push_cast
        rfl
      rw [ones_mod_eq, hcast, Nat.mod_eq_of_lt (by decide)] at hloop
      rw [if_pos hfirst, ← hloop]
      simp [hsign, hfirst]
    · rw [if_neg hfirst, sub_zero, Int.emod_eq_of_lt (by omega) (by omega), Int.toNat_natCast, ← hpositive]
      simp [hsign, hfirst]

theorem ebmlParseSizedInt_of_lt {input : Bytes} {len : ℕ} (isSigned : Bool) (hpos : 1 ≤ len) (hle : len ≤ 8)
    (hlt : len < input.length) :
    ebmlParseSizedInt input len isSigned = .done len (sizedValue isSigned (input.take len)) := by
  cases input with
  | nil => cases hlt
  | cons first rest =>
    have htake : (first :: rest).take len = first :: rest.take (len - 1) := by
      obtain ⟨n, rfl⟩ := Nat.exists_eq_add_of_le' hpos
      rfl
    have hlength : (first :: rest.take (len - 1)).length ≤ 8 := by
      rw [← htake]
      exact (List.length_take_le _ _).trans hle
    rw [ebmlParseSizedInt, if_neg (by omega), if_neg (Nat.not_le.mpr hlt), List.headD_cons, htake,
      ← foldl_sized isSigned first hlength]

theorem ebmlParseSizedInt_of_le {input : Bytes} {len : ℕ} (isSigned : Bool) (hpos : 1 ≤ len) (hle : len ≤ 8)
    (hshort : input.length ≤ len) : ebmlParseSizedInt input len isSigned = .wait := by
  rw [ebmlParseSizedInt, if_neg (by omega), if_pos hshort]

/-- The parser of sized integers waits for one byte more than it needs. -/
theorem sizedIntRead_iff {input : Bytes} {len : ℕ} (isSigned : Bool) (hpos : 1 ≤ len) (hle : len ≤ 8) :
    SizedIntRead input len isSigned ↔ input.length ≠ len := by
  constructor
  · intro hread hlength
    have hdone := hread.there (Nat.le_of_eq hlength.symm)
    rw [ebmlParseSizedInt_of_le isSigned hpos hle (Nat.le_of_eq hlength)] at hdone
    cases hdone
  · intro hne
    exact ⟨fun hthere ↦ ebmlParseSizedInt_of_lt isSigned hpos hle (by omega),
      fun hmissing ↦ ebmlParseSizedInt_of_le isSigned hpos hle hmissing.le⟩

/-! ## Every buffer -/

/-- All three functions read what is there, unless a sized integer ends where the buffer ends. -/
theorem ebml_numbers_iff (input : Bytes) (len : ℕ) (isSigned : Bool) :
    ReadsNumbers input len isSigned ↔ ¬ (1 ≤ len ∧ len ≤ 8 ∧ input.length = len) := by
  constructor
  · rintro hreads ⟨hpos, hle, hlength⟩
    exact (sizedIntRead_iff isSigned hpos hle).mp (hreads.sizedInt hpos hle) hlength
  · intro hnot
    refine ⟨fun _ _ ↦ ebmlParseVarInt_done_iff, ebmlParseVarInt_corrupt_iff, ebmlParseVarInt_wait_iff,
      fun _ _ ↦ ebmlParseTag_done_iff, ebmlParseTag_corrupt_iff, ebmlParseTag_wait_iff, ?_, ?_, ?_, ?_⟩
    · intro hpos hle
      exact (sizedIntRead_iff isSigned hpos hle).mpr fun hlength ↦ hnot ⟨hpos, hle, hlength⟩
    · intro length value more hdone
      exact (ebmlParseVarInt_append hdone more).1
    · intro length payload more hdone
      obtain ⟨typeLength, sizeLength, htype, -, -⟩ := (ebmlParseTag_done_iff.mp hdone).parts
      rw [ebmlTagId_of_varInt htype, ebmlTagId_of_varInt (htype.append more)]
      exact ⟨ebmlParseTag_append hdone more, rfl⟩
    · intro length value more hdone
      exact ebmlParseSizedInt_append hdone more

/-- One byte is there, and the integer of one byte is not read. -/
theorem ebml_sized_int_waits : ¬ ∀ input len isSigned, ReadsNumbers input len isSigned := by
  intro hall
  have hdone := ((hall [5] 1 false).sizedInt (by decide) (by decide)).there (by decide)
  have hwait : ebmlParseSizedInt [5] 1 false = .wait := rfl
  rw [hwait] at hdone
  cases hdone

end Icecast.Format.Ebml
