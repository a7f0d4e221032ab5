import Icecast.Auth.UrlPost
import Icecast.Lib.CString
import Icecast.Lib.MachineInt
import Icecast.Util.Uri

/-!
# Escaped URLs

`util_url_escape` (`util.c`) keeps letters and digits and writes every other byte as a percent sign with
two digits. `util_url_unescape` takes the length of its argument for an `int`.
-/

namespace Icecast.Util.UrlEscape

open Auth.UrlPost (isSafeChar hexChar utilUrlEscape)
open Format.Comments (CString zero_not_mem_replicate)
open Lib.MachineInt
open Uri

/-! ## The functions -/

/-- What is written for a byte. -/
def escapeByte (byte : UInt8) : Bytes :=
  if isSafeChar byte then [byte] else [37, hexChar (byte >>> 4), hexChar (byte &&& 15)]

theorem utilUrlEscape_eq (text : Bytes) : utilUrlEscape text = text.flatMap escapeByte := rfl

/-- The return value: the null pointer or a buffer. Where the size of the buffer is no `int`, or is
negative as a `size_t`, there is nothing to write to. -/
inductive Unescaped where
  | null
  | buffer (contents : Bytes)
  | overflow
  deriving DecidableEq

def utilUrlUnescape (src : Bytes) : Unescaped :=
  let len := toSigned 32 src.length
  if len < 0 ∨ 2 ^ 31 ≤ len + 1 then .overflow
  else
    match unescapeLoop (src.take len.toNat) with
    | none => .null
    | some decoded => .buffer (decoded ++ [0])

/-! ## What they are for -/

/-- Safe characters and percent signs with two digits. -/
inductive Escaped : Bytes → Prop
  | nil : Escaped []
  | safe {char : UInt8} {text : Bytes} (hchar : isSafeChar char = true) (htext : Escaped text) :
      Escaped (char :: text)
  | triple {high low : UInt8} {text : Bytes} (hhigh : (hex high).isSome) (hlow : (hex low).isSome)
      (htext : Escaped text) : Escaped (percent :: high :: low :: text)

/-- The characters that have a meaning in a request, the space and the control characters. -/
def Special (char : UInt8) : Prop :=
  char = 38 ∨ char = 61 ∨ char = Uri.hash ∨ char.toNat ≤ 32 ∨ char = 127

structure RoundTrip (text : CString) : Prop where
  back : ∃ contents, utilUrlUnescape (utilUrlEscape text) = .buffer contents ∧ cString contents = text.1
  escaped : Escaped (utilUrlEscape text)
  clean : ∀ char ∈ utilUrlEscape text, ¬ Special char

/-- The bytes that are written as they are, and three for each of the others. -/
def escapedLength (text : Bytes) : ℕ := text.length + 2 * text.countP (!isSafeChar ·)

/-! ## Escapes -/

theorem isSafeChar_iff {char : UInt8} : isSafeChar char = true ↔
    (48 ≤ char.toNat ∧ char.toNat ≤ 57) ∨ (65 ≤ char.toNat ∧ char.toNat ≤ 90) ∨
      (97 ≤ char.toNat ∧ char.toNat ≤ 122) := by
  simp [isSafeChar, UInt8.le_iff_toNat_le, or_assoc]

theorem toNat_hexChar {digit : UInt8} (h : digit.toNat < 16) :
    (hexChar digit).toNat = if digit.toNat < 10 then 48 + digit.toNat else 87 + digit.toNat := by
  have hlt : digit < 10 ↔ digit.toNat < 10 := UInt8.lt_iff_toNat_lt
  unfold hexChar
  simp only [hlt]
  split
  · rw [UInt8.toNat_add]
    exact Nat.mod_eq_of_lt (by simp; omega)
  · rw [UInt8.toNat_add]
    exact Nat.mod_eq_of_lt (by simp; omega)

theorem hex_hexChar {digit : UInt8} (h : digit.toNat < 16) : hex (hexChar digit) = some digit.toNat := by
  rw [hex_eq_some_iff, toNat_hexChar h]
  split
  · omega
  · omega

theorem toNat_high (byte : UInt8) : (byte >>> 4).toNat = byte.toNat / 16 := by
  rw [UInt8.toNat_shiftRight, Nat.shiftRight_eq_div_pow]
  rfl

theorem toNat_low (byte : UInt8) : (byte &&& 15).toNat = byte.toNat % 16 := by
  rw [UInt8.toNat_and]
  exact Nat.and_two_pow_sub_one_eq_mod _ 4

theorem hex_digits (byte : UInt8) : hex (hexChar (byte >>> 4)) = some (byte.toNat / 16) ∧
    hex (hexChar (byte &&& 15)) = some (byte.toNat % 16) := by
  have hbyte := byte.toNat_lt
  constructor
  · rw [hex_hexChar (by rw [toNat_high]; omega), toNat_high]
  · rw [hex_hexChar (by rw [toNat_low]; omega), toNat_low]

/-- What is written for a byte is one of the ways to write it. -/
theorem writes_escapeByte (byte : UInt8) : Writes (escapeByte byte) byte := by
  unfold escapeByte
  split
  · rename_i hsafe
    rw [isSafeChar_iff] at hsafe
    refine Or.inl ⟨rfl, ?_, ?_⟩
    · rintro rfl
      simp [percent] at hsafe
    · rintro rfl
      simp [Uri.hash] at hsafe
  · exact Or.inr ⟨_, _, rfl, hex_digits byte⟩

theorem escaped_utilUrlEscape (text : Bytes) : Escaped (utilUrlEscape text) := by
  induction text with
  | nil => exact .nil
  | cons byte text ih =>
    rw [utilUrlEscape_eq, List.flatMap_cons, ← utilUrlEscape_eq, escapeByte]
    split
    · rename_i hsafe
      exact .safe hsafe ih
    · obtain ⟨hhigh, hlow⟩ := hex_digits byte
      exact .triple (by rw [hhigh]; rfl) (by rw [hlow]; rfl) ih

theorem not_special_of_hex {char : UInt8} (h : (hex char).isSome) : ¬ Special char := by
  obtain ⟨n, hn⟩ := Option.isSome_iff_exists.mp h
  rw [hex_eq_some_iff] at hn
  rintro (rfl | rfl | rfl | hlow | rfl)
  · simp at hn
    omega
  · simp at hn
    omega
  · simp [Uri.hash] at hn
    omega
  · omega
  · simp at hn
    omega

theorem not_special_of_safe {char : UInt8} (h : isSafeChar char = true) : ¬ Special char := by
  rw [isSafeChar_iff] at h
  rintro (rfl | rfl | rfl | hlow | rfl)
  · simp at h
  · simp at h
  · simp [Uri.hash] at h
  · omega
  · simp at h

/-- Nothing special stands in such a text. -/
theorem Escaped.clean {text : Bytes} (h : Escaped text) : ∀ char ∈ text, ¬ Special char := by
  have hpercent : ¬ Special percent := by
    unfold Special
    decide
  induction h with
  | nil => exact nofun
  | safe hchar htext ih => exact List.forall_mem_cons.mpr ⟨not_special_of_safe hchar, ih⟩
  | triple hhigh hlow htext ih =>
    exact List.forall_mem_cons.mpr ⟨hpercent, List.forall_mem_cons.mpr
      ⟨not_special_of_hex hhigh, List.forall_mem_cons.mpr ⟨not_special_of_hex hlow, ih⟩⟩⟩

/-! ## There and back -/

theorem length_utilUrlEscape (text : Bytes) : (utilUrlEscape text).length = escapedLength text := by
  induction text with
  | nil => rfl
  | cons byte text ih =>
    rw [utilUrlEscape_eq, List.flatMap_cons, List.length_append, ← utilUrlEscape_eq, ih, escapedLength,
      escapedLength, List.countP_cons, List.length_cons, escapeByte]
    cases isSafeChar byte with
    | true => simp; omega
    | false => simp; omega

theorem unescapeLoop_escape (text : Bytes) : unescapeLoop (utilUrlEscape text) = some text := by
  induction text with
  | nil => rfl
  | cons byte text ih =>
    rw [utilUrlEscape_eq, List.flatMap_cons, unescapeLoop_of_writes (writes_escapeByte byte),
      ← utilUrlEscape_eq, ih, Option.map_some]

/-- From a part of what is written for a byte nothing comes back. -/
theorem unescapeLoop_take_escapeByte {byte : UInt8} {n : ℕ} {decoded : Bytes}
    (h : unescapeLoop ((escapeByte byte).take n) = some decoded) (hlt : n < (escapeByte byte).length) :
    decoded = [] := by
  unfold escapeByte at h hlt
  cases hsafe : isSafeChar byte with
  | true =>
    simp [hsafe] at hlt
    simp [hlt, unescapeLoop] at h
    exact h
  | false =>
    simp only [hsafe, Bool.false_eq_true, if_false, List.length_cons, List.length_nil] at h hlt
    have hcases : n = 0 ∨ n = 1 ∨ n = 2 := by omega
    rcases hcases with rfl | rfl | rfl
    · exact (Option.some.inj h).symm
    · cases h
    · cases h

/-- From a part of the escaped text less comes back. -/
theorem length_unescapeLoop_take {text decoded : Bytes} {n : ℕ}
    (h : unescapeLoop ((utilUrlEscape text).take n) = some decoded)
    (hlt : n < (utilUrlEscape text).length) : decoded.length < text.length := by
  induction text generalizing n decoded with
  | nil => simp [utilUrlEscape] at hlt
  | cons byte text ih =>
    rw [utilUrlEscape_eq, List.flatMap_cons, ← utilUrlEscape_eq] at h hlt
    rw [List.length_append] at hlt
    rw [List.take_append] at h
    by_cases hle : (escapeByte byte).length ≤ n
    · rw [List.take_of_length_le hle, unescapeLoop_of_writes (writes_escapeByte byte)] at h
      obtain ⟨tail, htail, rfl⟩ := Option.map_eq_some_iff.mp h
      have hshorter := ih htail (by omega)
      simp only [List.length_cons]
      omega
    · rw [Nat.sub_eq_zero_of_le (by omega), List.take_zero, List.append_nil] at h
      rw [unescapeLoop_take_escapeByte h (Nat.lt_of_not_le hle)]
      exact Nat.succ_pos _

theorem cString_append_zero {text : Bytes} (h : 0 ∉ text) : cString (text ++ [0]) = text :=
  Lib.CString.takeWhile_ne_append_cons h []

theorem length_cString_append_zero (text : Bytes) : (cString (text ++ [0])).length ≤ text.length :=
  Lib.CString.length_takeWhile_ne_le text []

theorem utilUrlUnescape_escape {text : Bytes} (hlt : escapedLength text < 2 ^ 31 - 1) :
    utilUrlUnescape (utilUrlEscape text) = .buffer (text ++ [0]) := by
  have hlen : toSigned 32 (escapedLength text) = escapedLength text := toSigned_of_lt (by omega)
  rw [utilUrlUnescape, length_utilUrlEscape, hlen]
  rw [if_neg (by omega), Int.toNat_natCast, ← length_utilUrlEscape, List.take_length,
    unescapeLoop_escape]

/-- The text comes back if and only if the length of what is written for it, with a zero byte behind it,
is an `int`. -/
theorem url_round_trip_iff (text : CString) : RoundTrip text ↔ escapedLength text < 2 ^ 31 - 1 := by
  constructor
  · intro htrip
    obtain ⟨contents, hcontents, hback⟩ := htrip.back
    rw [utilUrlUnescape, length_utilUrlEscape] at hcontents
    split at hcontents
    · cases hcontents
    · rename_i hint
      split at hcontents
      · cases hcontents
      · rename_i decoded hdecoded
        have hlength := length_cString_append_zero decoded
        rw [Unescaped.buffer.inj hcontents, hback] at hlength
        have hall : escapedLength text ≤ (toSigned 32 (escapedLength text)).toNat := by
          by_contra hpart
          have hless := length_unescapeLoop_take hdecoded (by
            rw [length_utilUrlEscape]
            exact Nat.lt_of_not_le hpart)
          omega
        rw [toSigned, Int.bmod_def] at hall hint
        omega
  · intro hlt
    exact ⟨⟨_, utilUrlUnescape_escape hlt, cString_append_zero text.2⟩, escaped_utilUrlEscape text,
      (escaped_utilUrlEscape text).clean⟩

def letters (n : ℕ) : CString := ⟨List.replicate n 97, zero_not_mem_replicate n⟩

theorem escapedLength_letters (n : ℕ) : escapedLength (letters n) = n := by
  have hsafe : isSafeChar 97 = true := rfl
  simp [escapedLength, letters, List.countP_replicate, hsafe]

theorem utilUrlUnescape_overflow {src : Bytes} (h : src.length = 2 ^ 31 - 1) :
    utilUrlUnescape src = .overflow := by
  rw [utilUrlUnescape, h]
  rfl

/-- Two gigabytes of one letter. -/
theorem url_round_trip_overflow : ¬ ∀ text : CString, RoundTrip text := by
  intro hall
  obtain ⟨contents, hcontents, -⟩ := (hall (letters (2 ^ 31 - 1))).back
  have hlength : (utilUrlEscape (letters (2 ^ 31 - 1))).length = 2 ^ 31 - 1 := by
    rw [length_utilUrlEscape, escapedLength_letters]
  rw [utilUrlUnescape_overflow hlength] at hcontents
  cases hcontents

end Icecast.Util.UrlEscape
