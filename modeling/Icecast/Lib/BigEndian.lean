import Mathlib.Data.Nat.Digits.Lemmas

/-!
# Bytes as the digits of a number

The first byte has the highest digits. A loop that multiplies by 256 and adds the next byte computes that
number behind the digits it has begun with, also if it does so modulo a power of 256.
-/

namespace Icecast.Lib.BigEndian

def bigEndian (bytes : List UInt8) : ℕ := Nat.ofDigits 256 (bytes.reverse.map UInt8.toNat)

@[simp]
theorem bigEndian_nil : bigEndian [] = 0 := rfl

theorem bigEndian_cons (byte : UInt8) (bytes : List UInt8) :
    bigEndian (byte :: bytes) = byte.toNat * 256 ^ bytes.length + bigEndian bytes := by
  rw [bigEndian, List.reverse_cons, List.map_append, Nat.ofDigits_append, List.map_singleton,
    Nat.ofDigits_singleton, List.length_map, List.length_reverse, bigEndian]
  ring

theorem bigEndian_lt (bytes : List UInt8) : bigEndian bytes < 256 ^ bytes.length := by
  have hdigits : ∀ digit ∈ bytes.reverse.map UInt8.toNat, digit < 256 := by
    intro digit hmem
    obtain ⟨byte, -, rfl⟩ := List.mem_map.mp hmem
    exact byte.toNat_lt
  have hlt := Nat.ofDigits_lt_base_pow_length (by decide) hdigits
  rwa [List.length_map, List.length_reverse] at hlt

theorem foldl_eq (bytes : List UInt8) (value : ℕ) :
    bytes.foldl (fun value byte ↦ value * 256 + byte.toNat) value =
      value * 256 ^ bytes.length + bigEndian bytes := by
  induction bytes generalizing value with
  | nil => simp
  | cons byte bytes ih =>
    rw [List.foldl_cons, ih, bigEndian_cons, List.length_cons]
    ring

theorem foldl_mod_eq (bytes : List UInt8) (value modulus : ℕ) :
    bytes.foldl (fun value byte ↦ (value * 256 + byte.toNat) % modulus) (value % modulus) =
      (value * 256 ^ bytes.length + bigEndian bytes) % modulus := by
  induction bytes generalizing value with
  | nil => simp
  | cons byte bytes ih =>
    have hfirst : (value % modulus * 256 + byte.toNat) % modulus = (value * 256 + byte.toNat) % modulus := by
      rw [Nat.add_mod, Nat.mod_mul_mod, ← Nat.add_mod]
    rw [List.foldl_cons, hfirst, ih, bigEndian_cons, List.length_cons]
    congr 1
    ring

/-- As many bytes with all bits set. -/
theorem foldl_ones_eq (bytes : List UInt8) (value : ℕ) :
    bytes.foldl (fun value _ ↦ value * 256 + 0xFF) value + 1 = (value + 1) * 256 ^ bytes.length := by
  induction bytes generalizing value with
  | nil => simp
  | cons byte bytes ih =>
    rw [List.foldl_cons, ih, List.length_cons]
    ring

/-- The value in two's complement. -/
def signed (bytes : List UInt8) : ℤ := (bigEndian bytes : ℤ).bmod (256 ^ bytes.length)

/-- The first bit says whether the number is negative. -/
theorem signed_cons (byte : UInt8) (bytes : List UInt8) :
    signed (byte :: bytes) = bigEndian (byte :: bytes) -
      if 128 ≤ byte.toNat then (256 : ℤ) ^ (byte :: bytes).length else 0 := by
  have hlt := bigEndian_lt (byte :: bytes)
  have hrest := bigEndian_lt bytes
  have hpow : 256 ^ (byte :: bytes).length = 256 ^ bytes.length * 256 := by
    rw [List.length_cons, Nat.pow_succ]
  have hvalue := bigEndian_cons byte bytes
  have hcast : ((256 ^ (byte :: bytes).length : ℕ) : ℤ) = (256 : ℤ) ^ (byte :: bytes).length := by
    push_cast
    rfl
  rw [signed, Int.bmod_def, Int.emod_eq_of_lt (by omega) (by omega), ← hcast]
  by_cases hbyte : 128 ≤ byte.toNat
  · have hle : 128 * 256 ^ bytes.length ≤ byte.toNat * 256 ^ bytes.length := Nat.mul_le_mul_right _ hbyte
    rw [if_pos hbyte, if_neg (by omega)]
  · have hle : (byte.toNat + 1) * 256 ^ bytes.length ≤ 128 * 256 ^ bytes.length :=
      Nat.mul_le_mul_right _ (by omega)
    rw [Nat.succ_mul] at hle
    rw [if_neg hbyte, if_pos (by omega), sub_zero]

end Icecast.Lib.BigEndian
