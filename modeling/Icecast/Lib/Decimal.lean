import Icecast.Lib.MachineInt

/-!
# Decimal numbers in texts

What the C library reads from the start of a text: white space, a sign and digits. A number that does
not fit into 64 bits is read as the nearest one that does, and `atoi` cuts that down to 32 bits.
-/

namespace Icecast.Lib.Decimal

open MachineInt

def isSpace (c : Char) : Bool := c = ' ' || (9 ≤ c.toNat && c.toNat ≤ 13)

/-- The value of the digits at the start of a text, behind those already read. -/
def digits (value : ℕ) : List Char → ℕ
  | [] => value
  | c :: rest => if c.isDigit then digits (value * 10 + (c.toNat - 48)) rest else value

/-- The number at the start of a text; a text without one counts as zero. -/
def readNumber (text : String) : ℤ :=
  match text.toList.dropWhile isSpace with
  | '-' :: rest => -digits 0 rest
  | '+' :: rest => digits 0 rest
  | rest => digits 0 rest

def atoll (text : String) : ℤ := max (-2 ^ 63) (min (readNumber text) (2 ^ 63 - 1))

/-- The value of an integer when only its lowest 32 bits are kept. -/
def toInt (value : ℤ) : ℤ := value.bmod (2 ^ 32)

def atoi (text : String) : ℤ := toInt (atoll text)

/-! ## Cutting down to 32 bits -/

theorem le_toInt (value : ℤ) : -2 ^ 31 ≤ toInt value := by
  rw [toInt, Int.bmod_def]
  split <;> omega

theorem toInt_le {value : ℤ} (hlower : -2 ^ 31 ≤ value) : toInt value ≤ value := by
  rw [toInt, Int.bmod_def]
  split <;> omega

theorem toInt_of_le_of_lt {value : ℤ} (hlower : -2 ^ 31 ≤ value) (hupper : value < 2 ^ 31) :
    toInt value = value := by
  rw [toInt, Int.bmod_def]
  split <;> omega

/-! ## Reading what has been printed -/

theorem digits_eq_ofDigitChars {text : List Char} (h : ∀ c ∈ text, c.isDigit) (value : ℕ) :
    digits value text = Nat.ofDigitChars 10 text value := by
  induction text generalizing value with
  | nil => rfl
  | cons c rest ih =>
    rw [digits, if_pos (h c List.mem_cons_self), ih fun other hother ↦ h other (.tail c hother),
      Nat.ofDigitChars_cons, Nat.mul_comm]
    rfl

theorem digits_repr (n : ℕ) : digits 0 n.repr.toList = n := by
  rw [Nat.toList_repr, digits_eq_ofDigitChars, Nat.ofDigitChars_ten_toDigits]
  intro c hc
  exact Nat.isDigit_of_mem_toDigits (by decide) (by decide) hc

theorem toNat_of_isDigit {c : Char} (hc : c.isDigit) : 48 ≤ c.toNat ∧ c.toNat ≤ 57 := by
  simpa [Char.isDigit, UInt32.le_iff_toNat_le] using hc

/-- A digit is neither white space nor a sign. -/
theorem readNumber_of_isDigit {text : String} {c : Char} {rest : List Char}
    (htext : text.toList = c :: rest) (hc : c.isDigit) : readNumber text = digits 0 text.toList := by
  obtain ⟨hlower, hupper⟩ := toNat_of_isDigit hc
  have hspace : isSpace c = false := by
    have hne : c ≠ ' ' := by
      rintro rfl
      exact absurd hlower (by decide)
    simp [isSpace, hne]
    omega
  have hminus : c ≠ '-' := by
    rintro rfl
    exact absurd hlower (by decide)
  have hplus : c ≠ '+' := by
    rintro rfl
    exact absurd hlower (by decide)
  rw [readNumber, htext, List.dropWhile_cons_of_neg (by simp [hspace])]
  split
  · rename_i heq
    exact absurd (List.cons.inj heq).1 hminus
  · rename_i heq
    exact absurd (List.cons.inj heq).1 hplus
  · rfl

theorem readNumber_natRepr (n : ℕ) : readNumber n.repr = n := by
  have hdigits : ∀ c ∈ n.repr.toList, c.isDigit := by
    intro c hc
    rw [Nat.toList_repr] at hc
    exact Nat.isDigit_of_mem_toDigits (by decide) (by decide) hc
  cases htext : n.repr.toList with
  | nil => exact absurd htext (by simp [Nat.toList_repr, Nat.toDigits_ne_nil])
  | cons c rest =>
    rw [readNumber_of_isDigit htext (hdigits c (htext ▸ List.mem_cons_self)), digits_repr]

theorem readNumber_toString (n : ℤ) : readNumber (toString n) = n := by
  rw [Int.toString_eq_repr, Int.repr_eq_if]
  split
  · rename_i hn
    rw [readNumber_natRepr, Int.toNat_of_nonneg hn]
  · rename_i hn
    have htext : ("-" ++ (-n).toNat.repr).toList = '-' :: (-n).toNat.repr.toList := by simp
    rw [readNumber, htext, List.dropWhile_cons_of_neg (by decide)]
    change -(digits 0 (-n).toNat.repr.toList : ℤ) = n
    rw [digits_repr]
    omega

end Icecast.Lib.Decimal
