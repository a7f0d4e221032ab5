import Mathlib.Algebra.Order.Ring.Int
import Mathlib.Tactic.Ring

/-!
# Machine integers as natural numbers and integers

Unsigned values are natural numbers below `2 ^ width`, signed ones integers. Only the operations
that can leave the range are given a definition here: subtraction and addition of unsigned values
wrap around, and a conversion to a signed type reads the two's complement value.
-/

namespace Icecast.Lib.MachineInt

/-- Unsigned subtraction of a `width`-bit machine. -/
def usub (width a b : ℕ) : ℕ := (((a : ℤ) - b) % 2 ^ width).toNat

/-- Unsigned addition of a `width`-bit machine. -/
def uadd (width a b : ℕ) : ℕ := (a + b) % 2 ^ width

/-- The value of an unsigned number read as a signed one of the same width. -/
def toSigned (width a : ℕ) : ℤ := (a : ℤ).bmod (2 ^ width)

theorem usub_of_le {width a b : ℕ} (hle : b ≤ a) (hlt : a < 2 ^ width) :
    usub width a b = a - b := by
  have hcast : ((2 ^ width : ℕ) : ℤ) = 2 ^ width := by norm_num
  rw [usub, Int.emod_eq_of_lt (by omega) (by omega)]
  omega

theorem toSigned_of_lt {width a : ℕ} (h : 2 * a < 2 ^ width) : toSigned width a = a := by
  rw [toSigned, Int.bmod_eq_of_le] <;> omega

/-- Taking an amount away again undoes adding it, whatever wrapped around in between. -/
theorem usub_uadd_mod (width total part : ℕ) :
    usub width ((part + total) % 2 ^ width) part = total % 2 ^ width := by
  have hcast : ((2 ^ width : ℕ) : ℤ) = 2 ^ width := by norm_num
  have hcalc : ((((part + total) % 2 ^ width : ℕ) : ℤ) - part) % 2 ^ width =
      ((total % 2 ^ width : ℕ) : ℤ) := by
    push_cast
    rw [Int.emod_sub_emod, add_sub_cancel_left]
  rw [usub, hcalc, Int.toNat_natCast]

end Icecast.Lib.MachineInt
