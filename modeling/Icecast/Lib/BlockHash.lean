import Mathlib.Data.List.Basic

/-!
# Hashing an input block by block

The letters of an input are collected until they are a block, which then changes the state. What an input
does is independent of the pieces in which it arrives.
-/

namespace Icecast.Lib.BlockHash

section Absorb

variable {State Letter : Type*} (size : ℕ) (compress : State → List Letter → State)

/-- A state, and the letters of the block that is not complete. -/
def absorbLetter (hash : State × List Letter) (letter : Letter) : State × List Letter :=
  let block := hash.2 ++ [letter]
  if block.length = size then (compress hash.1 block, []) else (hash.1, block)

def absorb (hash : State × List Letter) (input : List Letter) : State × List Letter :=
  input.foldl (absorbLetter size compress) hash

variable {size} {compress} {hash : State × List Letter} {input rest : List Letter}

@[simp]
theorem absorb_nil : absorb size compress hash [] = hash := rfl

theorem absorb_append : absorb size compress hash (input ++ rest) =
    absorb size compress (absorb size compress hash input) rest :=
  List.foldl_append

/-- Letters that do not complete the block are collected. -/
theorem absorb_of_lt (hlength : hash.2.length + input.length < size) :
    absorb size compress hash input = (hash.1, hash.2 ++ input) := by
  induction input generalizing hash with
  | nil => rw [absorb_nil, List.append_nil]
  | cons letter input ih =>
    rw [List.length_cons] at hlength
    have hletter : absorbLetter size compress hash letter = (hash.1, hash.2 ++ [letter]) := by
      rw [absorbLetter]
      apply if_neg
      rw [List.length_append, List.length_singleton]
      omega
    rw [absorb, List.foldl_cons, ← absorb, hletter, ih]
    · rw [List.append_assoc, List.singleton_append]
    · rw [List.length_append, List.length_singleton]
      omega

/-- The letters that complete the block are compressed with those that were there before. -/
theorem absorb_of_eq (hinput : input ≠ []) (hlength : hash.2.length + input.length = size) :
    absorb size compress hash input = (compress hash.1 (hash.2 ++ input), []) := by
  have hsplit : input.dropLast ++ [input.getLast hinput] = input := List.dropLast_append_getLast hinput
  have hpos : 0 < input.length := List.length_pos_iff.mpr hinput
  have hfirst : hash.2.length + input.dropLast.length < size := by
    rw [List.length_dropLast]
    omega
  have hblock : hash.2 ++ input.dropLast ++ [input.getLast hinput] = hash.2 ++ input := by
    rw [List.append_assoc, hsplit]
  calc
    _ = absorbLetter size compress (absorb size compress hash input.dropLast) (input.getLast hinput) := by
      conv_lhs => rw [← hsplit, absorb_append]
      rfl
    _ = absorbLetter size compress (hash.1, hash.2 ++ input.dropLast) (input.getLast hinput) := by
      rw [absorb_of_lt hfirst]
    _ = _ := by
      rw [absorbLetter]
      simp only [hblock]
      apply if_pos
      rw [List.length_append, hlength]

end Absorb

end Icecast.Lib.BlockHash
