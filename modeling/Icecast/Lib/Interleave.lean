import Mathlib.Data.List.Basic
import Mathlib.Tactic.Ring

/-!
# Blocks inserted into a stream at fixed distances

`insertBlocks period stream blocks` puts one block behind every `period` elements of `stream`.
The two growth lemmas say what a sender that works through the stream incrementally appends:
more stream elements behind the last block, or one more block at the end of a full period.
-/

namespace Icecast.Lib.Interleave

variable {α : Type*}

/-- Each block follows `period` further elements of the stream; what is left follows the last one. -/
def insertBlocks (period : ℕ) : List α → List (List α) → List α
  | stream, [] => stream
  | stream, block :: blocks =>
    stream.take period ++ block ++ insertBlocks period (stream.drop period) blocks

theorem insertBlocks_append_stream (period : ℕ) (stream more : List α) (blocks : List (List α))
    (h : period * blocks.length ≤ stream.length) :
    insertBlocks period (stream ++ more) blocks = insertBlocks period stream blocks ++ more := by
  induction blocks generalizing stream with
  | nil => rfl
  | cons block blocks ih =>
    rw [List.length_cons, Nat.mul_succ] at h
    have hperiod : period ≤ stream.length := by omega
    have hrest : period * blocks.length ≤ (stream.drop period).length := by
      rw [List.length_drop]
      omega
    simp only [insertBlocks, List.take_append_of_le_length hperiod,
      List.drop_append_of_le_length hperiod, ih _ hrest, List.append_assoc]

theorem insertBlocks_append_block (period : ℕ) (stream block : List α) (blocks : List (List α))
    (h : stream.length = period * (blocks.length + 1)) :
    insertBlocks period stream (blocks ++ [block]) =
      insertBlocks period stream blocks ++ block := by
  induction blocks generalizing stream with
  | nil =>
    have hlen : stream.length ≤ period := by simpa using h.le
    simp [insertBlocks, List.take_of_length_le hlen, List.drop_of_length_le hlen]
  | cons head blocks ih =>
    rw [List.length_cons, Nat.mul_succ] at h
    have hrest : (stream.drop period).length = period * (blocks.length + 1) := by
      rw [List.length_drop]
      omega
    simp only [List.cons_append, insertBlocks, ih _ hrest, List.append_assoc]

end Icecast.Lib.Interleave
