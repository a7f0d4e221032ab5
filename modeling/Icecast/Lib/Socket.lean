import Mathlib.Algebra.Order.Ring.Int

/-!
# Non-blocking writes and reads

A socket is what its peer has been given so far together with the outcomes of the writes still
to come. One write consumes one outcome: it fails, or it accepts a prefix of what it was offered.
In the other direction a read takes a prefix of what the peer has sent, as long as what has arrived
and the reader's buffer allow.
-/

namespace Icecast.Lib.Socket

/-- The outcome of one write: an error, or a bound on how much is accepted. -/
inductive WriteOutcome where
  | fail
  | accept (limit : ℕ)
  deriving DecidableEq, Repr

structure Conn (α : Type*) where
  outcomes : List WriteOutcome
  sent : List α
  deriving DecidableEq, Repr

variable {α : Type*}

/-- One write of `buf`. A socket without outcomes left would block, which is a failed write too. -/
def Conn.write (conn : Conn α) (buf : List α) : ℤ × Conn α :=
  match conn.outcomes with
  | [] => (-1, conn)
  | .fail :: rest => (-1, { conn with outcomes := rest })
  | .accept limit :: rest =>
    (min limit buf.length, { outcomes := rest, sent := conn.sent ++ buf.take limit })

/-- What a write does to the stream is determined by the number it returns. -/
theorem Conn.write_spec (conn : Conn α) (buf : List α) :
    -1 ≤ (conn.write buf).1 ∧ (conn.write buf).1 ≤ buf.length ∧
      (conn.write buf).2.sent = conn.sent ++ buf.take (conn.write buf).1.toNat := by
  unfold Conn.write
  split
  · simp
  · simp
  · rename_i limit rest _
    have htake : buf.take (min limit buf.length) = buf.take limit := by
      rcases Nat.le_total limit buf.length with h | h
      · rw [Nat.min_eq_left h]
      · rw [Nat.min_eq_right h, List.take_length, List.take_of_length_le h]
    have hnat : (min (limit : ℤ) buf.length).toNat = min limit buf.length := by omega
    refine ⟨by omega, by omega, ?_⟩
    simp only [hnat, htake]

/-- One read into a buffer of `len` elements when `limit` have arrived: what it brings, and what is
left for the next one. -/
def readBytes (incoming : List α) (limit len : ℕ) : List α × List α :=
  incoming.splitAt (min limit len)

theorem readBytes_append (incoming : List α) (limit len : ℕ) :
    (readBytes incoming limit len).1 ++ (readBytes incoming limit len).2 = incoming := by
  simp [readBytes]

theorem readBytes_length_le (incoming : List α) (limit len : ℕ) :
    (readBytes incoming limit len).1.length ≤ len := by
  simp only [readBytes, List.splitAt_eq, List.length_take]
  omega

end Icecast.Lib.Socket
