import Icecast.Source.QueueInvariant

/-!
# Where a listener starts on the queue

`find_client_start` counts `intro_offset` bytes down from the burst point and takes the next sync
point. The countdown is an unsigned subtraction of whole buffers that stops at zero only, so it is
right as long as it comes out even: a buffer in which the offset ends makes it wrap around, and the
listener is looked for a place at the end of the queue. An offset of `-1` is such a large number
from the start.
-/

namespace Icecast.Source.Queue

open Lib.LinkedList Lib.Machine Lib.MachineInt

/-! ## What is meant -/

/-- The bytes in front of the buffer at position `i`. -/
def skipped (buffers : List Refbuf) (i : ℕ) : ℕ := ((buffers.take i).map (·.len)).sum

/-- The first position at which `k` bytes have been skipped; the last one if there are fewer. -/
def skipIndex (buffers : List Refbuf) (k : ℕ) : ℕ :=
  ((List.range buffers.length).find? fun i ↦ k ≤ skipped buffers i).getD (buffers.length - 1)

/-- The first sync point at or behind the position, among the buffers from the burst point on. -/
def expectedStart (s : SourceState) (nodes : List ℕ) (introOffset : ℤ) : Option ℕ :=
  let first := if introOffset = -1 then 0 else skipIndex (nodes.map s.heap) introOffset.toNat
  (nodes.drop first).find? fun addr ↦ (s.heap addr).syncPoint

/-- A listener without a buffer, placed at one or left as it is. -/
def started (client : Client) : Option ℕ → Client
  | none => client
  | some addr => ⟨some addr, -1, true⟩

/-! ## The countdown -/

/-- Some subtraction of the loop takes more than there is left. -/
def countdownWraps (heap : ℕ → Refbuf) : ℕ → ℕ → ℕ → Bool
  | 0, _, _ => false
  | fuel + 1, size, addr =>
    if 0 < size then
      match (heap addr).next with
      | none => false
      | some next =>
        size < (heap addr).len || countdownWraps heap fuel (usub 64 size (heap addr).len) next
    else false

/-- The same for the loop of `find_client_start`. -/
def startWraps (s : SourceState) (introOffset : ℤ) : Bool :=
  match s.burstPoint with
  | none => false
  | some addr => countdownWraps s.heap s.fresh (introOffset % 2 ^ 64).toNat addr

/-- No buffer but the last one begins before byte `k` and ends behind it. -/
def ComesOutEven (buffers : List Refbuf) (k : ℕ) : Prop :=
  ∀ i < buffers.length - 1, ¬(skipped buffers i < k ∧ k < skipped buffers (i + 1))

instance (buffers : List Refbuf) (k : ℕ) : Decidable (ComesOutEven buffers k) :=
  inferInstanceAs (Decidable (∀ i < buffers.length - 1, ¬_))

/-- The offset ends between two buffers, or in the last one. The offset `-1` is counted as
`2 ^ 64 - 1` bytes, and there must be no sync point before these have been skipped. -/
def EvenOffset (s : SourceState) (nodes : List ℕ) (introOffset : ℤ) : Prop :=
  if introOffset = -1 then
    ComesOutEven (nodes.map s.heap) (2 ^ 64 - 1) ∧
      ∀ addr ∈ nodes.take (skipIndex (nodes.map s.heap) (2 ^ 64 - 1)),
        (s.heap addr).syncPoint = false
  else ComesOutEven (nodes.map s.heap) introOffset.toNat

instance (s : SourceState) (nodes : List ℕ) (introOffset : ℤ) :
    Decidable (EvenOffset s nodes introOffset) :=
  inferInstanceAs (Decidable (if introOffset = -1 then _ else _))

/-- The queue from the burst point on, up to the tail. -/
structure BurstQueue (s : SourceState) (nodes : List ℕ) : Prop where
  chain : Chain (nextOf s) s.burstPoint nodes
  tail_eq : s.streamDataTail = nodes.getLast?
  length_le : nodes.length ≤ s.fresh

/-- In every reachable state the second part of the queue is such a list. -/
theorem QueueInv.burstQueue {s : SourceState} {front back : List ℕ} (inv : QueueInv s front back) :
    BurstQueue s back := by
  have hlength := inv.length_le
  rw [List.length_append] at hlength
  cases back with
  | nil =>
    have hfront := inv.burst_mem rfl
    refine ⟨inv.burst_eq, ?_, by simp⟩
    rw [inv.tail_eq, hfront]
    rfl
  | cons addr rest =>
    refine ⟨?_, ?_, by omega⟩
    · rw [inv.burst_eq]
      exact Chain.suffix inv.chain
    · rw [inv.tail_eq, List.getLast?_append_of_ne_nil _ (by simp)]

/-! ## Skipping buffer by buffer -/

theorem skipped_cons (buffer : Refbuf) (buffers : List Refbuf) (i : ℕ) :
    skipped (buffer :: buffers) (i + 1) = buffer.len + skipped buffers i := by
  simp [skipped]

theorem skipIndex_zero (buffers : List Refbuf) : skipIndex buffers 0 = 0 := by
  cases buffers with
  | nil => rfl
  | cons buffer buffers => simp [skipIndex, List.range_succ_eq_map]

theorem skipIndex_cons (buffer : Refbuf) {buffers : List Refbuf} (hbuffers : buffers ≠ []) {k : ℕ}
    (hk : 0 < k) :
    skipIndex (buffer :: buffers) k = skipIndex buffers (k - buffer.len) + 1 := by
  have hlength := List.length_pos_iff.mpr hbuffers
  have hcond : (fun i ↦ decide (k ≤ skipped (buffer :: buffers) (i + 1))) =
      fun i ↦ decide (k - buffer.len ≤ skipped buffers i) := by
    funext i
    rw [skipped_cons]
    exact decide_eq_decide.mpr (by omega)
  have hzero : ¬k ≤ skipped (buffer :: buffers) 0 := by
    simp only [skipped, List.take_zero, List.map_nil, List.sum_nil]
    omega
  simp only [skipIndex, List.length_cons, List.range_succ_eq_map, List.find?_cons, hzero,
    decide_false, List.find?_map, Function.comp_def, Nat.succ_eq_add_one, hcond]
  cases (List.range buffers.length).find? fun i ↦ decide (k - buffer.len ≤ skipped buffers i) with
  | none =>
    simp only [Option.map_none, Option.getD_none]
    omega
  | some i => rfl

theorem comesOutEven_zero (buffers : List Refbuf) : ComesOutEven buffers 0 := by
  intro i _ h
  omega

theorem comesOutEven_singleton (buffer : Refbuf) (k : ℕ) : ComesOutEven [buffer] k := by
  intro i hi
  simp at hi

theorem comesOutEven_cons (buffer : Refbuf) {buffers : List Refbuf} (hbuffers : buffers ≠ [])
    {k : ℕ} (hk : 0 < k) :
    ComesOutEven (buffer :: buffers) k ↔
      buffer.len ≤ k ∧ ComesOutEven buffers (k - buffer.len) := by
  have hlength := List.length_pos_iff.mpr hbuffers
  constructor
  · intro heven
    have hfirst := heven 0 (by simp; omega)
    rw [skipped_cons] at hfirst
    simp only [skipped, List.take_zero, List.map_nil, List.sum_nil] at hfirst
    refine ⟨by omega, ?_⟩
    intro i hi
    have hnext := heven (i + 1) (by simp only [List.length_cons]; omega)
    rw [skipped_cons, skipped_cons] at hnext
    omega
  · rintro ⟨hle, heven⟩ i hi
    cases i with
    | zero =>
      rw [skipped_cons]
      simp only [skipped, List.take_zero, List.map_nil, List.sum_nil]
      omega
    | succ i =>
      have hnext := heven i (by simp only [List.length_cons] at hi; omega)
      rw [skipped_cons, skipped_cons]
      omega

/-! ## The loops along the queue -/

variable {s : SourceState} {addr : ℕ} {rest : List ℕ}

theorem countdownWraps_eq_false_iff {fuel size : ℕ}
    (hchain : Chain (nextOf s) (some addr) (addr :: rest)) (hfuel : rest.length < fuel)
    (hsize : size < 2 ^ 64) :
    countdownWraps s.heap fuel size addr = false ↔
      ComesOutEven ((addr :: rest).map s.heap) size := by
  induction rest generalizing fuel size addr with
  | nil =>
    obtain ⟨fuel, rfl⟩ : ∃ n, fuel = n + 1 := ⟨fuel - 1, by omega⟩
    have hnext : (s.heap addr).next = none := hchain.2
    simp only [countdownWraps, hnext, ite_self]
    exact iff_of_true trivial (comesOutEven_singleton _ _)
  | cons next rest ih =>
    obtain ⟨fuel, rfl⟩ : ∃ n, fuel = n + 1 := ⟨fuel - 1, by simp at hfuel; omega⟩
    have hnext : (s.heap addr).next = some next := hchain.2.1
    simp only [countdownWraps, hnext]
    by_cases hpos : 0 < size
    · rw [if_pos hpos, List.map_cons, comesOutEven_cons _ (by simp) hpos]
      by_cases hle : (s.heap addr).len ≤ size
      · rw [usub_of_le hle hsize, Bool.or_eq_false_iff,
          ih ⟨rfl, hchain.2.2⟩ (by simp at hfuel; omega) (by omega)]
        simp [hle]
      · simp [hle, Nat.lt_of_not_le hle]
    · rw [if_neg hpos, Nat.eq_zero_of_not_pos hpos]
      exact iff_of_true rfl (comesOutEven_zero _)

/-- A countdown that comes out even ends where it is meant to. -/
theorem skipBytes_eq {fuel size : ℕ} (hchain : Chain (nextOf s) (some addr) (addr :: rest))
    (hfuel : rest.length < fuel) (hsize : size < 2 ^ 64)
    (heven : ComesOutEven ((addr :: rest).map s.heap) size) :
    ((addr :: rest).drop (skipIndex ((addr :: rest).map s.heap) size)).head? =
      some (skipBytes s.heap fuel size addr) := by
  induction rest generalizing fuel size addr with
  | nil =>
    obtain ⟨fuel, rfl⟩ : ∃ n, fuel = n + 1 := ⟨fuel - 1, by omega⟩
    have hnext : (s.heap addr).next = none := hchain.2
    have hindex : skipIndex [s.heap addr] size = 0 := by
      unfold skipIndex
      cases hfound : (List.range [s.heap addr].length).find?
          fun i ↦ decide (size ≤ skipped [s.heap addr] i) with
      | none => rfl
      | some i => simpa using List.mem_of_find?_eq_some hfound
    simp [skipBytes, hnext, hindex]
  | cons next rest ih =>
    obtain ⟨fuel, rfl⟩ : ∃ n, fuel = n + 1 := ⟨fuel - 1, by simp at hfuel; omega⟩
    have hnext : (s.heap addr).next = some next := hchain.2.1
    simp only [skipBytes, hnext]
    by_cases hpos : 0 < size
    · rw [List.map_cons, comesOutEven_cons _ (by simp) hpos] at heven
      rw [if_pos hpos, List.map_cons, skipIndex_cons _ (by simp) hpos, List.drop_succ_cons,
        usub_of_le heven.1 hsize]
      exact ih ⟨rfl, hchain.2.2⟩ (by simp at hfuel; omega) (by omega) heven.2
    · rw [if_neg hpos, Nat.eq_zero_of_not_pos hpos, skipIndex_zero]
      rfl

theorem findSyncPoint_eq {fuel : ℕ} (hchain : Chain (nextOf s) (some addr) (addr :: rest))
    (hfuel : rest.length < fuel) :
    findSyncPoint s.heap fuel addr = (addr :: rest).find? fun addr ↦ (s.heap addr).syncPoint := by
  induction rest generalizing fuel addr with
  | nil =>
    obtain ⟨fuel, rfl⟩ : ∃ n, fuel = n + 1 := ⟨fuel - 1, by omega⟩
    have hnext : (s.heap addr).next = none := hchain.2
    simp only [findSyncPoint, hnext, List.find?_cons, List.find?_nil]
    cases (s.heap addr).syncPoint <;> rfl
  | cons next rest ih =>
    obtain ⟨fuel, rfl⟩ : ∃ n, fuel = n + 1 := ⟨fuel - 1, by simp at hfuel; omega⟩
    have hnext : (s.heap addr).next = some next := hchain.2.1
    have hfound := ih ⟨rfl, hchain.2.2⟩ (show rest.length < fuel by simp at hfuel; omega)
    simp only [findSyncPoint, hnext, hfound]
    by_cases hsync : (s.heap addr).syncPoint
    · simp [hsync]
    · simp [hsync, List.find?_cons]

/-! ## The search -/

variable {nodes : List ℕ} {introOffset : ℤ}

theorem BurstQueue.startWraps_eq_false_iff (hqueue : BurstQueue s nodes) :
    startWraps s introOffset = false ↔
      ComesOutEven (nodes.map s.heap) (introOffset % 2 ^ 64).toNat := by
  have hburst := hqueue.chain.head?_eq
  have hlength := hqueue.length_le
  cases nodes with
  | nil =>
    have hnone : s.burstPoint = none := hburst.symm
    simp only [startWraps, hnone, List.map_nil]
    exact iff_of_true trivial fun i hi ↦ by simp at hi
  | cons addr rest =>
    have hsome : s.burstPoint = some addr := hburst.symm
    have hchain := hqueue.chain
    rw [hsome] at hchain
    simp only [startWraps, hsome]
    exact countdownWraps_eq_false_iff hchain (Nat.lt_of_succ_le hlength) (by omega)

/-- The search from the buffer a countdown that came out even has reached. -/
theorem BurstQueue.search_eq (hqueue : BurstQueue s nodes)
    (hcount : ∀ tail, introOffset = -1 → s.streamDataTail = some tail →
      (s.heap tail).syncPoint = false)
    (heven : ComesOutEven (nodes.map s.heap) (introOffset % 2 ^ 64).toNat) :
    (startOfSearch s introOffset).bind (findSyncPoint s.heap s.fresh) =
      (nodes.drop (skipIndex (nodes.map s.heap) (introOffset % 2 ^ 64).toNat)).find?
        fun addr ↦ (s.heap addr).syncPoint := by
  have hstart : startOfSearch s introOffset =
      s.burstPoint.map (skipBytes s.heap s.fresh (introOffset % 2 ^ 64).toNat) := by
    unfold startOfSearch
    split
    · rename_i tail htail
      rw [if_neg]
      rintro ⟨hnew, hsync⟩
      rw [hcount tail hnew htail] at hsync
      cases hsync
    · rfl
  have hburst := hqueue.chain.head?_eq
  have hlength := hqueue.length_le
  rw [hstart]
  cases nodes with
  | nil =>
    have hnone : s.burstPoint = none := hburst.symm
    simp [hnone]
  | cons addr rest =>
    have hsome : s.burstPoint = some addr := hburst.symm
    have hchain := hqueue.chain
    rw [hsome] at hchain
    have hhead := @skipBytes_eq s addr rest s.fresh (introOffset % 2 ^ 64).toNat hchain
      (Nat.lt_of_succ_le hlength) (by omega) heven
    set start := skipBytes s.heap s.fresh (introOffset % 2 ^ 64).toNat addr
    set index := skipIndex ((addr :: rest).map s.heap) (introOffset % 2 ^ 64).toNat
    obtain ⟨behind, hbehind⟩ : ∃ behind, (addr :: rest).drop index = start :: behind :=
      ⟨_, List.eq_cons_of_mem_head? hhead⟩
    have hsplit : addr :: rest = (addr :: rest).take index ++ start :: behind := by
      rw [← hbehind, List.take_append_drop]
    have hsuffix : Chain (nextOf s) (some start) (start :: behind) := by
      rw [hsplit] at hchain
      exact Chain.suffix hchain
    have hshort : behind.length < s.fresh := by
      have hcut := congrArg List.length hsplit
      simp only [List.length_append, List.length_cons] at hcut hlength
      omega
    simp only [hsome, Option.map_some, Option.bind_some, hbehind]
    exact findSyncPoint_eq hsuffix hshort

theorem started_refbuf {client : Client} (hrefbuf : client.refbuf = none) (target : Option ℕ) :
    (started client target).refbuf = target := by
  cases target with
  | none => exact hrefbuf
  | some addr => rfl

theorem findClientStart_client {i : ℕ} {client : Client} (hclient : s.clients[i]? = some client) :
    (findClientStart s i).clients[i]? = some (started client
      ((startOfSearch s client.introOffset).bind (findSyncPoint s.heap s.fresh))) := by
  simp only [findClientStart, hclient]
  cases (startOfSearch s client.introOffset).bind (findSyncPoint s.heap s.fresh) with
  | none => simpa [started] using hclient
  | some addr =>
    obtain ⟨heap, hstate, -⟩ := clientSetQueue_eq hclient ⟨some addr, -1, true⟩
    obtain ⟨hlt, -⟩ := List.getElem?_eq_some_iff.mp hclient
    simp [hstate, started, hlt]

/-- Dropping a part of a list does not change what is found first if and only if nothing is found
in that part. -/
theorem find?_drop_eq_iff {α : Type*} {items : List α} (hnodup : items.Nodup) (p : α → Bool)
    (n : ℕ) : (items.drop n).find? p = items.find? p ↔ ∀ item ∈ items.take n, p item = false := by
  have hwhole : items.find? p = ((items.take n).find? p).or ((items.drop n).find? p) := by
    rw [← List.find?_append, List.take_append_drop]
  rw [hwhole]
  constructor
  · intro hsame item hitem
    by_contra hp
    cases hfound : (items.take n).find? p with
    | none => exact hp (by simpa using List.find?_eq_none.mp hfound item hitem)
    | some first =>
      rw [hfound, Option.some_or] at hsame
      rw [← List.take_append_drop n items, List.nodup_append] at hnodup
      exact hnodup.2.2 first (List.mem_of_find?_eq_some hfound) first
        (List.mem_of_find?_eq_some hsame) rfl
  · intro hnone
    have hpart : (items.take n).find? p = none := List.find?_eq_none.mpr (by simpa using hnone)
    rw [hpart, Option.none_or]

/-- A listener without a buffer is placed at the buffer that is meant, and the countdown does not
wrap around, if and only if the offset comes out even. -/
theorem find_client_start_iff_evenOffset (hqueue : BurstQueue s nodes) {i : ℕ} {client : Client}
    (hclient : s.clients[i]? = some client) (hrefbuf : client.refbuf = none)
    (hlow : -1 ≤ client.introOffset) (hhigh : client.introOffset < 2 ^ 63)
    (htail : ∀ tail, client.introOffset = -1 → s.streamDataTail = some tail →
      (s.heap tail).syncPoint = false) :
    (findClientStart s i).clients[i]? =
          some (started client (expectedStart s nodes client.introOffset)) ∧
        startWraps s client.introOffset = false ↔
      EvenOffset s nodes client.introOffset := by
  rw [findClientStart_client hclient, hqueue.startWraps_eq_false_iff]
  by_cases hnew : client.introOffset = -1
  · have hcount : (client.introOffset % 2 ^ 64).toNat = 2 ^ 64 - 1 := by
      rw [hnew]
      decide
    simp only [EvenOffset, expectedStart, if_pos hnew, hcount, List.drop_zero]
    rw [and_comm]
    apply and_congr_right
    intro heven
    rw [hqueue.search_eq htail (hcount ▸ heven), hcount,
      ← find?_drop_eq_iff hqueue.chain.nodup, Option.some_inj]
    constructor
    · intro hsame
      rw [← started_refbuf hrefbuf ((nodes.drop _).find? _), hsame, started_refbuf hrefbuf]
    · intro hsame
      rw [hsame]
  · have hcount : (client.introOffset % 2 ^ 64).toNat = client.introOffset.toNat := by omega
    simp only [EvenOffset, expectedStart, if_neg hnew, hcount]
    constructor
    · exact And.right
    · intro heven
      rw [hqueue.search_eq htail (hcount ▸ heven), hcount]
      exact ⟨rfl, heven⟩

theorem skipped_le (buffers : List Refbuf) (i : ℕ) :
    skipped buffers i ≤ (buffers.map (·.len)).sum := by
  conv_rhs => rw [← List.take_append_drop i buffers, List.map_append, List.sum_append]
  exact Nat.le_add_right _ _

/-- On a queue of a size that occurs, the offset `-1` comes out even only if there is no sync point
in front of the tail. -/
theorem evenOffset_neg_one_iff
    (hshort : ((nodes.map s.heap).map (·.len)).sum < 2 ^ 64 - 1) :
    EvenOffset s nodes (-1) ↔ ∀ addr ∈ nodes.dropLast, (s.heap addr).syncPoint = false := by
  have hskipped (i : ℕ) : skipped (nodes.map s.heap) i < 2 ^ 64 - 1 :=
    (skipped_le _ i).trans_lt hshort
  have heven : ComesOutEven (nodes.map s.heap) (2 ^ 64 - 1) := by
    intro i _ h
    exact absurd h.2 (Nat.not_lt.mpr (hskipped (i + 1)).le)
  have hindex : skipIndex (nodes.map s.heap) (2 ^ 64 - 1) = nodes.length - 1 := by
    have hnone : (List.range (nodes.map s.heap).length).find?
        (fun i ↦ decide (2 ^ 64 - 1 ≤ skipped (nodes.map s.heap) i)) = none := by
      rw [List.find?_eq_none]
      intro i _ h
      exact absurd (of_decide_eq_true h) (Nat.not_le.mpr (hskipped i))
    rw [skipIndex, hnone, List.length_map]
    rfl
  rw [EvenOffset, if_pos rfl, hindex, ← List.dropLast_eq_take]
  exact and_iff_right heven

/-- Three sync points of 10, 20 and 30 bytes and a tail that is none, with a listener that has been
sent an intro file of the given length. -/
def introQueue (introOffset : ℤ) : SourceState :=
  run step startSource [.setBurstSize 100, .append 10 true, .append 20 true, .append 30 true,
    .append 5 false, .arrive introOffset]

theorem burstQueue_introQueue (introOffset : ℤ) : BurstQueue (introQueue introOffset) [0, 1, 2, 3] := by
  refine ⟨⟨rfl, rfl, rfl, rfl, rfl⟩, rfl, ?_⟩
  exact Nat.le_refl 4

/-- After 30 bytes the third buffer begins. -/
theorem find_client_start_even :
    let s := introQueue 30
    expectedStart s [0, 1, 2, 3] 30 = some 2 ∧
      (findClientStart s 0).clients[0]? =
        some (started ⟨none, 30, false⟩ (expectedStart s [0, 1, 2, 3] 30)) ∧
      startWraps s 30 = false := by
  have hclient : (introQueue 30).clients[0]? = some ⟨none, 30, false⟩ := rfl
  exact ⟨by decide +kernel, (find_client_start_iff_evenOffset (burstQueue_introQueue 30) hclient rfl
    (by decide) (by decide) fun _ h ↦ absurd h (by decide)).mpr (by decide +kernel)⟩

/-- Byte 15 lies inside the second buffer: the countdown wraps around there and the listener is not
placed at all. Neither is one that comes from another source. -/
theorem not_find_client_start_of_odd_offset :
    let s := introQueue 15
    let moved := introQueue (-1)
    startWraps s 15 = true ∧ expectedStart s [0, 1, 2, 3] 15 = some 2 ∧
      (findClientStart s 0).clients[0]? = some ⟨none, 15, false⟩ ∧
      expectedStart moved [0, 1, 2, 3] (-1) = some 0 ∧
      (findClientStart moved 0).clients[0]? = some ⟨none, -1, false⟩ := by
  decide +kernel

end Icecast.Source.Queue
