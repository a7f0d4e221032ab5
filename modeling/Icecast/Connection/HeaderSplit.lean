import Icecast.Connection.Reuse

/-!
# Where a request header ends

`process_request_queue` looks for the end of the header in all that has been read so far, once for each
kind of line end. The kinds are tried one after the other. If part of the body has been read along with
the header, a blank line of an earlier kind in the body is found before the one at the end of the header,
and what stands between them is taken for header. Whether that happens depends on how the request was
cut into reads.

The end of the header proper is `frameEnd endsHeader`, the end of the first blank line of any kind.
-/

namespace Icecast.Connection.HeaderSplit

open Lib.CString Lib.Framing Lib.Machine Lib.Socket Reuse

/-! ## The searches -/

/-- What has been read holds no blank line of a kind that is searched for before that of the header. -/
def NoEarlierKind (data : Bytes) (n : ℕ) : Prop :=
  (crLf <:+ data.take n → ¬ doubledCr <:+: cString data) ∧
    (lf <:+ data.take n → ¬ doubledCr <:+: cString data ∧ ¬ crLf <:+: cString data)

instance (data : Bytes) (n : ℕ) : Decidable (NoEarlierKind data n) :=
  inferInstanceAs (Decidable (_ ∧ _))

section Searches

variable {data pattern : Bytes} {n ptr : ℕ}

/-- A header does not end with blank lines of two kinds. -/
theorem eq_of_suffix {first second : Bytes}
    (hfirst : first = doubledCr ∨ first = crLf ∨ first = lf)
    (hsecond : second = doubledCr ∨ second = crLf ∨ second = lf) {text : Bytes}
    (h : first <:+ text) (h' : second <:+ text) : first = second := by
  have hcases := List.suffix_or_suffix_of_suffix h h'
  rcases hfirst with rfl | rfl | rfl <;> rcases hsecond with rfl | rfl | rfl <;>
    first | rfl | exact absurd hcases (by decide)

/-- No search finds a place before the end of the header. -/
theorem le_of_strstr (hframe : frameEnd endsHeader data = some n)
    (hpattern : pattern = doubledCr ∨ pattern = crLf ∨ pattern = lf)
    (h : strstr pattern (cString data) = some ptr) : n ≤ ptr + pattern.length := by
  obtain ⟨hle, hends⟩ := endsHeader_of_strstr hpattern h
  obtain ⟨first, hfirst, hsame⟩ := exists_frameEnd_le hle hends
  rw [hframe, Option.some.injEq] at hsame
  omega

theorem length_le_cString (hframe : frameEnd endsHeader data = some n) :
    n ≤ (cString data).length := by
  obtain ⟨hle, hends, -⟩ := frameEnd_eq_some_iff.mp hframe
  have hzero : 0 ∉ data.take n := by
    have hboth := of_decide_eq_true hends
    exact hboth.1
  have hcString : cString data = data.take n ++ cString (data.drop n) := by
    conv_lhs => rw [cString, ← List.take_append_drop n data]
    exact takeWhile_ne_append hzero _
  rw [hcString, List.length_append, List.length_take_of_le hle]
  exact Nat.le_add_right n _

/-- The search for the blank line at the end of the header finds it there. -/
theorem strstr_of_suffix (hframe : frameEnd endsHeader data = some n)
    (hpattern : pattern = doubledCr ∨ pattern = crLf ∨ pattern = lf)
    (hsuffix : pattern <:+ data.take n) :
    ∃ ptr, strstr pattern (cString data) = some ptr ∧ ptr + pattern.length = n := by
  have hlong := length_le_cString hframe
  rw [take_cString hlong] at hsuffix
  have hlength := hsuffix.length_le
  rw [List.length_take_of_le hlong] at hlength
  have hplace : pattern <+: (cString data).drop (n - pattern.length) := by
    obtain ⟨front, hfront⟩ := hsuffix
    have hcut : front.length = n - pattern.length := by
      have htotal := congrArg List.length hfront
      rw [List.length_append, List.length_take_of_le hlong] at htotal
      omega
    rw [← hcut, ← List.take_append_drop n (cString data), ← hfront, List.append_assoc,
      List.drop_left]
    exact List.prefix_append pattern _
  obtain ⟨found, hfound, hstrstr⟩ := exists_strstr_le hplace
  have hle := le_of_strstr hframe hpattern hstrstr
  exact ⟨found, hstrstr, by omega⟩

/-- A search for another kind does not end at the end of the header. -/
theorem ne_of_other_kind {other : Bytes} (hframe : frameEnd endsHeader data = some n)
    (hpattern : pattern = doubledCr ∨ pattern = crLf ∨ pattern = lf)
    (hother : other = doubledCr ∨ other = crLf ∨ other = lf) (hne : pattern ≠ other)
    (hsuffix : other <:+ data.take n) (hfound : strstr pattern (cString data) = some ptr) :
    ptr + pattern.length ≠ n := by
  intro heq
  have hat := suffix_take_of_strstr hfound
  rw [heq, ← take_cString (length_le_cString hframe)] at hat
  exact hne (eq_of_suffix hpattern hother hat hsuffix)

/-- The code takes the data from behind the header if and only if no other blank line is in the way. -/
theorem streamOffset_eq_iff (hframe : frameEnd endsHeader data = some n) :
    streamOffset data = some n ↔ NoEarlierKind data n := by
  have hends : doubledCr <:+ data.take n ∨ crLf <:+ data.take n ∨ lf <:+ data.take n := by
    have hboth := of_decide_eq_true (frameEnd_eq_some_iff.mp hframe).2.1
    exact hboth.2
  rcases hends with hdoubled | hcrLf | hlf
  · obtain ⟨ptr, hfound, hptr⟩ := strstr_of_suffix hframe (Or.inl rfl) hdoubled
    have hoffset : streamOffset data = some n := by
      rw [streamOffset, hfound]
      exact congrArg some hptr
    refine iff_of_true hoffset ⟨fun hsuffix ↦ ?_, fun hsuffix ↦ ?_⟩
    · exact absurd (eq_of_suffix (by simp) (by simp) hdoubled hsuffix) (by decide)
    · exact absurd (eq_of_suffix (by simp) (by simp) hdoubled hsuffix) (by decide)
  · obtain ⟨ptr, hfound, hptr⟩ := strstr_of_suffix hframe (Or.inr (Or.inl rfl)) hcrLf
    have hnotlf : ¬ lf <:+ data.take n := fun hsuffix ↦
      absurd (eq_of_suffix (by simp) (by simp) hcrLf hsuffix) (by decide)
    simp only [NoEarlierKind, hcrLf, hnotlf, forall_const, false_implies, and_true,
      ← strstr_eq_none_iff]
    unfold streamOffset
    cases hearlier : strstr doubledCr (cString data) with
    | none =>
      rw [hfound]
      exact iff_of_true (congrArg some hptr) rfl
    | some earlier =>
      have hne := ne_of_other_kind hframe (by simp) (by simp) (by decide) hcrLf hearlier
      exact iff_of_false (fun heq ↦ hne (Option.some.inj heq)) (Option.some_ne_none earlier)
  · obtain ⟨ptr, hfound, hptr⟩ := strstr_of_suffix hframe (Or.inr (Or.inr rfl)) hlf
    have hnotcrLf : ¬ crLf <:+ data.take n := fun hsuffix ↦
      absurd (eq_of_suffix (by simp) (by simp) hlf hsuffix) (by decide)
    simp only [NoEarlierKind, hlf, hnotcrLf, forall_const, false_implies, true_and,
      ← strstr_eq_none_iff]
    unfold streamOffset
    cases hearlier : strstr doubledCr (cString data) with
    | none =>
      cases hsecond : strstr crLf (cString data) with
      | none =>
        rw [hfound]
        exact iff_of_true (congrArg some hptr) ⟨rfl, rfl⟩
      | some second =>
        have hne := ne_of_other_kind hframe (by simp) (by simp) (by decide) hlf hsecond
        exact iff_of_false (fun heq ↦ hne (Option.some.inj heq)) (fun h ↦ Option.some_ne_none second h.2)
    | some earlier =>
      have hne := ne_of_other_kind hframe (by simp) (by simp) (by decide) hlf hearlier
      exact iff_of_false (fun heq ↦ hne (Option.some.inj heq)) (fun h ↦ Option.some_ne_none earlier h.1)

end Searches

/-! ## Reading -/

/-- The reads, by what each of them may bring. -/
def visits (limits : List ℕ) : List Reuse.Event := limits.map fun limit ↦ .visit (.bytes limit)

/-- A read brings what has arrived, as far as it fits into the buffer. -/
def afterRead (stream : Bytes) (count limit : ℕ) : ℕ :=
  min (count + limit) (min stream.length (perClientRefbufSize - 1))

/-- How much has been read when the header is complete or there are no more reads. -/
def arrived (stream : Bytes) (n : ℕ) : ℕ → List ℕ → ℕ
  | count, [] => count
  | count, limit :: limits =>
    if n ≤ count then count else arrived stream n (afterRead stream count limit) limits

/-- The client has read this much of the stream and waits for more. -/
structure Reading (stream : Bytes) (count : ℕ) (state : State) : Prop where
  stage : state.stage = .reading
  notFound : streamOffset (stream.take count) = none
  reuse : state.reuse = .close
  received : state.received = stream.take count
  refbuf : state.refbuf = stream.take count
  incoming : state.incoming = stream.drop count
  offset : state.offset = count
  le : count ≤ min stream.length (perClientRefbufSize - 1)

theorem reading_accepted (stream : Bytes) : Reading stream 0 (accepted stream) :=
  ⟨rfl, rfl, rfl, rfl, rfl, rfl, rfl, Nat.zero_le _⟩

/-- The client is in the connection queue with what it has read. -/
structure Handling (stream : Bytes) (count offset : ℕ) (state : State) : Prop where
  stage : state.stage = .handling offset
  found : streamOffset (stream.take count) = some offset
  received : state.received = stream.take count
  refbuf : state.refbuf = stream.take count
  incoming : state.incoming = stream.drop count
  offset : state.offset = count
  le : count ≤ stream.length

section Visits

variable {stream : Bytes} {count limit n : ℕ} {state : State}

theorem afterRead_eq (hle : count ≤ min stream.length (perClientRefbufSize - 1)) (limit : ℕ) :
    afterRead stream count limit =
      min (count + min limit (perClientRefbufSize - 1 - count)) stream.length := by
  unfold afterRead
  omega

/-- What the read brings, and what is left. -/
theorem readBytes_drop (hle : count ≤ min stream.length (perClientRefbufSize - 1)) (limit : ℕ) :
    let read := readBytes (stream.drop count) limit (perClientRefbufSize - 1 - count)
    stream.take count ++ read.1 = stream.take (afterRead stream count limit) ∧
      read.2 = stream.drop (afterRead stream count limit) ∧
      count + read.1.length = afterRead stream count limit := by
  rw [afterRead_eq hle]
  have htake (m : ℕ) : stream.take (min m stream.length) = stream.take m := by
    rcases Nat.le_total m stream.length with h | h
    · rw [Nat.min_eq_left h]
    · rw [Nat.min_eq_right h, List.take_of_length_le h, List.take_length]
  have hdrop (m : ℕ) : stream.drop (min m stream.length) = stream.drop m := by
    rcases Nat.le_total m stream.length with h | h
    · rw [Nat.min_eq_left h]
    · rw [Nat.min_eq_right h, List.drop_of_length_le h, List.drop_length]
  refine ⟨?_, ?_, ?_⟩
  · rw [htake, List.take_add]
    simp [readBytes]
  · rw [hdrop, ← List.drop_drop]
    simp [readBytes]
  · simp only [readBytes, List.splitAt_eq, List.length_take, List.length_drop]
    omega

/-- What the next read leaves: the client is turned away when its buffer is full, and is otherwise
handed over as soon as one of the searches finds something. -/
theorem Reading.visit (h : Reading stream count state) (limit : ℕ) :
    (count = perClientRefbufSize - 1 ∧ (Reuse.step state (.visit (.bytes limit))).stage = .gone) ∨
      Reading stream (afterRead stream count limit) (Reuse.step state (.visit (.bytes limit))) ∨
      ∃ offset, Handling stream (afterRead stream count limit) offset
        (Reuse.step state (.visit (.bytes limit))) := by
  have hle := h.le
  have hafter : afterRead stream count limit ≤ min stream.length (perClientRefbufSize - 1) :=
    Nat.min_le_right _ _
  have hread := readBytes_drop hle limit
  have hstep : Reuse.step state (.visit (.bytes limit)) = processRequestQueue state (.bytes limit) := by
    simp only [Reuse.step, h.stage]
  rw [hstep]
  unfold processRequestQueue
  simp only [h.incoming, h.offset]
  generalize readBytes (stream.drop count) limit (perClientRefbufSize - 1 - count) = read
    at hread ⊢
  obtain ⟨data, incoming⟩ := read
  obtain ⟨htake, hdrop, hlength⟩ := hread
  dsimp only at htake hdrop hlength ⊢
  have hbuffer : state.refbuf.take count ++ data = stream.take (afterRead stream count limit) := by
    rw [h.refbuf, List.take_take, Nat.min_self, htake]
  have hreceived : state.received ++ data = stream.take (afterRead stream count limit) := by
    rw [h.received, htake]
  split
  · rename_i hfull
    left
    refine ⟨by omega, ?_⟩
    simp only [clientDestroy, h.reuse]
  · right
    split
    · rename_i hempty
      left
      have hsame : afterRead stream count limit = count := by
        rw [← hlength, hempty]
        rfl
      rw [hsame]
      exact h
    · split
      · rename_i offset hfound
        rw [hbuffer] at hfound
        right
        exact ⟨offset, rfl, hfound, hreceived, hbuffer, hdrop, hlength, by omega⟩
      · rename_i hnone
        rw [hbuffer] at hnone
        left
        exact ⟨h.stage, hnone, h.reuse, hreceived, hbuffer, hdrop, hlength, hafter⟩

/-- A part of the stream that holds the header has the same header. -/
theorem frameEnd_take (hframe : frameEnd endsHeader stream = some n) (hle : n ≤ count) :
    frameEnd endsHeader (stream.take count) = some n := by
  obtain ⟨hlength, hends, hshorter⟩ := frameEnd_eq_some_iff.mp hframe
  refine frameEnd_eq_some_iff.mpr ⟨?_, ?_, ?_⟩
  · rw [List.length_take]
    omega
  · rwa [List.take_take, Nat.min_eq_left hle]
  · intro shorter hlt
    rw [List.take_take, Nat.min_eq_left (by omega)]
    exact hshorter shorter hlt

/-- Something is found if and only if the header is complete. -/
theorem streamOffset_take_ne_none_iff (hframe : frameEnd endsHeader stream = some n) :
    streamOffset (stream.take count) ≠ none ↔ n ≤ count := by
  constructor
  · intro hsome
    obtain ⟨offset, hoffset⟩ := Option.ne_none_iff_exists'.mp hsome
    obtain ⟨hle, first, hfirst, hpart⟩ := frameEnd_of_streamOffset hoffset
    have hwhole := frameEnd_append hpart (stream.drop count)
    rw [List.take_append_drop, hframe, Option.some.injEq] at hwhole
    rw [List.length_take] at hle
    omega
  · intro hle hnone
    have hpart := frameEnd_take hframe hle
    have hends := (of_decide_eq_true (frameEnd_eq_some_iff.mp hpart).2.1).2
    unfold streamOffset at hnone
    split at hnone
    · cases hnone
    · rename_i hdoubled
      split at hnone
      · cases hnone
      · rename_i hcrLf
        split at hnone
        · cases hnone
        · rename_i hlf
          rcases hends with h | h | h
          · obtain ⟨ptr, hfound, -⟩ := strstr_of_suffix hpart (by simp) h
            rw [hdoubled] at hfound
            cases hfound
          · obtain ⟨ptr, hfound, -⟩ := strstr_of_suffix hpart (by simp) h
            rw [hcrLf] at hfound
            cases hfound
          · obtain ⟨ptr, hfound, -⟩ := strstr_of_suffix hpart (by simp) h
            rw [hlf] at hfound
            cases hfound

theorem Reading.lt (h : Reading stream count state)
    (hframe : frameEnd endsHeader stream = some n) : count < n := by
  by_contra hle
  exact (streamOffset_take_ne_none_iff hframe).mpr (Nat.not_lt.mp hle) h.notFound

theorem Handling.le_count {offset : ℕ} (h : Handling stream count offset state)
    (hframe : frameEnd endsHeader stream = some n) : n ≤ count := by
  apply (streamOffset_take_ne_none_iff hframe).mp
  rw [h.found]
  exact nofun

/-- Once a client has left the request queue, it is not read any more. -/
theorem run_visits_of_left (h : state.stage ≠ .reading) (limits : List ℕ) :
    run Reuse.step state (visits limits) = state := by
  induction limits with
  | nil => rfl
  | cons limit limits ih =>
    have hstep : Reuse.step state (.visit (.bytes limit)) = state := by
      unfold Reuse.step
      split
      · rename_i hstage _
        exact absurd hstage h
      · rename_i hevent
        cases hevent
      · rename_i hevent
        cases hevent
      · rfl
    have hcons : visits (limit :: limits) = .visit (.bytes limit) :: visits limits := rfl
    rw [hcons, run_cons, hstep]
    exact ih

theorem arrived_of_le (hle : n ≤ count) (limits : List ℕ) :
    arrived stream n count limits = count := by
  cases limits with
  | nil => rfl
  | cons limit limits => rw [arrived, if_pos hle]

theorem le_arrived (hlength : n ≤ stream.length) (hfits : n ≤ perClientRefbufSize - 1)
    (limits : List ℕ) (hsum : n ≤ count + limits.sum) : n ≤ arrived stream n count limits := by
  induction limits generalizing count with
  | nil => simpa [arrived] using hsum
  | cons limit limits ih =>
    unfold arrived
    split
    · assumption
    · apply ih
      rw [List.sum_cons] at hsum
      unfold afterRead
      omega

/-- The reads bring the client over as soon as the header is complete. -/
theorem Reading.handed_over (hframe : frameEnd endsHeader stream = some n)
    (hfits : n ≤ perClientRefbufSize - 1) (h : Reading stream count state) (limits : List ℕ) :
    Reading stream (arrived stream n count limits) (run Reuse.step state (visits limits)) ∨
      ∃ offset, Handling stream (arrived stream n count limits) offset
        (run Reuse.step state (visits limits)) := by
  induction limits generalizing count state with
  | nil => exact Or.inl h
  | cons limit limits ih =>
    have hlt := h.lt hframe
    have hrun : run Reuse.step state (visits (limit :: limits)) =
        run Reuse.step (Reuse.step state (.visit (.bytes limit))) (visits limits) := rfl
    rw [hrun, arrived, if_neg (Nat.not_le.mpr hlt)]
    rcases h.visit limit with ⟨hfull, -⟩ | hreading | ⟨offset, hhandling⟩
    · omega
    · exact ih hreading
    · have hleft := hhandling.stage
      rw [run_visits_of_left (by rw [hleft]; exact nofun),
        arrived_of_le (hhandling.le_count hframe)]
      exact Or.inr ⟨offset, hhandling⟩

/-- A client whose header does not fit into the buffer is not handed over. -/
theorem Reading.not_handed_over (hframe : frameEnd endsHeader stream = some n)
    (hlong : perClientRefbufSize - 1 < n) (h : Reading stream count state) (limits : List ℕ)
    (offset : ℕ) : (run Reuse.step state (visits limits)).stage ≠ .handling offset := by
  induction limits generalizing count state with
  | nil =>
    have hstage := h.stage
    simp [visits, hstage]
  | cons limit limits ih =>
    have hrun : run Reuse.step state (visits (limit :: limits)) =
        run Reuse.step (Reuse.step state (.visit (.bytes limit))) (visits limits) := rfl
    rw [hrun]
    rcases h.visit limit with ⟨-, hgone⟩ | hreading | ⟨found, hhandling⟩
    · rw [run_visits_of_left (by rw [hgone]; exact nofun), hgone]
      exact nofun
    · exact ih hreading
    · have hle := hhandling.le_count hframe
      have hmost : afterRead stream count limit ≤ perClientRefbufSize - 1 := by
        unfold afterRead
        omega
      omega

end Visits

/-! ## The body -/

/-- `client_read_bytes` without a content encoding: the bytes of the buffer first, then those of the
socket. -/
def clientReadBytes (state : State) (limit len : ℕ) : Bytes × State :=
  if state.len ≠ 0 then
    let taken := min state.len len
    (state.refbuf.take taken,
      { state with refbuf := state.refbuf.drop taken, len := state.len - taken })
  else
    let (data, incoming) := readBytes state.incoming limit len
    (data, { state with incoming })

/-- What a sequence of reads delivers. -/
def readBody (state : State) : List (ℕ × ℕ) → Bytes × State
  | [] => ([], state)
  | (limit, len) :: reads =>
    let (data, state) := clientReadBytes state limit len
    let (rest, state) := readBody state reads
    (data ++ rest, state)

/-- Reads deliver the buffer and then the socket, and nothing else. -/
theorem readBody_append (reads : List (ℕ × ℕ)) {state : State}
    (hlen : state.refbuf.length = state.len) :
    (readBody state reads).1 ++ ((readBody state reads).2.refbuf ++ (readBody state reads).2.incoming) =
      state.refbuf ++ state.incoming := by
  induction reads generalizing state with
  | nil => rfl
  | cons read reads ih =>
    obtain ⟨limit, len⟩ := read
    have hread : (clientReadBytes state limit len).1 ++
          ((clientReadBytes state limit len).2.refbuf ++
            (clientReadBytes state limit len).2.incoming) = state.refbuf ++ state.incoming ∧
        (clientReadBytes state limit len).2.refbuf.length =
          (clientReadBytes state limit len).2.len := by
      unfold clientReadBytes
      split
      · refine ⟨?_, ?_⟩
        · rw [← List.append_assoc, List.take_append_drop]
        · rw [List.length_drop, hlen]
      · rename_i hempty
        have hnil : state.refbuf = [] := List.length_eq_zero_iff.mp (hlen.trans (not_not.mp hempty))
        refine ⟨?_, hlen⟩
        dsimp only
        rw [hnil, List.nil_append, List.nil_append]
        exact readBytes_append _ _ _
    simp only [readBody, List.append_assoc]
    rw [ih hread.2]
    exact hread.1

/-- The client is handed over with its `stream_offset` at the end of the header; its buffer then holds
what has been read behind the header, and however it is read from, it delivers the rest of the stream. -/
structure SplitRight (stream : Bytes) (n : ℕ) (state : State) : Prop where
  stage : state.stage = .handling n
  refbuf : (handleConnection state n .other).refbuf = state.received.drop n
  len : (handleConnection state n .other).len = (state.received.drop n).length
  body : ∀ reads, let rest := readBody (handleConnection state n .other) reads
    rest.1 ++ (rest.2.refbuf ++ rest.2.incoming) = stream.drop n

theorem Handling.splitRight {stream : Bytes} {count n : ℕ} {state : State}
    (h : Handling stream count n state) (hle : n ≤ count) : SplitRight stream n state := by
  have hlength : (stream.take count).length = count := List.length_take_of_le h.le
  have hlen : (handleConnection state n .other).len = count - n := by
    simp only [handleConnection, h.offset]
  have hrefbuf : (handleConnection state n .other).refbuf = (stream.take count).drop n := by
    simp only [handleConnection, h.refbuf, h.offset]
    apply List.take_of_length_le
    rw [List.length_drop, hlength]
  have hincoming : (handleConnection state n .other).incoming = stream.drop count := h.incoming
  refine ⟨h.stage, ?_, ?_, ?_⟩
  · rw [hrefbuf, h.received]
  · rw [hlen, h.received, List.length_drop, hlength]
  · intro reads
    have hsame : (handleConnection state n .other).refbuf.length =
        (handleConnection state n .other).len := by
      rw [hrefbuf, hlen, List.length_drop, hlength]
    calc (readBody (handleConnection state n .other) reads).1 ++ _
      _ = (handleConnection state n .other).refbuf ++
            (handleConnection state n .other).incoming := readBody_append reads hsame
      _ = stream.drop n := by
        have hrest : stream.drop count = (stream.drop n).drop (count - n) := by
          rw [List.drop_drop, Nat.add_sub_cancel' hle]
        rw [hrefbuf, hincoming, List.drop_take, hrest, List.take_append_drop]

/-- For every stream with a header and every way of cutting it into reads that bring the header, the
client is handed over at the end of the header if and only if the header fits into the buffer and what
has been read by then has no blank line of an earlier kind. -/
theorem request_split_iff (stream : Bytes) (n : ℕ) (hframe : frameEnd endsHeader stream = some n)
    (limits : List ℕ) (hsum : n ≤ limits.sum) :
    SplitRight stream n (run Reuse.step (accepted stream) (visits limits)) ↔
      n ≤ perClientRefbufSize - 1 ∧ NoEarlierKind (stream.take (arrived stream n 0 limits)) n := by
  by_cases hfits : n ≤ perClientRefbufSize - 1
  · have hlength := (frameEnd_eq_some_iff.mp hframe).1
    have hcomplete : n ≤ arrived stream n 0 limits :=
      le_arrived hlength hfits limits (by omega)
    rcases (reading_accepted stream).handed_over hframe hfits limits with hreading | ⟨offset, h⟩
    · have hlt := hreading.lt hframe
      omega
    · have hpart := frameEnd_take hframe hcomplete
      constructor
      · intro hright
        have heq : offset = n := by
          have hstage := h.stage.symm.trans hright.stage
          exact Stage.handling.inj hstage
        refine ⟨hfits, (streamOffset_eq_iff hpart).mp ?_⟩
        rw [h.found, heq]
      · rintro ⟨-, hkind⟩
        have hfound := (streamOffset_eq_iff hpart).mpr hkind
        have heq : offset = n := Option.some.inj (h.found.symm.trans hfound)
        rw [heq] at h
        exact h.splitRight hcomplete
  · constructor
    · intro hright
      exact absurd hright.stage
        ((reading_accepted stream).not_handed_over hframe (Nat.not_le.mp hfits) limits n)
    · intro h
      exact absurd h.1 hfits

/-- A request with plain line ends, and a body that begins with another line. -/
def exampleUpload : Bytes :=
  "PUT /s HTTP/1.0\n\nline\r\n\r\nmore".toList.map fun char ↦ UInt8.ofNat char.toNat

theorem request_split_iff_in_two_reads :
    SplitRight exampleUpload 17 (run Reuse.step (accepted exampleUpload) (visits [17, 20])) ↔
      17 ≤ perClientRefbufSize - 1 ∧
        NoEarlierKind (exampleUpload.take (arrived exampleUpload 17 0 [17, 20])) 17 := by
  exact request_split_iff exampleUpload 17 (by decide) [17, 20] (by decide)

/-- When the whole request comes in one read, part of its body is taken for header. -/
theorem request_split_wrong :
    ¬ ∀ (stream : Bytes) (n : ℕ), frameEnd endsHeader stream = some n → ∀ limits : List ℕ,
      n ≤ limits.sum → SplitRight stream n (run Reuse.step (accepted stream) (visits limits)) := by
  intro h
  have hright := h exampleUpload 17 (by decide) [100] (by decide)
  have hstage : (run Reuse.step (accepted exampleUpload) (visits [100])).stage = .handling 25 := by
    decide
  exact absurd (hstage.symm.trans hright.stage) (by decide)

end Icecast.Connection.HeaderSplit
