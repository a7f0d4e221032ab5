import Icecast.Lib.CString
import Icecast.Lib.Framing
import Icecast.Lib.Machine
import Icecast.Lib.Socket
import Mathlib.Data.List.TakeWhile

/-!
# Reusing a connection for another request

A client is read until its buffer holds the end of a request header. Bytes behind the header are
moved to the start of the buffer, where a source's data would be taken from. A request that is
answered with an error leaves the connection open: the answer is built in the same buffer, and when
it has been sent the connection is handed to a new client with a buffer of its own
(`client_reuseconnection`). Whatever the first client had read behind its header is lost, and the
next request begins with the first byte that had not been read.

The state is that of one connection. `incoming` is what the peer has sent and the server has not
read. The fields from `start` on record what has happened: where in the stream the client began to
read, what it has read, the header that it was answered for, and the headers that earlier clients of
the connection were answered for.
-/

namespace Icecast.Connection.Reuse

open Lib.CString Lib.Framing Lib.Machine Lib.Socket

abbrev Bytes := List UInt8

def perClientRefbufSize : ℕ := 4096

/-! ## The end of a header -/

/-- What string functions see of a buffer. -/
def cString (data : Bytes) : Bytes := data.takeWhile (· ≠ 0)

/-- Line ends are `\n`, `\r\n`, or `\r\r\n`. -/
def doubledCr : Bytes := [13, 13, 10, 13, 13, 10]
def crLf : Bytes := [13, 10, 13, 10]
def lf : Bytes := [10, 10]

/-- The start of the data behind the header. -/
def streamOffset (data : Bytes) : Option ℕ :=
  match strstr doubledCr (cString data) with
  | some ptr => some (ptr + 6)
  | none =>
    match strstr crLf (cString data) with
    | some ptr => some (ptr + 4)
    | none =>
      match strstr lf (cString data) with
      | some ptr => some (ptr + 2)
      | none => none

/-! ## Clients of a connection -/

inductive ReuseMode where
  | close
  | keepAlive
  deriving DecidableEq

/-- Where the client is: in the request queue, in the connection queue with its `stream_offset`,
with an answer, or nowhere any more. -/
inductive Stage where
  | reading
  | handling (streamOffset : ℕ)
  | answered
  | gone
  deriving DecidableEq

structure State where
  incoming : Bytes
  refbuf : Bytes
  len : ℕ
  offset : ℕ
  reuse : ReuseMode
  stage : Stage
  start : ℕ
  received : Bytes
  request : Option Bytes
  handled : List Bytes
  deriving DecidableEq

/-- A connection has been accepted and put into the request queue. -/
def accepted (stream : Bytes) : State where
  incoming := stream
  refbuf := []
  len := 0
  offset := 0
  reuse := .close
  stage := .reading
  start := 0
  received := []
  request := none
  handled := []

/-- The answer is built in the client's buffer. If it does not fit, a fixed text is sent instead;
the connection is kept in either case. -/
def clientSendError (state : State) (header : Bytes) (fits : Bool) : State :=
  { state with
    refbuf := header
    len := if fits then header.length else state.len
    reuse := .keepAlive
    stage := .answered }

/-- What becomes of the new client of a connection: it is queued, it is told that there are too many
clients, or its socket cannot be set up. -/
inductive QueueOutcome where
  | queued
  | limitReached (header : Bytes) (fits : Bool)
  | dropped
  deriving DecidableEq

def connectionQueue (state : State) (outcome : QueueOutcome) : State :=
  let client : State :=
    { incoming := state.incoming
      refbuf := []
      len := 0
      offset := 0
      reuse := .close
      stage := .reading
      start := state.start + state.received.length
      received := []
      request := none
      handled := state.handled ++ state.request.toList }
  match outcome with
  | .queued => client
  | .limitReached header fits => clientSendError client header fits
  | .dropped => { state with stage := .gone }

def clientDestroy (state : State) (outcome : QueueOutcome) : State :=
  match state.reuse with
  | .close => { state with stage := .gone }
  | .keepAlive => connectionQueue state outcome

/-- What a visit of the request queue finds: at most so many bytes, or the end of the connection or
of the time for the header. -/
inductive Arrival where
  | bytes (limit : ℕ)
  | ended
  deriving DecidableEq

/-- Without room for another byte the header is too long. -/
def processRequestQueue (state : State) (arrival : Arrival) : State :=
  let len := perClientRefbufSize - 1 - state.offset
  match arrival with
  | .ended => clientDestroy state .dropped
  | .bytes limit =>
    if len = 0 then clientDestroy state .dropped
    else
      let (data, incoming) := readBytes state.incoming limit len
      if data = [] then state
      else
        let state := { state with
          incoming := incoming
          refbuf := state.refbuf.take state.offset ++ data
          offset := state.offset + data.length
          received := state.received ++ data }
        match streamOffset state.refbuf with
        | some offset => { state with stage := .handling offset }
        | none => state

/-- What is made of a request: it cannot be parsed, it is answered with an error that keeps the
connection, or it takes the client elsewhere. -/
inductive Answer where
  | malformed
  | error (header : Bytes) (fits : Bool)
  | other
  deriving DecidableEq

def handleConnection (state : State) (streamOffset : ℕ) (answer : Answer) : State :=
  match answer with
  | .malformed => clientDestroy state .dropped
  | _ =>
    let state := { state with
      len := state.offset - streamOffset
      refbuf := (state.refbuf.drop streamOffset).take (state.offset - streamOffset)
      request := some (state.refbuf.take streamOffset) }
    match answer with
    | .error header fits => clientSendError state header fits
    | _ => { state with stage := .gone }

inductive Event where
  | visit (arrival : Arrival)
  | handle (answer : Answer)
  | destroy (outcome : QueueOutcome)

def step (state : State) (event : Event) : State :=
  match state.stage, event with
  | .reading, .visit arrival => processRequestQueue state arrival
  | .handling streamOffset, .handle answer => handleConnection state streamOffset answer
  | .answered, .destroy outcome => clientDestroy state outcome
  | _, _ => state

/-! ## Headers of the stream -/

/-- The bytes end with a blank line, and no byte cuts the string short. -/
def endsHeader (bytes : Bytes) : Bool :=
  (0 ∉ bytes) ∧ (doubledCr <:+ bytes ∨ crLf <:+ bytes ∨ lf <:+ bytes)

/-- The headers that were answered are the first ones of the stream, and the client began to read
right behind them. -/
def Exact (stream : Bytes) (state : State) : Prop :=
  state.handled.map some = (List.range state.handled.length).map (frame endsHeader stream) ∧
  boundary endsHeader stream state.handled.length = some state.start

instance (stream : Bytes) (state : State) : Decidable (Exact stream state) :=
  inferInstanceAs (Decidable (_ ∧ _))

/-- The condition on a step: a client that is destroyed with its connection kept has read its header
and nothing else. -/
def NothingReadAhead (state : State) : Event → Prop
  | .destroy outcome =>
    state.stage = .answered → state.request ≠ none → outcome ≠ .dropped →
      frameEnd endsHeader state.received = some state.received.length
  | _ => True

/-! ## What the code finds -/

variable {stream data : Bytes} {state : State} {n : ℕ}

theorem take_cString (hle : n ≤ (cString data).length) : data.take n = (cString data).take n := by
  obtain ⟨rest, hrest⟩ := List.takeWhile_prefix (l := data) (· ≠ 0)
  conv_lhs => rw [← hrest]
  exact List.take_append_of_le_length hle

theorem zero_not_mem_cString (data : Bytes) : 0 ∉ cString data := by
  intro hmem
  simpa using List.mem_takeWhile_imp hmem

/-- A place that one of the searches finds is the end of a header. -/
theorem endsHeader_of_strstr {pattern : Bytes} {ptr : ℕ}
    (hpattern : pattern = doubledCr ∨ pattern = crLf ∨ pattern = lf)
    (h : strstr pattern (cString data) = some ptr) :
    ptr + pattern.length ≤ data.length ∧ endsHeader (data.take (ptr + pattern.length)) = true := by
  have hne : pattern ≠ [] := by
    rcases hpattern with rfl | rfl | rfl <;> simp [doubledCr, crLf, lf]
  have hle := add_length_le_of_strstr h hne
  refine ⟨hle.trans (List.takeWhile_prefix _).length_le, ?_⟩
  rw [take_cString hle, endsHeader, decide_eq_true_eq]
  refine ⟨fun hzero ↦ zero_not_mem_cString data (List.mem_of_mem_take hzero), ?_⟩
  have hsuffix := suffix_take_of_strstr h
  rcases hpattern with rfl | rfl | rfl
  · exact Or.inl hsuffix
  · exact Or.inr (Or.inl hsuffix)
  · exact Or.inr (Or.inr hsuffix)

/-- The header ends no later than where the code takes the data behind it from. -/
theorem frameEnd_of_streamOffset (h : streamOffset data = some n) :
    n ≤ data.length ∧ ∃ first ≤ n, frameEnd endsHeader data = some first := by
  have hplace : n ≤ data.length ∧ endsHeader (data.take n) = true := by
    unfold streamOffset at h
    split at h
    · rename_i hfound
      rw [← Option.some.inj h]
      exact endsHeader_of_strstr (Or.inl rfl) hfound
    · split at h
      · rename_i hfound
        rw [← Option.some.inj h]
        exact endsHeader_of_strstr (Or.inr (Or.inl rfl)) hfound
      · split at h
        · rename_i hfound
          rw [← Option.some.inj h]
          exact endsHeader_of_strstr (Or.inr (Or.inr rfl)) hfound
        · cases h
  exact ⟨hplace.1, exists_frameEnd_le hplace.1 hplace.2⟩

/-! ## Runs -/

/-- A client that is being read or handled has in its buffer what it has read; one that has been
answered has read a header, unless it was turned away before. -/
def StageOk (state : State) : Prop :=
  match state.stage with
  | .reading =>
    state.refbuf = state.received ∧ state.offset = state.received.length ∧ state.reuse = .close
  | .handling offset =>
    state.refbuf = state.received ∧ state.offset = state.received.length ∧ state.reuse = .close ∧
      streamOffset state.received = some offset
  | .answered =>
    state.reuse = .keepAlive ∧
      (state.request = none ∧ state.received = [] ∨
        ∃ offset, streamOffset state.received = some offset ∧
          state.request = some (state.received.take offset))
  | .gone => True

structure Inv (stream : Bytes) (state : State) : Prop where
  exact : Exact stream state
  drop_start : stream.drop state.start = state.received ++ state.incoming
  stageOk : StageOk state

theorem inv_accepted (stream : Bytes) : Inv stream (accepted stream) :=
  ⟨⟨rfl, rfl⟩, rfl, rfl, rfl, rfl⟩

/-- Leaving the queues changes nothing that has been read. -/
theorem Inv.gone (inv : Inv stream state) : Inv stream { state with stage := .gone } :=
  ⟨inv.exact, inv.drop_start, trivial⟩

theorem Inv.closed (inv : Inv stream state) (hreuse : state.reuse = .close)
    (outcome : QueueOutcome) : Inv stream (clientDestroy state outcome) := by
  unfold clientDestroy
  split
  · exact inv.gone
  · rename_i hkept
    rw [hreuse] at hkept
    cases hkept

theorem Inv.processRequestQueue (inv : Inv stream state) (hstage : state.stage = .reading)
    (arrival : Arrival) : Inv stream (Reuse.processRequestQueue state arrival) := by
  have hok := inv.stageOk
  simp only [StageOk, hstage] at hok
  obtain ⟨hrefbuf, hoffset, hreuse⟩ := hok
  cases arrival with
  | ended => exact inv.closed hreuse .dropped
  | bytes limit =>
    unfold Reuse.processRequestQueue
    simp only
    split
    · exact inv.closed hreuse .dropped
    · split
      · exact inv
      · have hread := readBytes_append state.incoming limit (perClientRefbufSize - 1 - state.offset)
        generalize readBytes state.incoming limit (perClientRefbufSize - 1 - state.offset) = read
          at hread ⊢
        obtain ⟨data, incoming⟩ := read
        have hbuffer : state.refbuf.take state.offset ++ data = state.received ++ data := by
          rw [hrefbuf, hoffset, List.take_length]
        have hdrop : stream.drop state.start = state.received ++ data ++ incoming := by
          rw [inv.drop_start, ← hread, List.append_assoc]
        have hlength : state.offset + data.length = (state.received ++ data).length := by
          rw [hoffset, List.length_append]
        split
        · rename_i offset hfound
          rw [hbuffer] at hfound
          exact ⟨inv.exact, hdrop, hbuffer, hlength, hreuse, hfound⟩
        · refine ⟨inv.exact, hdrop, ?_⟩
          simp only [StageOk, hstage]
          exact ⟨hbuffer, hlength, hreuse⟩

theorem Inv.handleConnection (inv : Inv stream state) {offset : ℕ}
    (hstage : state.stage = .handling offset) (answer : Answer) :
    Inv stream (Reuse.handleConnection state offset answer) := by
  have hok := inv.stageOk
  simp only [StageOk, hstage] at hok
  obtain ⟨hrefbuf, -, hreuse, hfound⟩ := hok
  cases answer with
  | malformed => exact inv.closed hreuse .dropped
  | error header fits =>
    refine ⟨inv.exact, inv.drop_start, rfl, Or.inr ⟨offset, hfound, ?_⟩⟩
    simp only [Reuse.handleConnection, clientSendError, hrefbuf]
  | other => exact ⟨inv.exact, inv.drop_start, trivial⟩

/-- The header that a client has read is the next one of the stream. -/
theorem Inv.frameEnd_drop (inv : Inv stream state)
    (hframe : frameEnd endsHeader state.received = some n) :
    frameEnd endsHeader (stream.drop state.start) = some n := by
  rw [inv.drop_start]
  exact frameEnd_append hframe state.incoming

/-- The place behind what a client has read, and the headers that it and its predecessors were
answered for, are exact if it has read its header and nothing else. -/
theorem Inv.exact_behind (inv : Inv stream state) (hstage : state.stage = .answered)
    (hnothing : state.request ≠ none →
      frameEnd endsHeader state.received = some state.received.length) :
    (state.handled ++ state.request.toList).map some =
        (List.range (state.handled ++ state.request.toList).length).map (frame endsHeader stream) ∧
      boundary endsHeader stream (state.handled ++ state.request.toList).length =
        some (state.start + state.received.length) := by
  have hok := inv.stageOk
  simp only [StageOk, hstage] at hok
  obtain ⟨hhandled, hplace⟩ := inv.exact
  rcases hok.2 with ⟨hnone, hempty⟩ | ⟨offset, hfound, hrequest⟩
  · simp only [hnone, hempty, Option.toList_none, List.append_nil, List.length_nil, Nat.add_zero]
    exact ⟨hhandled, hplace⟩
  · have hframe := hnothing (by simp [hrequest])
    -- the searches cannot find a place before the end of the header
    obtain ⟨hle, first, hfirst, hsame⟩ := frameEnd_of_streamOffset hfound
    rw [hframe, Option.some.injEq] at hsame
    obtain rfl : offset = state.received.length := by omega
    have hdrop := inv.frameEnd_drop hframe
    have htext : (stream.drop state.start).take state.received.length = state.received := by
      rw [inv.drop_start, List.take_left]
    simp only [hrequest, List.take_length, Option.toList_some, List.map_append, List.map_cons,
      List.map_nil, List.length_append, List.length_cons, List.length_nil, List.range_succ]
    rw [hhandled, frame_eq hplace hdrop, htext]
    exact ⟨rfl, boundary_succ hplace hdrop⟩

theorem Inv.connectionQueue (inv : Inv stream state) (hstage : state.stage = .answered)
    (outcome : QueueOutcome) (hguard : NothingReadAhead state (.destroy outcome)) :
    Inv stream (Reuse.connectionQueue state outcome) := by
  have hincoming : stream.drop (state.start + state.received.length) = [] ++ state.incoming := by
    rw [← List.drop_drop, inv.drop_start, List.drop_left, List.nil_append]
  cases outcome with
  | queued =>
    exact ⟨inv.exact_behind hstage fun h ↦ hguard hstage h (by simp), hincoming, rfl, rfl, rfl⟩
  | limitReached header fits =>
    exact ⟨inv.exact_behind hstage fun h ↦ hguard hstage h (by simp), hincoming, rfl,
      Or.inl ⟨rfl, rfl⟩⟩
  | dropped => exact inv.gone

theorem clientDestroy_answered (hok : StageOk state) (hstage : state.stage = .answered)
    (outcome : QueueOutcome) :
    clientDestroy state outcome = Reuse.connectionQueue state outcome := by
  simp only [StageOk, hstage] at hok
  simp only [clientDestroy, hok.1]

theorem Inv.step (inv : Inv stream state) (event : Event) (hguard : NothingReadAhead state event) :
    Inv stream (Reuse.step state event) := by
  unfold Reuse.step
  split
  · rename_i arrival hstage
    exact inv.processRequestQueue hstage arrival
  · rename_i offset answer hstage
    exact inv.handleConnection hstage answer
  · rename_i outcome hstage
    rw [clientDestroy_answered inv.stageOk hstage]
    exact inv.connectionQueue hstage outcome hguard
  · exact inv

/-- Bytes that were read ahead are lost when the connection is requeued. -/
theorem Inv.not_exact (inv : Inv stream state) (event : Event)
    (hahead : ¬NothingReadAhead state event) : ¬Exact stream (Reuse.step state event) := by
  cases event with
  | visit arrival => exact absurd trivial hahead
  | handle answer => exact absurd trivial hahead
  | destroy outcome =>
    simp only [NothingReadAhead, not_forall] at hahead
    obtain ⟨hstage, hsome, hkept, hne⟩ := hahead
    have hok := inv.stageOk
    simp only [StageOk, hstage] at hok
    obtain ⟨-, hplace⟩ := inv.exact
    rcases hok.2 with ⟨hnone, -⟩ | ⟨offset, hfound, hrequest⟩
    · exact absurd hnone hsome
    · obtain ⟨-, first, -, hframe⟩ := frameEnd_of_streamOffset hfound
      have hshort : first ≠ state.received.length := by
        rintro rfl
        exact hne hframe
      have hnext := boundary_succ hplace (inv.frameEnd_drop hframe)
      have hstep : Reuse.step state (.destroy outcome) = Reuse.connectionQueue state outcome := by
        simp only [Reuse.step, hstage]
        exact clientDestroy_answered inv.stageOk hstage outcome
      rw [hstep]
      rintro ⟨-, hbehind⟩
      have hlength : (Reuse.connectionQueue state outcome).handled.length =
          state.handled.length + 1 := by
        cases outcome with
        | dropped => exact absurd rfl hkept
        | queued => simp [Reuse.connectionQueue, hrequest]
        | limitReached header fits => simp [Reuse.connectionQueue, clientSendError, hrequest]
      have hstart : (Reuse.connectionQueue state outcome).start =
          state.start + state.received.length := by
        cases outcome with
        | dropped => exact absurd rfl hkept
        | queued => rfl
        | limitReached header fits => rfl
      rw [hlength, hstart, hnext, Option.some.injEq] at hbehind
      omega

/-- For every stream and every way in which it is read, each request begins right behind the header
of the one before exactly as long as no client whose connection is requeued has read ahead. -/
theorem reuse_byte_exact (stream : Bytes) (events : List Event) :
    (∀ before, before <+: events → Exact stream (run step (accepted stream) before)) ↔
      Guarded step NothingReadAhead (accepted stream) events :=
  forall_prefix_iff_guarded step (Inv stream) (Exact stream)
    (fun _ event inv hguard ↦ inv.step event hguard) (fun _ inv ↦ inv.exact)
    (fun _ event inv hahead ↦ inv.not_exact event hahead) events (inv_accepted stream)

/-- However the stream is read, the requests that have been answered are the same ones. -/
theorem Exact.handled_prefix {other : State} (exact : Exact stream state)
    (hother : Exact stream other) (hle : state.handled.length ≤ other.handled.length) :
    state.handled <+: other.handled := by
  have htake : state.handled.map some = (other.handled.take state.handled.length).map some := by
    rw [List.map_take, hother.1, exact.1, ← List.map_take, List.take_range, Nat.min_eq_left hle]
  rw [List.map_injective_iff.mpr (Option.some_injective _) htake]
  exact List.take_prefix _ _

def exampleRequest : Bytes :=
  "GET /missing HTTP/1.1\r\n\r\n".toList.map fun char ↦ UInt8.ofNat char.toNat

/-- Two requests that arrive together: the second one is gone when the first has been answered. -/
theorem reuse_loses_request :
    ¬∀ (stream : Bytes) (events : List Event) (before : List Event), before <+: events →
      Exact stream (run step (accepted stream) before) := by
  intro h
  have hexact := h (exampleRequest ++ exampleRequest)
    [.visit (.bytes 50), .handle (.error [] true), .destroy .queued] _ (List.prefix_refl _)
  revert hexact
  decide +kernel

/-- The same stream in two reads. -/
example : (run step (accepted (exampleRequest ++ exampleRequest))
    [.visit (.bytes 25), .handle (.error [] true), .destroy .queued, .visit (.bytes 25),
      .handle (.error [] true), .destroy .queued]).handled = [exampleRequest, exampleRequest] := by
  decide +kernel

end Icecast.Connection.Reuse
