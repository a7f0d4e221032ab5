import Icecast.Lib.LinkedList
import Icecast.Lib.Machine
import Icecast.Lib.MachineInt
import Mathlib.Data.List.Perm.Basic

/-!
# The stream queue of a source

`source_main` links the buffers it reads into a list, keeps a burst point inside it for listeners
that join, and removes buffers from its front once nobody refers to them. The buffers are nodes of
a heap with a `next` pointer and a reference count; listeners hold references of their own and are
moved along the list by `format.c`. One iteration of `source_main` is an `append`, turns of its
listeners and a `trim`; here these events and the changes of settings and listeners made by other
threads come in any order.
-/

namespace Icecast.Source.Queue

open Lib.LinkedList Lib.Machine Lib.MachineInt

/-- `refbuf_t`, as far as the queue is concerned. -/
structure Refbuf where
  len : ℕ
  count : ℕ
  next : Option ℕ
  syncPoint : Bool
  deriving DecidableEq

/-- A listener: the buffer it refers to, and whether `check_buffer` is `format_advance_queue`. -/
structure Client where
  refbuf : Option ℕ
  introOffset : ℤ
  onQueue : Bool
  deriving DecidableEq

/-- The part of `source_t` that describes the queue, with the heap its pointers refer to. Addresses
from `fresh` on have never been allocated. `unexpected` records that the branch for an unexpected
queue state was taken. -/
structure SourceState where
  heap : ℕ → Refbuf
  fresh : ℕ
  streamData : Option ℕ
  streamDataTail : Option ℕ
  burstPoint : Option ℕ
  burstSize : ℕ
  burstOffset : ℕ
  queueSize : ℕ
  queueSizeLimit : ℕ
  running : Bool
  clients : List Client
  unexpected : Bool

/-! ## Reference counts -/

def modifyHeap (s : SourceState) (addr : ℕ) (f : Refbuf → Refbuf) : SourceState :=
  { s with heap := Function.update s.heap addr (f (s.heap addr)) }

def refbufAddref (s : SourceState) (addr : ℕ) : SourceState :=
  modifyHeap s addr fun refbuf ↦ { refbuf with count := refbuf.count + 1 }

/-- `refbuf_release`. A buffer whose count reaches zero is freed, and its address not used again. -/
def refbufRelease (s : SourceState) (addr : ℕ) : SourceState :=
  modifyHeap s addr fun refbuf ↦ { refbuf with count := refbuf.count - 1 }

/-- `client_set_queue` for the listener at position `i`, which is left in the state `client`. -/
def clientSetQueue (s : SourceState) (i : ℕ) (client : Client) : SourceState :=
  match s.clients[i]? with
  | none => s
  | some old =>
    let s := { s with clients := s.clients.set i client }
    let s := match client.refbuf with
      | none => s
      | some addr => refbufAddref s addr
    match old.refbuf with
    | none => s
    | some addr => refbufRelease s addr

/-! ## Appending -/

/-- `refbuf_new`, as it is called for stream data and for the private buffer of a client. -/
def refbufNew (s : SourceState) (len : ℕ) (syncPoint : Bool) : SourceState :=
  { s with heap := Function.update s.heap s.fresh ⟨len, 1, none, syncPoint⟩, fresh := s.fresh + 1 }

/-- Link a buffer behind the tail. It is referenced for the burst, too. -/
def linkBuffer (s : SourceState) (addr : ℕ) : SourceState :=
  let s := match s.streamData with
    | none => { s with streamData := some addr, burstPoint := some addr }
    | some _ => s
  let s := match s.streamDataTail with
    | none => s
    | some tail => modifyHeap s tail fun refbuf ↦ { refbuf with next := some addr }
  let len := (s.heap addr).len
  let s := { s with streamDataTail := some addr, queueSize := uadd 32 s.queueSize len }
  let s := refbufAddref s addr
  { s with burstOffset := uadd 32 s.burstOffset len }

/-- The loop that moves the burst point until the burst is small enough or one buffer long. -/
def advanceBurst : ℕ → SourceState → SourceState
  | 0, s => s
  | fuel + 1, s =>
    if s.burstSize < s.burstOffset then
      match s.burstPoint with
      | none => s
      | some toRelease =>
        match (s.heap toRelease).next with
        | none => s
        | some next =>
          let s := { s with
            burstPoint := some next
            burstOffset := usub 32 s.burstOffset (s.heap toRelease).len }
          advanceBurst fuel (refbufRelease s toRelease)
    else s

/-- New data on the queue; every buffer is passed at most once. -/
def append (s : SourceState) (len : ℕ) (syncPoint : Bool) : SourceState :=
  let addr := s.fresh
  let s := linkBuffer (refbufNew s len syncPoint) addr
  advanceBurst s.fresh s

/-! ## Trimming -/

/-- The loop that removes buffers only the queue refers to. -/
def trimLoop : ℕ → SourceState → SourceState
  | 0, s => s
  | fuel + 1, s =>
    match s.streamData with
    | none => s
    | some toGo =>
      if (s.heap toGo).count = 1 then
        if (s.heap toGo).next = none ∨ s.burstPoint = some toGo then
          { s with running := false, unexpected := true }
        else
          let s := { s with
            streamData := (s.heap toGo).next
            queueSize := usub 32 s.queueSize (s.heap toGo).len }
          let s := modifyHeap s toGo fun refbuf ↦ { refbuf with next := none }
          trimLoop fuel (refbufRelease s toGo)
      else s

def trim (s : SourceState) : SourceState := trimLoop s.fresh s

/-! ## Listeners -/

/-- Walk along the queue for `size` bytes, in the arithmetic of `size_t`, but not past its end. -/
def skipBytes (heap : ℕ → Refbuf) : ℕ → ℕ → ℕ → ℕ
  | 0, _, addr => addr
  | fuel + 1, size, addr =>
    if 0 < size then
      match (heap addr).next with
      | none => addr
      | some next => skipBytes heap fuel (usub 64 size (heap addr).len) next
    else addr

/-- The first sync point from a buffer on. -/
def findSyncPoint (heap : ℕ → Refbuf) : ℕ → ℕ → Option ℕ
  | 0, _ => none
  | fuel + 1, addr =>
    if (heap addr).syncPoint then some addr
    else
      match (heap addr).next with
      | none => none
      | some next => findSyncPoint heap fuel next

/-- The buffer `find_client_start` begins to look from. -/
def startOfSearch (s : SourceState) (introOffset : ℤ) : Option ℕ :=
  match s.streamDataTail with
  | some tail =>
    if introOffset = -1 ∧ (s.heap tail).syncPoint then some tail
    else s.burstPoint.map (skipBytes s.heap s.fresh (introOffset % 2 ^ 64).toNat)
  | none => s.burstPoint.map (skipBytes s.heap s.fresh (introOffset % 2 ^ 64).toNat)

def findClientStart (s : SourceState) (i : ℕ) : SourceState :=
  match s.clients[i]? with
  | none => s
  | some client =>
    match (startOfSearch s client.introOffset).bind (findSyncPoint s.heap s.fresh) with
    | none => s
    | some addr => clientSetQueue s i ⟨some addr, -1, true⟩

/-- A listener that has sent its buffer and found no more of the intro file, or that comes from
another source: its buffer is released before the search. -/
def leaveFile (s : SourceState) (i : ℕ) : SourceState :=
  match s.clients[i]? with
  | none => s
  | some client =>
    if client.onQueue then s
    else findClientStart (clientSetQueue s i { client with refbuf := none }) i

/-- A listener that is not on the queue yet fills its private buffer: with a part of the intro file,
from the start of it again, or for the first time after its HTTP header. One that comes from another
source to a file fallback gets a private buffer first. -/
def readIntro (s : SourceState) (i len : ℕ) (introOffset : ℤ) : SourceState :=
  match s.clients[i]? with
  | none => s
  | some client =>
    if client.onQueue then s
    else
      match client.refbuf with
      | none =>
        let addr := s.fresh
        let s := refbufNew s len false
        { s with clients := s.clients.set i ⟨some addr, introOffset, false⟩ }
      | some addr =>
        let s := modifyHeap s addr fun refbuf ↦ { refbuf with len := len }
        { s with clients := s.clients.set i { client with introOffset := introOffset } }

/-- `format_advance_queue` for a listener that has sent its whole buffer. -/
def formatAdvanceQueue (s : SourceState) (i : ℕ) : SourceState :=
  match s.clients[i]? with
  | none => s
  | some client =>
    match client.refbuf with
    | none => s
    | some addr =>
      if client.onQueue then
        match (s.heap addr).next with
        | none => s
        | some next => clientSetQueue s i { client with refbuf := some next }
      else s

/-- `source_move_clients` takes the listener off the queue. -/
def detach (s : SourceState) (i : ℕ) (introOffset : ℤ) : SourceState :=
  clientSetQueue s i ⟨none, introOffset, false⟩

/-- `client_destroy` releases the buffer of a listener that is removed from the client tree. -/
def leave (s : SourceState) (i : ℕ) : SourceState :=
  let s := detach s i 0
  { s with clients := s.clients.eraseIdx i }

/-- The end of `send_to_listener`: with too much data queued, a listener that still refers to the
first buffer has fallen too far behind and is removed. -/
def dropLagging (s : SourceState) (i : ℕ) : SourceState :=
  match s.clients[i]? with
  | none => s
  | some client =>
    if s.queueSizeLimit < s.queueSize ∧ client.refbuf.isSome ∧ client.refbuf = s.streamData then
      leave s i
    else s

/-- A listener joins with the private buffer its HTTP header was sent from. -/
def join (s : SourceState) (len : ℕ) : SourceState :=
  let addr := s.fresh
  let s := refbufNew s len false
  { s with clients := s.clients ++ [⟨some addr, 0, false⟩] }

/-- A listener arrives from another source and refers to no buffer. -/
def arrive (s : SourceState) (introOffset : ℤ) : SourceState :=
  { s with clients := s.clients ++ [⟨none, introOffset, false⟩] }

inductive Event where
  | append (len : ℕ) (syncPoint : Bool)
  | trim
  | setBurstSize (size : ℕ)
  | setQueueSizeLimit (size : ℕ)
  | join (len : ℕ)
  | arrive (introOffset : ℤ)
  | readIntro (i len : ℕ) (introOffset : ℤ)
  | leaveFile (i : ℕ)
  | advance (i : ℕ)
  | detach (i : ℕ) (introOffset : ℤ)
  | leave (i : ℕ)
  | dropLagging (i : ℕ)
  deriving DecidableEq

def step (s : SourceState) : Event → SourceState
  | .append len syncPoint => append s len syncPoint
  | .trim => trim s
  | .setBurstSize size => { s with burstSize := size }
  | .setQueueSizeLimit size => { s with queueSizeLimit := size }
  | .join len => join s len
  | .arrive introOffset => arrive s introOffset
  | .readIntro i len introOffset => readIntro s i len introOffset
  | .leaveFile i => leaveFile s i
  | .advance i => formatAdvanceQueue s i
  | .detach i introOffset => detach s i introOffset
  | .leave i => leave s i
  | .dropLagging i => dropLagging s i

/-- A source that has just been reserved. -/
def startSource : SourceState where
  heap := fun _ ↦ ⟨0, 0, none, false⟩
  fresh := 0
  streamData := none
  streamDataTail := none
  burstPoint := none
  burstSize := 0
  burstOffset := 0
  queueSize := 0
  queueSizeLimit := 0
  running := true
  clients := []
  unexpected := false

end Icecast.Source.Queue
