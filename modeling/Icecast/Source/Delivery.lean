import Icecast.Lib.Heap
import Icecast.Source.AvlTree
import Icecast.Source.Queue
import Mathlib.Data.List.Perm.Subperm

/-!
# Listeners on their way from the header to the queue

A listener is first sent its HTTP header, then an intro file, and then the stream, and in each of
these phases `check_buffer` and `write_to_client` are other functions and `refbuf` another kind of
buffer. The buffer of the first two phases belongs to the listener, the buffers of the queue are
shared. `source_move_clients` takes listeners to another source at any time and puts those that are
behind the header back to the second phase.

All sources share one memory for their buffers. A pass of the loop in `send_to_listener`, each of the
other parts of an iteration of `source_main` and every section under the tree locks elsewhere is an
event, and events come in any order. Trees are lists in the order of the connection ids.
-/

namespace Icecast.Source.Delivery

open AvlTree Lib Lib.Machine Lib.MachineInt
open Queue (Refbuf)
open scoped List

/-- The formats that have a plugin. -/
inductive FormatType where
  | ogg
  | ebml
  | generic
  deriving DecidableEq

inductive CheckBuffer where
  | formatCheckHttpBuffer
  | formatCheckFileBuffer
  | formatAdvanceQueue
  deriving DecidableEq

/-- What `write_to_client` is set to: the generic function, or that of the plugin of a format. -/
inductive Writer where
  | formatGenericWriteToClient
  | writeBufToClient (type : FormatType)
  deriving DecidableEq

/-- `client_t`. Of `format_data` only the plugin that has made it is kept. -/
structure Client where
  id : ℕ
  refbuf : Option ℕ
  pos : ℕ
  introOffset : ℤ
  respcode : ℕ
  checkBuffer : CheckBuffer
  writeToClient : Writer
  formatData : Option FormatType
  error : Bool
  deriving DecidableEq

/-- `source_t`. `client` and `con` say that the pointers of these names are set, `active` that the
source is inside `source_main`, and `introFile` is the length of the intro file. -/
structure SourceState where
  mount : String
  client : Bool
  con : Bool
  running : Bool
  onDemand : Bool
  onDemandReq : Bool
  active : Bool
  format : Option FormatType
  introFile : Option ℕ
  maxListeners : Option ℕ
  listeners : ℕ
  clientTree : List Client
  pendingTree : List Client
  streamData : Option ℕ
  streamDataTail : Option ℕ
  burstPoint : Option ℕ
  burstSize : ℕ
  burstOffset : ℕ
  queueSize : ℕ
  queueSizeLimit : ℕ
  deriving DecidableEq

/-- All buffers; addresses from `fresh` on have never been allocated. -/
structure Memory where
  heap : ℕ → Refbuf
  fresh : ℕ

/-- `calls` are the listeners `write_to_client` has been called for, as they were at the call. -/
structure State where
  mem : Memory
  sources : Heap SourceState
  nextId : ℕ
  calls : List Client

def perClientRefbufSize : ℕ := 4096

/-! ## Buffers -/

def Memory.update (mem : Memory) (addr : ℕ) (f : Refbuf → Refbuf) : Memory :=
  { mem with heap := Function.update mem.heap addr (f (mem.heap addr)) }

def Memory.len (mem : Memory) (addr : ℕ) : ℕ := (mem.heap addr).len

def Memory.setLen (mem : Memory) (addr len : ℕ) : Memory :=
  mem.update addr fun refbuf ↦ { refbuf with len }

def refbufNew (mem : Memory) (len : ℕ) : Memory where
  heap := Function.update mem.heap mem.fresh ⟨len, 1, none, false⟩
  fresh := mem.fresh + 1

section Heap

variable (mem : Memory) {addr other : ℕ} (f : Refbuf → Refbuf) (len : ℕ)

@[simp] theorem heap_update_self : (mem.update addr f).heap addr = f (mem.heap addr) :=
  Function.update_self _ _ _

theorem heap_update_of_ne (h : other ≠ addr) : (mem.update addr f).heap other = mem.heap other :=
  Function.update_of_ne h _ _

@[simp] theorem heap_refbufNew_self : (refbufNew mem len).heap mem.fresh = ⟨len, 1, none, false⟩ :=
  Function.update_self _ _ _

theorem heap_refbufNew_of_ne (h : other ≠ mem.fresh) :
    (refbufNew mem len).heap other = mem.heap other :=
  Function.update_of_ne h _ _

end Heap

def refbufAddref (mem : Memory) (addr : ℕ) : Memory :=
  mem.update addr fun refbuf ↦ { refbuf with count := refbuf.count + 1 }

def refbufRelease (mem : Memory) (addr : ℕ) : Memory :=
  mem.update addr fun refbuf ↦ { refbuf with count := refbuf.count - 1 }

def releaseOption (mem : Memory) : Option ℕ → Memory
  | none => mem
  | some addr => refbufRelease mem addr

def addrefOption (mem : Memory) : Option ℕ → Memory
  | none => mem
  | some addr => refbufAddref mem addr

def clientSetQueue (mem : Memory) (client : Client) (refbuf : Option ℕ) : Memory × Client :=
  (releaseOption (addrefOption mem refbuf) client.refbuf, { client with refbuf, pos := 0 })

/-- `_free_client`. A listener without an answer or with an error is still sent one and keeps its
buffer for that, but it is no listener of a source any more. -/
def freeClient (mem : Memory) (client : Client) : Memory :=
  if client.respcode = 0 ∨ client.respcode = 500 then mem else releaseOption mem client.refbuf

/-- The queue of a source in the memory that all sources share. -/
def queueOf (mem : Memory) (source : SourceState) : Queue.SourceState where
  heap := mem.heap
  fresh := mem.fresh
  streamData := source.streamData
  streamDataTail := source.streamDataTail
  burstPoint := source.burstPoint
  burstSize := source.burstSize
  burstOffset := source.burstOffset
  queueSize := source.queueSize
  queueSizeLimit := source.queueSizeLimit
  running := source.running
  clients := []
  unexpected := false

def setQueue (queue : Queue.SourceState) (source : SourceState) : SourceState :=
  { source with
    streamData := queue.streamData
    streamDataTail := queue.streamDataTail
    burstPoint := queue.burstPoint
    burstOffset := queue.burstOffset
    queueSize := queue.queueSize
    running := queue.running }

/-! ## A pass of `send_to_listener` -/

/-- What a pass meets: the length of the header if `format_prepare_headers` succeeds, how much of
the buffer is accepted, and whether an EBML listener has had the header of its stream. -/
structure Pass where
  headers : Option ℕ
  accepted : ℕ
  headerDone : Bool
  deriving DecidableEq

section Check

variable (type : FormatType) (source : SourceState) (pass : Pass)

def findClientStart (mem : Memory) (client : Client) : Memory × Client :=
  match (Queue.startOfSearch (queueOf mem source) client.introOffset).bind
      (Queue.findSyncPoint mem.heap mem.fresh) with
  | none => (mem, client)
  | some addr =>
    let (mem, client) := clientSetQueue mem client (some addr)
    (mem, { client with
      checkBuffer := .formatAdvanceQueue
      writeToClient := .writeBufToClient type
      introOffset := -1 })

/-- How much `get_file_data` reads. -/
def getFileData (introOffset : ℤ) : ℕ :=
  match source.introFile with
  | none => 0
  | some size => if introOffset < 0 then 0 else min 4096 (size - introOffset.toNat)

/-- `format_check_file_buffer` for a listener with a buffer. -/
def checkFileData (addr : ℕ) (mem : Memory) (client : Client) : ℤ × Memory × Client :=
  if client.pos = mem.len addr then
    let bytes := getFileData source client.introOffset
    if bytes ≠ 0 then
      (0, mem.setLen addr bytes,
        { client with pos := 0, introOffset := client.introOffset + bytes })
    else if source.streamDataTail.isSome then
      let (mem, client) := clientSetQueue mem client none
      (-1, findClientStart type source mem client)
    else (-1, mem, { client with introOffset := 0 })
  else (0, mem, client)

/-- A listener that refers to no data comes from another source. -/
def formatCheckFileBuffer (mem : Memory) (client : Client) : ℤ × Memory × Client :=
  match client.refbuf with
  | some addr => checkFileData type source addr mem client
  | none =>
    if source.client then (-1, findClientStart type source mem client)
    else
      checkFileData type source mem.fresh (refbufNew mem perClientRefbufSize)
        { client with refbuf := some mem.fresh, pos := perClientRefbufSize, introOffset := 0 }

/-- The end of `format_check_http_buffer`. -/
def checkHttpSent (addr : ℕ) (mem : Memory) (client : Client) : ℤ × Memory × Client :=
  if client.pos = mem.len addr then
    (-1, mem.setLen addr 4096,
      { client with
        writeToClient := .writeBufToClient type
        checkBuffer := .formatCheckFileBuffer
        introOffset := 0
        pos := 4096 })
  else (0, mem, client)

/-- The header is built in the listener's own buffer, and `create_client_data` is called for it. -/
def formatCheckHttpBuffer (mem : Memory) (client : Client) : ℤ × Memory × Client :=
  match client.refbuf with
  | none => (-1, mem, client)
  | some addr =>
    if client.respcode = 0 then
      match pass.headers with
      | none => (-1, mem, { client with respcode := 500, error := true })
      | some len =>
        checkHttpSent type addr (mem.setLen addr (len % 2 ^ 32))
          { client with respcode := 200, formatData := some type }
    else checkHttpSent type addr mem client

def formatAdvanceQueue (mem : Memory) (client : Client) : ℤ × Memory × Client :=
  match client.refbuf with
  | none => (-1, mem, client)
  | some addr =>
    if client.pos = mem.len addr then
      match (mem.heap addr).next with
      | none => (-1, mem, client)
      | some next => (0, clientSetQueue mem client (some next))
    else (0, mem, client)

def checkBuffer (mem : Memory) (client : Client) : ℤ × Memory × Client :=
  match client.checkBuffer with
  | .formatCheckHttpBuffer => formatCheckHttpBuffer type pass mem client
  | .formatCheckFileBuffer => formatCheckFileBuffer type source mem client
  | .formatAdvanceQueue => formatAdvanceQueue mem client

/-- How far a write of the rest of the buffer at `addr` comes. -/
def sendRest (addr : ℕ) (mem : Memory) (client : Client) : Client :=
  { client with
    pos := client.pos + min pass.accepted (usub 32 (mem.len addr) client.pos) }

/-- `write_to_client`. The plugins write the rest of the buffer or a part of it, between data of
their own; the one for EBML hands over to the generic function once its header is sent. -/
def writeToClient (mem : Memory) (client : Client) : Client :=
  match client.refbuf with
  | none => client
  | some addr =>
    match client.writeToClient with
    | .formatGenericWriteToClient => sendRest pass addr mem client
    | .writeBufToClient .ebml =>
      if pass.headerDone then
        sendRest pass addr mem { client with writeToClient := .formatGenericWriteToClient }
      else client
    | .writeBufToClient _ => sendRest pass addr mem client

/-- One pass of the loop, and the listener at its call of `write_to_client` if there is one. -/
def sendToListener (mem : Memory) (client : Client) : Memory × Client × Option Client :=
  if client.error then (mem, client, none)
  else
    let (ret, mem, client) := checkBuffer type source pass mem client
    if ret < 0 then (mem, client, none) else (mem, writeToClient pass mem client, some client)

end Check

/-! ## Trees -/

/-- The first loop of `source_main`, as far as it removes listeners. -/
def removeClients (mem : Memory) (source : SourceState) : Memory × SourceState :=
  let dead := source.clientTree.filter (·.error)
  (dead.foldl freeClient mem,
    { source with
      clientTree := source.clientTree.filter (!·.error)
      listeners := source.listeners - dead.length })

def full (maxListeners : Option ℕ) (listeners : ℕ) : Bool :=
  match maxListeners with
  | none => false
  | some limit => limit ≤ listeners

/-- The second loop of `source_main`. -/
def pendingLoop (maxListeners : Option ℕ) :
    List Client → Memory → List Client → ℕ → Memory × List Client × ℕ
  | [], mem, tree, listeners => (mem, tree, listeners)
  | client :: pending, mem, tree, listeners =>
    if full maxListeners listeners then
      pendingLoop maxListeners pending (freeClient mem client) tree listeners
    else pendingLoop maxListeners pending mem (avlInsert Client.id client tree) (listeners + 1)

def addPending (mem : Memory) (source : SourceState) : Memory × SourceState :=
  let (mem, tree, listeners) :=
    pendingLoop source.maxListeners source.pendingTree mem source.clientTree source.listeners
  (mem, { source with clientTree := tree, pendingTree := [], listeners })

/-! ## Moving and clearing -/

/-- What the loops of `source_move_clients` change: the memory, the pending tree of the destination
and the number of listeners moved. -/
structure Moved where
  mem : Memory
  pending : List Client
  count : ℕ

/-- One turn of these loops, for a listener that has been taken out of its tree; `con` is
`source->con`. -/
def moveClient (con : Bool) (moved : Moved) (client : Client) : Moved :=
  if client.checkBuffer ≠ .formatCheckHttpBuffer then
    let (mem, client) := clientSetQueue moved.mem client none
    let client := { client with
      checkBuffer := .formatCheckFileBuffer
      introOffset := if con then client.introOffset else -1 }
    ⟨mem, avlInsert Client.id client moved.pending, moved.count + 1⟩
  else ⟨moved.mem, avlInsert Client.id client moved.pending, moved.count + 1⟩

/-- `avl_get_first` and `avl_delete` take the tree apart from its front. -/
def moveLoop (con : Bool) : List Client → Moved → Moved
  | [], moved => moved
  | client :: tree, moved => moveLoop con tree (moveClient con moved client)

def sameType (source dest : SourceState) : Bool :=
  match source.format, dest.format with
  | some type, some destType => type = destType
  | _, _ => true

def sourceMoveClients (mem : Memory) (source dest : SourceState) : Memory × SourceState × SourceState :=
  if source.mount = dest.mount then (mem, source, dest)
  else if !dest.running && !dest.onDemand then (mem, source, dest)
  else if !source.onDemand && source.format.isNone then (mem, source, dest)
  else if !sameType source dest then (mem, source, dest)
  else
    let moved := moveLoop source.con source.pendingTree ⟨mem, dest.pendingTree, 0⟩
    let moved := moveLoop source.con source.clientTree moved
    (moved.mem,
      { source with pendingTree := [], clientTree := [], listeners := 0 },
      { dest with
        pendingTree := moved.pending
        onDemandReq :=
          dest.onDemandReq || (!dest.running && dest.onDemand && moved.count ≠ 0) })

/-- The loop of `source_clear_source` that gives up the queue. -/
def clearQueue : ℕ → Option ℕ → Memory → Memory
  | 0, _, mem => mem
  | _ + 1, none, mem => mem
  | fuel + 1, some addr, mem =>
    clearQueue fuel (mem.heap addr).next
      (mem.update addr fun refbuf ↦ { refbuf with next := none, count := 0 })

def sourceClearSource (mem : Memory) (source : SourceState) : Memory × SourceState :=
  let mem := (source.clientTree ++ source.pendingTree).foldl freeClient mem
  (clearQueue mem.fresh source.streamData mem,
    { source with
      client := false
      con := false
      clientTree := []
      pendingTree := []
      format := none
      streamData := none
      streamDataTail := none
      burstPoint := none
      burstSize := 0
      burstOffset := 0
      queueSize := 0
      queueSizeLimit := 0
      listeners := 0
      maxListeners := none
      introFile := none
      onDemandReq := false
      active := false })

/-! ## Events -/

inductive Event where
  | reserve (mount : String)
  | updateSettings (id : ℕ) (onDemand : Bool) (introFile maxListeners : Option ℕ)
      (burstSize queueSizeLimit : ℕ)
  /-- `connection_complete_source` sets up the plugin; a file fallback has no `client` and no
  `con`. -/
  | completeSource (id : ℕ) (type : FormatType) (client con : Bool)
  | init (id : ℕ)
  | connect (id : ℕ)
  | append (id len : ℕ) (syncPoint : Bool)
  | trim (id : ℕ)
  | pass (id i : ℕ) (pass : Pass)
  /-- A connection is given up: it has failed, its time is over, or it has fallen behind. -/
  | setError (id i : ℕ)
  | removeClients (id : ℕ)
  | addPending (id : ℕ)
  | move (id dest : ℕ)
  | stop (id : ℕ)
  | clear (id : ℕ)
  deriving DecidableEq

def reserved (mount : String) : SourceState where
  mount := mount
  client := false
  con := false
  running := false
  onDemand := false
  onDemandReq := false
  active := false
  format := none
  introFile := none
  maxListeners := none
  listeners := 0
  clientTree := []
  pendingTree := []
  streamData := none
  streamDataTail := none
  burstPoint := none
  burstSize := 0
  burstOffset := 0
  queueSize := 0
  queueSizeLimit := 0

/-- An operation on the memory and one source. -/
def onSource (id : ℕ) (f : Memory → SourceState → Memory × SourceState) (s : State) : State :=
  match s.sources.objects id with
  | none => s
  | some source =>
    { s with
      mem := (f s.mem source).1
      sources := s.sources.modify id fun _ ↦ (f s.mem source).2 }

/-- A client that has sent its request, as `__add_listener_to_source` sets it up. -/
def newListener (client : ℕ) (mem : Memory) : Client where
  id := client
  refbuf := some mem.fresh
  pos := 0
  introOffset := 0
  respcode := 0
  checkBuffer := .formatCheckHttpBuffer
  writeToClient := .formatGenericWriteToClient
  formatData := none
  error := false

def addListener (client : ℕ) (mem : Memory) (source : SourceState) : Memory × SourceState :=
  (refbufNew mem perClientRefbufSize,
    { source with
      pendingTree := avlInsert Client.id (newListener client mem) source.pendingTree
      onDemandReq := source.onDemandReq || (!source.running && source.onDemand) })

/-- A change of the queue, inside `source_main`. -/
def onQueue (f : Queue.SourceState → Queue.SourceState) (mem : Memory) (source : SourceState) :
    Memory × SourceState :=
  if source.active then
    let queue := f (queueOf mem source)
    (⟨queue.heap, queue.fresh⟩, setQueue queue source)
  else (mem, source)

/-- A pass for the listener at position `i` of the client tree. -/
def passClient (id i : ℕ) (pass : Pass) (s : State) : State :=
  match s.sources.objects id with
  | none => s
  | some source =>
    match source.format, source.clientTree[i]? with
    | some type, some client =>
      if source.active then
        let (mem, client, call) := sendToListener type source pass s.mem client
        { s with
          mem
          sources := s.sources.modify id fun _ ↦
            { source with clientTree := source.clientTree.set i client }
          calls := call.toList ++ s.calls }
      else s
    | _, _ => s

def markClient (i : ℕ) (source : SourceState) : SourceState :=
  { source with clientTree := source.clientTree.modify i fun client ↦ { client with error := true } }

/-- A change of the source alone. -/
def plain (f : SourceState → SourceState) (mem : Memory) (source : SourceState) : Memory × SourceState :=
  (mem, f source)

def moveClients (id dest : ℕ) (s : State) : State :=
  match s.sources.objects id, s.sources.objects dest with
  | some source, some target =>
    if id = dest then s
    else
      let (mem, source, target) := sourceMoveClients s.mem source target
      { s with
        mem
        sources := (s.sources.modify id fun _ ↦ source).modify dest fun _ ↦ target }
  | _, _ => s

def step (s : State) : Event → State
  | .reserve mount => { s with sources := s.sources.alloc (reserved mount) }
  | .updateSettings id onDemand introFile maxListeners burstSize queueSizeLimit =>
    onSource id (plain fun source ↦
      { source with onDemand, introFile, maxListeners, burstSize, queueSizeLimit }) s
  | .completeSource id type client con =>
    onSource id (plain fun source ↦
      if source.active then source else { source with format := some type, client, con }) s
  | .init id =>
    onSource id (plain fun source ↦
      if source.active || source.format.isNone then source
      else { source with listeners := 0, running := true, active := true }) s
  | .connect id => { onSource id (addListener s.nextId) s with nextId := s.nextId + 1 }
  | .append id len syncPoint =>
    onSource id (onQueue fun queue ↦ Queue.append queue (len % 2 ^ 32) syncPoint) s
  | .trim id => onSource id (onQueue Queue.trim) s
  | .pass id i pass => passClient id i pass s
  | .setError id i => onSource id (plain (markClient i)) s
  | .removeClients id => onSource id removeClients s
  | .addPending id => onSource id addPending s
  | .move id dest => moveClients id dest s
  | .stop id => onSource id (plain fun source ↦ { source with running := false }) s
  | .clear id => onSource id sourceClearSource s

def start : State := ⟨⟨fun _ ↦ ⟨0, 0, none, false⟩, 0⟩, .empty, 0, []⟩

/-! ## The listeners of a source -/

def SourceState.trees (source : SourceState) : List Client := source.pendingTree ++ source.clientTree

theorem pendingLoop_subperm (maxListeners : Option ℕ) (pending : List Client) (mem : Memory)
    (tree : List Client) (listeners : ℕ) :
    (pendingLoop maxListeners pending mem tree listeners).2.1 <+~ pending ++ tree := by
  induction pending generalizing mem tree listeners with
  | nil => exact List.Subperm.refl _
  | cons client pending ih =>
    unfold pendingLoop
    split
    · exact (ih _ _ _).trans (List.sublist_cons_self client _).subperm
    · have hperm : pending ++ avlInsert Client.id client tree ~ client :: pending ++ tree :=
        ((avlInsert_perm Client.id client tree).append_left pending).trans List.perm_middle
      exact (ih _ _ _).trans hperm.subperm

/-- An iteration of `source_main` leaves listeners out, but none is there twice. -/
theorem addPending_trees (mem : Memory) (source : SourceState) :
    (addPending mem source).2.trees <+~ source.trees :=
  pendingLoop_subperm _ _ _ _ _

theorem removeClients_trees (mem : Memory) (source : SourceState) :
    (removeClients mem source).2.trees <+~ source.trees :=
  (List.filter_sublist.append_left _).subperm

theorem addListener_trees (client : ℕ) (mem : Memory) (source : SourceState) :
    (addListener client mem source).2.trees ~ newListener client mem :: source.trees :=
  (avlInsert_perm _ _ _).append_right _

end Icecast.Source.Delivery
