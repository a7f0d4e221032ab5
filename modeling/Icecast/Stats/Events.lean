import Icecast.Lib.Decimal
import Icecast.Lib.Heap
import Icecast.Lib.Machine
import Icecast.Lib.OrderedMap
import Mathlib.Data.String.Basic

/-!
# Statistics

All parts of the server report changes as events in one queue; a thread of its own takes them out and
works them into the trees of names and values, one global and one for each mount (`stats.c`). A stats
client gets a copy of all values when it registers, and from then on a copy of every event that has
been processed.

An event that is counted up or down gets its value while it is processed. Texts are valid UTF-8,
since `stats_event` turns away others.
-/

namespace Icecast.Stats

open Lib Lib.Decimal Lib.Machine

inductive Action where
  | set
  | inc
  | dec
  | add
  | sub
  | remove
  | hidden
  deriving DecidableEq

/-- `stats_event_t`; a global event has no source. -/
structure Event where
  source : Option String
  name : Option String
  value : Option String
  action : Action
  deriving DecidableEq

/-- `stats_node_t`, less its name. -/
structure Node where
  value : String
  hidden : Bool
  deriving DecidableEq

/-- `stats_source_t`, less the name of its mount. -/
structure SourceStats where
  statsTree : OrderedMap String Node
  hidden : Bool

/-- `stats_t` -/
structure StatsState where
  globalTree : OrderedMap String Node
  sourceTree : OrderedMap String SourceStats

/-! ## Building events -/

/-- What `snprintf` leaves of a number in a buffer of 16 bytes. -/
def printNumber (number : ℤ) : String := String.ofList ((toString number).toList.take 15)

/-- An event without a value is a removal, unless its action is set afterwards. -/
def buildEvent (source name value : Option String) : Event :=
  ⟨source, name, value, if value.isSome then .set else .remove⟩

/-- The functions that report a change. -/
inductive Report where
  | event (source name value : Option String)
  | eventHidden (source name : Option String) (hidden : Bool)
  | eventInc (source : Option String) (name : String)
  | eventDec (source : Option String) (name : String)
  | eventAdd (source : Option String) (name : String) (value : ℕ)
  | eventSub (source : Option String) (name : String) (value : ℕ)
  deriving DecidableEq

def Report.build : Report → Event
  | .event source name value => buildEvent source name value
  | .eventHidden source name hidden =>
    { buildEvent source name (if hidden then some "" else none) with action := .hidden }
  | .eventInc source name => { buildEvent source (some name) none with action := .inc }
  | .eventDec source name => { buildEvent source (some name) none with action := .dec }
  | .eventAdd source name value =>
    { buildEvent source (some name) none with value := some (printNumber value), action := .add }
  | .eventSub source name value =>
    { buildEvent source (some name) none with value := some (printNumber value), action := .sub }

/-! ## Processing -/

/-- The number that an action makes of a value. The sums are those of `int`, the difference that of
`long long`. -/
def newNumber (value : String) (event : Event) : ℤ :=
  match event.action with
  | .inc => toInt (atoi value + 1)
  | .dec => toInt (atoi value - 1)
  | .add => toInt (atoi value + atoi (event.value.getD ""))
  | .sub => (atoll value - atoll (event.value.getD "")).bmod (2 ^ 64)
  | _ => 0

/-- `modify_node_event`. The event keeps a value that it already has. -/
def modifyNodeEvent (node : Node) (event : Event) : Node × Event :=
  match event.action with
  | .hidden => ({ node with hidden := event.value.isSome }, event)
  | .set => ({ node with value := event.value.getD "" }, event)
  | _ =>
    let str := printNumber (newNumber node.value event)
    ({ node with value := str }, { event with value := some (event.value.getD str) })

/-- `process_global_event`; there is no result when it dereferences a name or value that is not
there. -/
def processGlobalEvent (event : Event) (stats : StatsState) : Option (StatsState × Event) :=
  match event.name with
  | none =>
    if event.action = .remove ∧ stats.globalTree.entries.isEmpty then some (stats, event) else none
  | some name =>
    if event.action = .remove then
      some ({ stats with globalTree := stats.globalTree.erase name }, event)
    else
      match stats.globalTree.find? name with
      | some node =>
        let (node, event) := modifyNodeEvent node event
        some ({ stats with globalTree := stats.globalTree.insert name node }, event)
      | none =>
        event.value.map fun value ↦
          ({ stats with globalTree := stats.globalTree.insert name ⟨value, false⟩ }, event)

def StatsState.setSource (stats : StatsState) (source : String) (snode : SourceStats) : StatsState :=
  { stats with sourceTree := stats.sourceTree.insert source snode }

/-- `process_source_event` once the node of the mount has been found or added. -/
def processInSource (source : String) (snode : SourceStats) (event : Event) (stats : StatsState) :
    StatsState × Event :=
  match event.name with
  | some name =>
    match snode.statsTree.find? name with
    | none =>
      if event.action = .remove then (stats, event)
      else
        match event.value with
        | none => (stats, event)
        | some value =>
          (stats.setSource source
            { snode with statsTree := snode.statsTree.insert name ⟨value, snode.hidden⟩ }, event)
    | some node =>
      if event.action = .remove then
        (stats.setSource source { snode with statsTree := snode.statsTree.erase name }, event)
      else
        let (node, event) := modifyNodeEvent node event
        (stats.setSource source { snode with statsTree := snode.statsTree.insert name node }, event)
  | none =>
    match event.action with
    | .hidden =>
      let hidden := event.value.isSome
      (stats.setSource source ⟨snode.statsTree.mapValues ({ · with hidden }), hidden⟩, event)
    | .remove => ({ stats with sourceTree := stats.sourceTree.erase source }, event)
    | _ => (stats, event)

def processSourceEvent (source : String) (event : Event) (stats : StatsState) : StatsState × Event :=
  match stats.sourceTree.find? source with
  | some snode => processInSource source snode event stats
  | none =>
    if event.action = .remove then (stats, event)
    else
      let snode : SourceStats := ⟨.empty, event.action = .hidden⟩
      processInSource source snode event (stats.setSource source snode)

/-- The trees and the event after it has been processed. -/
def processEvent (event : Event) (stats : StatsState) : Option (StatsState × Event) :=
  match event.source with
  | none => processGlobalEvent event stats
  | some source => some (processSourceEvent source event stats)

/-! ## Stats clients -/

/-- What a stats client is told. The action is not part of it. -/
structure Copy where
  source : Option String
  name : Option String
  value : Option String
  deriving DecidableEq

def copyEvent (event : Event) : Copy := ⟨event.source, event.name, event.value⟩

def makeEventFromNode (source : Option String) (entry : String × Node) : Copy :=
  ⟨source, some entry.1, some entry.2.value⟩

/-- The events that `_register_listener` puts into the queue of a new client. -/
def snapshot (stats : StatsState) : List Copy :=
  stats.globalTree.entries.map (makeEventFromNode none) ++
    stats.sourceTree.entries.flatMap fun entry ↦
      entry.2.statsTree.entries.map (makeEventFromNode (some entry.1))

/-- `event_listener_t` with the events that have been sent. `given` records everything that has been
put into the queue. -/
structure Listener where
  queue : List Copy
  received : List Copy
  given : List Copy
  deriving DecidableEq

def Listener.push (copy : Copy) (listener : Listener) : Listener :=
  { listener with queue := listener.queue ++ [copy], given := listener.given ++ [copy] }

/-- The length of the line that `_send_event_to_client` formats. -/
def lineLength (copy : Copy) : ℕ :=
  "EVENT ".utf8ByteSize + (copy.source.getD "global").utf8ByteSize + 1 +
    (copy.name.getD "null").utf8ByteSize + 1 + (copy.value.getD "null").utf8ByteSize + 1

/-- What the socket makes of a line: it may also take only a part of it, or be at its end. -/
inductive Sent where
  | whole
  | partly
  | failed
  deriving DecidableEq

/-- `_event_listeners` are all stats clients that are registered. -/
structure State where
  stats : StatsState
  queue : List Event
  listeners : Heap Listener
  crashed : Bool

def start : State := ⟨⟨.empty, .empty⟩, [], .empty, false⟩

/-- A turn of `_stats_thread`. -/
def statsThread (s : State) : State :=
  match s.queue with
  | [] => s
  | event :: queue =>
    match processEvent event s.stats with
    | none => { s with queue, crashed := true }
    | some (stats, event) =>
      { s with stats, queue, listeners := s.listeners.map (Listener.push (copyEvent event)) }

def registerListener (s : State) : State :=
  { s with listeners := s.listeners.alloc ⟨snapshot s.stats, [], snapshot s.stats⟩ }

/-- A turn of `stats_connection`. A line that does not fit into the buffer is not sent. -/
def sendEvent (id : ℕ) (sent : Sent) (s : State) : State :=
  match s.listeners.objects id with
  | none => s
  | some listener =>
    match listener.queue with
    | [] => s
    | copy :: queue =>
      if 200 ≤ lineLength copy then
        { s with listeners := s.listeners.modify id ({ · with queue }) }
      else
        match sent with
        | .whole =>
          { s with
            listeners := s.listeners.modify id
              ({ · with queue, received := listener.received ++ [copy] }) }
        | .partly => { s with listeners := s.listeners.modify id ({ · with queue }) }
        | .failed => { s with listeners := s.listeners.free id }

/-- `reserved` are the mounts in `global.source_tree`. -/
def statsClearVirtualMounts (reserved : List String) (stats : StatsState) : StatsState :=
  { stats with sourceTree := stats.sourceTree.keep (· ∈ reserved) }

inductive Step where
  | report (report : Report)
  | statsThread
  | register
  | sendEvent (id : ℕ) (sent : Sent)
  | clearVirtualMounts (reserved : List String)
  deriving DecidableEq

def step (s : State) (action : Step) : State :=
  if s.crashed then s
  else
    match action with
    | .report report => { s with queue := s.queue ++ [report.build] }
    | .statsThread => statsThread s
    | .register => registerListener s
    | .sendEvent id sent => sendEvent id sent s
    | .clearVirtualMounts reserved => { s with stats := statsClearVirtualMounts reserved s.stats }

end Icecast.Stats
