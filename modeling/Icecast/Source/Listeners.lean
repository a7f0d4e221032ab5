import Icecast.Lib.Heap
import Icecast.Lib.Machine
import Icecast.Source.AvlTree

/-!
# Listeners and the global listener statistic

The two trees of a source (`source.c`): new and moved listeners wait in the pending tree until the
next turn of the source's thread takes them into the client tree. The global statistic `listeners` is
incremented when the response header of a listener is built (`format.c`), and decremented or
subtracted from where listeners leave.

Every section under the tree locks is a step. A shutdown is the sequence of `stop`, `move` (if there
is a fallback) and `clear`, between which other steps may come. Trees are lists in the order of the
connection ids.
-/

namespace Icecast.Source.Listeners

open AvlTree Lib Lib.Machine

/-- A listening `client_t`. `httpBuffer` says that `check_buffer` is `format_check_http_buffer`. -/
structure Listener where
  id : ℕ
  respcode : ℕ
  httpBuffer : Bool
  error : Bool
  deriving DecidableEq

/-- `source_t`; a `prevListeners` or `maxListeners` of `-1` is `none`. `active` is true from
`source_init` to the end of `source_shutdown`. -/
structure SourceState where
  clientTree : List Listener
  pendingTree : List Listener
  listeners : ℕ
  prevListeners : Option ℕ
  maxListeners : Option ℕ
  running : Bool
  onDemand : Bool
  format : Option ℕ
  active : Bool

/-- `stat` is the net of all changes of the global statistic. -/
structure State where
  sources : Heap SourceState
  stat : ℤ

def start : State := ⟨.empty, 0⟩

/-! ## A turn of the source's thread -/

/-- What happens to a listener in `send_to_listener`: its time may be over, its header may be built
or not and be sent completely or not, writing may fail, and it may have fallen too far behind. -/
structure Turn where
  timeOver : Bool
  headersBuilt : Bool
  headersSent : Bool
  writeFails : Bool
  lagging : Bool
  deriving DecidableEq

/-- `format_check_http_buffer`, with the increment of the statistic. -/
def formatCheckHttpBuffer (turn : Turn) (client : Listener) : Listener × ℤ :=
  if client.respcode = 0 then
    if turn.headersBuilt then ({ client with respcode := 200, httpBuffer := !turn.headersSent }, 1)
    else ({ client with respcode := 500, error := true }, 0)
  else ({ client with httpBuffer := !turn.headersSent }, 0)

def sendToListener (turn : Turn) (client : Listener) : Listener × ℤ :=
  let client := { client with error := client.error || turn.timeOver }
  let (client, change) :=
    if client.error ∨ ¬client.httpBuffer then (client, 0) else formatCheckHttpBuffer turn client
  ({ client with error := client.error || turn.writeFails || turn.lagging }, change)

/-- The first loop of `source_main`: the listeners that are kept, how many are removed, and the
change of the statistic. -/
def clientLoop (turn : ℕ → Turn) : List Listener → List Listener × ℕ × ℤ
  | [] => ([], 0, 0)
  | client :: tree =>
    let (client, change) := sendToListener (turn client.id) client
    let (kept, removed, stat) := clientLoop turn tree
    if client.error then
      (kept, removed + 1, stat + change - if client.respcode = 200 then 1 else 0)
    else (client :: kept, removed, stat + change)

def full (maxListeners : Option ℕ) (listeners : ℕ) : Bool :=
  match maxListeners with
  | none => false
  | some limit => limit ≤ listeners

/-- The second loop: pending listeners are added, or dropped when the source is full. -/
def pendingLoop (maxListeners : Option ℕ) : List Listener → List Listener → ℕ → List Listener × ℕ
  | [], tree, listeners => (tree, listeners)
  | client :: pending, tree, listeners =>
    if full maxListeners listeners then pendingLoop maxListeners pending tree listeners
    else pendingLoop maxListeners pending (avlInsert Listener.id client tree) (listeners + 1)

/-- Both loops of a turn, with the pending tree cleared at the end. -/
def sourceTurn (turn : ℕ → Turn) (source : SourceState) : SourceState × ℤ :=
  let (kept, removed, change) := clientLoop turn source.clientTree
  let (tree, listeners) :=
    pendingLoop source.maxListeners source.pendingTree kept (source.listeners - removed)
  let idle := source.prevListeners ≠ some listeners && listeners = 0 && source.onDemand
  ({ source with
      clientTree := tree
      pendingTree := []
      listeners
      prevListeners := some listeners
      running := source.running && !idle }, change)

/-! ## Clearing and moving -/

/-- `source_clear_source`. If any of the listeners has had some processing, `source->listeners` is
subtracted. -/
def sourceClearSource (source : SourceState) : SourceState × ℤ :=
  let c := source.clientTree.countP (·.respcode = 200)
  let change : ℤ := if c = 0 then 0 else -source.listeners
  ({ source with
      clientTree := []
      pendingTree := []
      listeners := 0
      prevListeners := some 0
      maxListeners := none
      format := none
      active := false }, change)

/-- The conditions under which `source_move_clients` does anything. -/
def movable (source dest : SourceState) : Bool :=
  (dest.running || dest.onDemand) && (source.onDemand || source.format.isSome) &&
    (source.format.isNone || dest.format.isNone || source.format = dest.format)

def emptied (source : SourceState) : SourceState :=
  { source with clientTree := [], pendingTree := [], listeners := 0 }

def receive (clients : List Listener) (dest : SourceState) : SourceState :=
  { dest with
    pendingTree := clients.foldl (fun tree client ↦ avlInsert Listener.id client tree) dest.pendingTree }

/-- `source_move_clients`: first the pending listeners go over, then the others. -/
def sourceMoveClients (id dest : ℕ) (s : State) : State :=
  match s.sources.objects id, s.sources.objects dest with
  | some source, some target =>
    if id ≠ dest ∧ movable source target then
      { s with
        sources := (s.sources.modify id emptied).modify dest
          (receive (source.pendingTree ++ source.clientTree)) }
    else s
  | _, _ => s

/-! ## Events -/

inductive Event where
  /-- A source is reserved for a mount. -/
  | reserve
  /-- The settings of a mount are applied, or the format of a source is set up. -/
  | configure (id : ℕ) (maxListeners : Option ℕ) (onDemand : Bool) (format : Option ℕ)
  | init (id : ℕ)
  /-- A listener comes to the source that `__add_listener_to_source` has settled on. -/
  | connect (id client : ℕ)
  | sourceMain (id : ℕ) (turn : ℕ → Turn)
  /-- The connection of a listener is marked, as by the admin interface. -/
  | kill (id client : ℕ)
  | stop (id : ℕ)
  | move (id dest : ℕ)
  | clear (id : ℕ)

/-- An operation on one source together with its change of the statistic. -/
def onSource (id : ℕ) (f : SourceState → SourceState × ℤ) (s : State) : State :=
  match s.sources.objects id with
  | none => s
  | some source => ⟨s.sources.modify id fun _ ↦ (f source).1, s.stat + (f source).2⟩

def sourceInit (source : SourceState) : SourceState :=
  if source.active then source
  else { source with listeners := 0, prevListeners := none, running := true, active := true }

def killClient (client : ℕ) (source : SourceState) : SourceState :=
  { source with
    clientTree := source.clientTree.map fun other ↦
      if other.id = client then { other with error := true } else other }

def step (s : State) : Event → State
  | .reserve =>
    { s with sources := s.sources.alloc ⟨[], [], 0, some 0, none, false, false, none, false⟩ }
  | .configure id maxListeners onDemand format =>
    onSource id (fun source ↦ ({ source with maxListeners, onDemand, format }, 0)) s
  | .init id => onSource id (fun source ↦ (sourceInit source, 0)) s
  | .connect id client =>
    onSource id (fun source ↦
      ({ source with pendingTree := avlInsert Listener.id ⟨client, 0, true, false⟩ source.pendingTree }, 0)) s
  | .sourceMain id turn =>
    onSource id (fun source ↦ if source.active then sourceTurn turn source else (source, 0)) s
  | .kill id client => onSource id (fun source ↦ (killClient client source, 0)) s
  | .stop id => onSource id (fun source ↦ ({ source with running := false }, 0)) s
  | .move id dest => sourceMoveClients id dest s
  | .clear id => onSource id sourceClearSource s

end Icecast.Source.Listeners
