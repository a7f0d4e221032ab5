import Icecast.Lib.Heap
import Icecast.Lib.Machine

/-!
# Starting sources

A mount is reserved in `global.source_tree`, then `connection_complete_source` checks the source and
counts it in `global.sources`, and at last its thread runs. Sources are started for source clients
(`source_startup` in `connection.c`), for fallback files (`source_fallback_file` in `source.c`) and
for relays (`slave.c`), whose mounts stay reserved between activations.

A step is a section under a lock. The phase of a source says where its owner stands; a source is
abandoned when the function that had it has returned and nothing refers to it but the tree.
-/

namespace Icecast.Source.Activation

open Lib Lib.Machine

/-- The headers that `connection_complete_source` reads. -/
structure Parser where
  contentType : Option String
  put : Bool
  deriving DecidableEq

/-- The request of a source client. -/
structure SourceRequest where
  parser : Parser
  shoutcast : Bool
  transferEncoding : Option String
  deriving DecidableEq

inductive Phase where
  /-- Reserved by `source_startup`. -/
  | starting (request : SourceRequest)
  /-- Reserved by `source_fallback_file`. -/
  | fallback (parser : Parser)
  /-- Not or no longer activated, to be cleared and freed by the function that has it. -/
  | failed
  /-- Activated, with the response on its way to the source client. -/
  | ready
  /-- In `source_main`. -/
  | running
  /-- Shut down, to be freed by its thread. -/
  | closing
  /-- Kept by a relay that is not running. -/
  | relay
  | abandoned
  deriving DecidableEq

structure SourceState where
  mount : String
  phase : Phase
  isRelay : Bool

structure State where
  sources : Heap SourceState
  sourceTree : List ℕ
  globalSources : ℤ

/-- The configured limit, and the transfer encodings that `httpp` has. -/
structure Server where
  sourceLimit : ℤ
  encodingNew : String → Bool

def start : State := ⟨.empty, [], 0⟩

inductive ErrorId where
  | contentTypeNosys
  | noContentTypeGiven
  | internalFormatAllocError
  | sourceClientLimit
  deriving DecidableEq

inductive FormatType where
  | error
  | ogg
  | ebml
  | generic
  deriving DecidableEq

def formatGetType (contentType : String) : FormatType :=
  if contentType ∈ ["application/x-ogg", "application/ogg", "audio/ogg", "video/ogg"] then .ogg
  else if contentType ∈ ["audio/webm", "video/webm", "audio/x-matroska", "video/x-matroska",
      "video/x-matroska-3d"] then .ebml
  else .generic

/-! ## The functions -/

def sourceFindMountRaw (mount : String) (s : State) : Option ℕ :=
  s.sourceTree.find? fun id ↦ (s.sources.objects id).map SourceState.mount = some mount

/-- `source_reserve` for a caller that goes on in `phase`. -/
def sourceReserve (mount : String) (phase : Phase) (isRelay : Bool) (s : State) : State :=
  if (sourceFindMountRaw mount s).isSome then s
  else
    { s with
      sources := s.sources.alloc ⟨mount, phase, isRelay⟩
      sourceTree := s.sourceTree ++ [s.sources.next] }

def sourceFreeSource (id : ℕ) (s : State) : State :=
  { s with sources := s.sources.free id, sourceTree := s.sourceTree.erase id }

/-- `connection_complete_source`; `pluginFails` is the outcome of `format_get_plugin`. -/
def connectionCompleteSource (server : Server) (pluginFails : Bool) (parser : Parser) (s : State) :
    Except ErrorId State :=
  if s.globalSources < server.sourceLimit then
    match parser.contentType.map formatGetType, parser.put with
    | some .error, _ => .error .contentTypeNosys
    | none, true => .error .noContentTypeGiven
    | _, _ =>
      if pluginFails then .error .internalFormatAllocError
      else .ok { s with globalSources := s.globalSources + 1 }
  else .error .sourceClientLimit

def setPhase (phase : Phase) (source : SourceState) : SourceState := { source with phase }

def goTo (id : ℕ) (phase : Phase) (s : State) : State :=
  { s with sources := s.sources.modify id (setPhase phase) }

/-- Whether the transfer encoding of a request can be decoded. -/
def encodingSupported (server : Server) (request : SourceRequest) : Bool :=
  match request.transferEncoding with
  | none => true
  | some encoding => encoding.toLower = "identity" || server.encodingNew encoding

/-- `source_startup` after the reservation. -/
def sourceStartup (server : Server) (pluginFails : Bool) (id : ℕ) (request : SourceRequest)
    (s : State) :
    State :=
  match connectionCompleteSource server pluginFails request.parser s with
  | .error _ => goTo id .failed s
  | .ok s =>
    if request.shoutcast || encodingSupported server request then goTo id .ready s
    else goTo id .abandoned s

/-- `source_fallback_file` after the reservation. -/
def sourceFallbackFile (server : Server) (pluginFails : Bool) (id : ℕ) (parser : Parser)
    (s : State) : State :=
  match connectionCompleteSource server pluginFails parser s with
  | .error _ => goTo id .abandoned s
  | .ok s => goTo id .running s

def sourceClientCallback (conError : Bool) (id : ℕ) (s : State) : State :=
  if conError then goTo id .failed { s with globalSources := s.globalSources - 1 }
  else goTo id .running s

/-- `source_shutdown`; the source of a relay stays reserved. -/
def sourceShutdown (id : ℕ) (isRelay : Bool) (s : State) : State :=
  goTo id (if isRelay then .relay else .closing) { s with globalSources := s.globalSources - 1 }

/-- `start_relay_stream`; without a connection to the other server there is no parser. -/
def startRelayStream (server : Server) (pluginFails : Bool) (id : ℕ) (connection : Option Parser)
    (s : State) :
    State :=
  match connection with
  | none => s
  | some parser =>
    match connectionCompleteSource server pluginFails parser s with
    | .error _ => s
    | .ok s => goTo id .running s

/-! ## Events -/

inductive Event where
  | startup (mount : String) (request : SourceRequest)
  /-- `opens` says that the file can be opened. -/
  | fallbackFile (mount : String) (opens : Bool) (contentType : String)
  | complete (id : ℕ) (pluginFails : Bool)
  /-- A source that has failed is cleared and freed. -/
  | cleanup (id : ℕ)
  | callback (id : ℕ) (conError : Bool)
  | shutdown (id : ℕ)
  | free (id : ℕ)
  | relayReserve (mount : String)
  | relayStart (id : ℕ) (connection : Option Parser) (pluginFails : Bool)
  | relayFree (id : ℕ)

/-- The phase of a source decides what its owner can do next. -/
def phaseOf (s : State) (id : ℕ) : Option Phase := (s.sources.objects id).map SourceState.phase

def step (server : Server) (s : State) : Event → State
  | .startup mount request => sourceReserve mount (.starting request) false s
  | .fallbackFile mount opens contentType =>
    if mount.toList.head? = some '/' ∧ opens then
      sourceReserve mount (.fallback ⟨some contentType, false⟩) false s
    else s
  | .complete id pluginFails =>
    match phaseOf s id with
    | some (.starting request) => sourceStartup server pluginFails id request s
    | some (.fallback parser) => sourceFallbackFile server pluginFails id parser s
    | _ => s
  | .cleanup id => if phaseOf s id = some .failed then sourceFreeSource id s else s
  | .callback id conError =>
    if phaseOf s id = some .ready then sourceClientCallback conError id s else s
  | .shutdown id =>
    match s.sources.objects id with
    | some source => if source.phase = .running then sourceShutdown id source.isRelay s else s
    | none => s
  | .free id => if phaseOf s id = some .closing then sourceFreeSource id s else s
  | .relayReserve mount => sourceReserve mount .relay true s
  | .relayStart id connection pluginFails =>
    if phaseOf s id = some .relay then startRelayStream server pluginFails id connection s else s
  | .relayFree id => if phaseOf s id = some .relay then sourceFreeSource id s else s

end Icecast.Source.Activation
