import Icecast.Lib.Decimal
import Icecast.Source.Mounts

/-!
# Admin requests

The table of admin commands, the dispatcher and the command handlers (`admin.c`). The dispatcher
looks the source up if there is a `mount` parameter, and insists on one if the command's row says that
it is about a mount. A handler gets the source as a pointer; one that uses it without looking fails on
`NULL`, and that is what the types of the rows have to rule out.

The row of `moveclients.xsl` is of the hybrid type, unlike that of `moveclients`, so that its handler
can be called without a source.
-/

namespace Icecast.Admin

open Auth (Acl AclPolicy AdminType AuthResult ReqType aclTestAdmin aclTestMethod)
open Source.Mounts Lib.Decimal

/-! ## Sources and clients as the handlers see them -/

/-- `format_plugin_t`: the calls of `set_tag`, if the plugin has one. -/
structure Plugin where
  contenttype : String
  setTag : Bool
  tags : List (Option (String × String × Option String))
  deriving DecidableEq

structure Listener where
  id : ℕ
  error : Bool
  deriving DecidableEq

/-- The fields of a `source_t` that only admin requests are about. `clientIp` is that of
`source->client`, and `parser` the method of the request that the source came with. -/
structure Details where
  fallbackMount : Option String
  clientTree : List Listener
  listeners : ℕ
  shoutcastCompat : Bool
  parser : Option ReqType
  clientIp : Option String
  format : Option Plugin

abbrev AdminSource := SourceState Details

/-- An `auth_t` as `manageauth` sees it. -/
structure Role where
  id : ℕ
  adduser : Option (String → String → AuthResult)
  deleteuser : Option (String → AuthResult)
  listuser : Option (List String)

/-- `headerFails` says that a response header cannot be built. `roles` are those of the global stack,
then those of the mounts. -/
structure World where
  config : Config
  sources : List AdminSource
  roles : List Role
  headerFails : Bool
  scheduleConfigReread : Bool
  moved : List (String × String)

/-- `client_t`; `param` looks up a query parameter. -/
structure Client where
  uri : String
  acl : Option Acl
  param : String → Option String
  ip : String

/-! ## The table -/

inductive Format where
  | raw
  | transformed
  | plaintext
  deriving DecidableEq

inductive Function where
  | commandFallback
  | commandMetadata
  | commandShoutcastMetadata
  | commandShowListeners
  | commandStats
  | commandQueueReload
  | commandListMounts
  | commandMoveClients
  | commandKillClient
  | commandKillSource
  | commandManageauth
  | commandUpdatemetadata
  | commandBuildm3u
  deriving DecidableEq

structure Handler where
  route : String
  type : AdminType
  format : Format
  function : Option Function
  deriving DecidableEq

def handlers : List Handler :=
  [⟨"*", .general, .transformed, none⟩,
    ⟨"fallbacks", .mount, .raw, some .commandFallback⟩,
    ⟨"fallbacks.xsl", .mount, .transformed, some .commandFallback⟩,
    ⟨"metadata", .mount, .raw, some .commandMetadata⟩,
    ⟨"metadata.xsl", .mount, .transformed, some .commandMetadata⟩,
    ⟨"admin.cgi", .mount, .transformed, some .commandShoutcastMetadata⟩,
    ⟨"listclients", .mount, .raw, some .commandShowListeners⟩,
    ⟨"listclients.xsl", .mount, .transformed, some .commandShowListeners⟩,
    ⟨"stats", .hybrid, .raw, some .commandStats⟩,
    ⟨"stats.xsl", .hybrid, .transformed, some .commandStats⟩,
    ⟨"stats.xml", .hybrid, .raw, some .commandStats⟩,
    ⟨"reloadconfig", .general, .raw, some .commandQueueReload⟩,
    ⟨"reloadconfig.xsl", .general, .transformed, some .commandQueueReload⟩,
    ⟨"listmounts", .general, .raw, some .commandListMounts⟩,
    ⟨"listmounts.xsl", .general, .transformed, some .commandListMounts⟩,
    ⟨"streamlist", .general, .raw, some .commandListMounts⟩,
    ⟨"streamlist.txt", .general, .plaintext, some .commandListMounts⟩,
    ⟨"streamlist.xsl", .general, .transformed, some .commandListMounts⟩,
    ⟨"moveclients", .mount, .raw, some .commandMoveClients⟩,
    ⟨"moveclients.xsl", .hybrid, .transformed, some .commandMoveClients⟩,
    ⟨"killclient", .mount, .raw, some .commandKillClient⟩,
    ⟨"killclient.xsl", .mount, .transformed, some .commandKillClient⟩,
    ⟨"killsource", .mount, .raw, some .commandKillSource⟩,
    ⟨"killsource.xsl", .mount, .transformed, some .commandKillSource⟩,
    ⟨"manageauth", .general, .raw, some .commandManageauth⟩,
    ⟨"manageauth.xsl", .general, .transformed, some .commandManageauth⟩,
    ⟨"updatemetadata", .mount, .raw, some .commandUpdatemetadata⟩,
    ⟨"updatemetadata.xsl", .mount, .transformed, some .commandUpdatemetadata⟩,
    ⟨"buildm3u", .mount, .raw, some .commandBuildm3u⟩,
    ⟨"", .hybrid, .transformed, some .commandStats⟩,
    ⟨"", .hybrid, .transformed, some .commandStats⟩]

/-- `ADMIN_COMMAND_ERROR` is `-1`. -/
def adminGetCommand (command : String) : ℤ :=
  match handlers.findIdx? (·.route = command) with
  | some i => i
  | none => -1

/-- The row of the wildcard is not a command. -/
def adminGetHandler (command : ℤ) : Option Handler :=
  if 0 < command then handlers[command.toNat]? else none

/-- What `_handle_connection` makes of the URI. -/
def Client.adminCommand (client : Client) : ℤ :=
  if client.uri = "/admin.cgi" then adminGetCommand "admin.cgi"
  else if "/admin/".toList.isPrefixOf client.uri.toList then
    adminGetCommand (String.ofList (client.uri.toList.drop 7))
  else -1

/-! ## Responses -/

inductive ErrorId where
  | unrecognisedCommand
  | clientNeedsToAuthenticate
  | sourceDoesNotExist
  | sourceIsNotAvailable
  | missingParameter
  | roleMissingParameter
  | noSuchDestination
  | suppliedMountpointsAreIdentical
  | destNotRunning
  | metadataBadcall
  | metadataNoSuchAction
  | mountNotAcceptUrlUpdates
  | rolemgnRoleNotFound
  | rolemgnAddNosys
  | rolemgnDeleteNosys
  | headerGenFailed
  deriving DecidableEq

/-- An entry of `admin_build_sourcelist`; the content type is given for a running source. -/
structure ListedSource where
  mount : String
  fallback : String
  listeners : ℕ
  contenttype : Option String

inductive Doc where
  | sourcelist (current : Option String) (sources : List ListedSource)
  | iceresponse (message : String) (ret : ℕ)
  | listeners (mount : String) (count : ℕ) (ids : List ℕ)
  | stats (mount : Option String)
  | role (id : ℕ) (message : Option String) (users : Option (List String))
  | source (mount : String)

inductive Response where
  | error (id : ErrorId)
  | document (doc : Doc) (format : Format) (template : String)
  | html (message : String)
  | playlist (username password mount : String)
  | streams

/-- The pointers that a handler may find to be `NULL` when it uses them. -/
inductive Fault where
  | nullSource
  | nullParser
  | nullFormat
  deriving DecidableEq

abbrev Outcome := Except Fault (World × Response)

def deref (source : Option AdminSource) : Except Fault AdminSource :=
  source.elim (.error .nullSource) .ok

def adminSendResponse (world : World) (doc : Doc) (format : Format) (template : String) : Response :=
  if format = .raw ∧ world.headerFails then .error .headerGenFailed
  else .document doc format template

def htmlSuccess (world : World) (message : String) : Response :=
  if world.headerFails then .error .headerGenFailed else .html message

def listedSource (source : AdminSource) : Except Fault ListedSource :=
  let fallback := source.details.fallbackMount.getD ""
  if source.running then
    match source.details.format with
    | none => .error .nullFormat
    | some format =>
      .ok ⟨source.mount, fallback, source.details.listeners, some format.contenttype⟩
  else .ok ⟨source.mount, fallback, source.details.listeners, none⟩

def adminBuildSourcelist (world : World) (mount : Option String) : Except Fault Doc := do
  let listed := world.sources.filter fun source ↦ mount ≠ some source.mount && source.available
  return .sourcelist mount (← listed.mapM listedSource)

def World.modifySource (world : World) (mount : String) (f : AdminSource → AdminSource) : World :=
  { world with
    sources := world.sources.map fun source ↦ if source.mount = mount then f source else source }

/-- Calls of `set_tag` on the plugin of a source, closed by the one that pushes them out. -/
def pushTags (tags : List (String × String × Option String)) (source : AdminSource) : AdminSource :=
  { source with
    details := { source.details with
      format := source.details.format.map fun plugin ↦
        { plugin with tags := plugin.tags ++ tags.map some ++ [none] } } }

/-! ## The command handlers -/

section Commands

variable (client : Client) (source : Option AdminSource) (format : Format) (world : World)

def fail (id : ErrorId) : Outcome := .ok (world, .error id)

def commandMoveClients : Outcome :=
  match client.param "destination" with
  | none => do
    let source ← deref source
    let doc ← adminBuildSourcelist world (some source.mount)
    return (world, adminSendResponse world doc format "moveclients.xsl")
  | some destSource =>
    match sourceFindMount world.config world.sources destSource with
    | none => fail world .noSuchDestination
    | some dest => do
      let source ← deref source
      if dest.mount = source.mount then fail world .suppliedMountpointsAreIdentical
      else if !dest.available then fail world .destNotRunning
      else
        let world := { world with moved := world.moved ++ [(source.mount, dest.mount)] }
        let message := "Clients moved from " ++ source.mount ++ " to " ++ destSource
        return (world, adminSendResponse world (.iceresponse message 1) format "response.xsl")

def commandShowListeners : Outcome := do
  let source ← deref source
  let doc := Doc.listeners source.mount source.details.listeners
    (source.details.clientTree.map (·.id))
  return (world, adminSendResponse world doc format "listclients.xsl")

def commandBuildm3u : Outcome := do
  let source ← deref source
  match client.param "username", client.param "password" with
  | some username, some password =>
    if world.headerFails then fail world .headerGenFailed
    else return (world, .playlist username password source.mount)
  | _, _ => fail world .missingParameter

/-- The part of `command_manageauth` that changes users: its message, or the error to be sent. -/
def manageUsers (role : Role) : Except ErrorId (Option String) :=
  let username := client.param "username"
  match (client.param "action").getD "list" with
  | "add" =>
    match username, client.param "password" with
    | some username, some password =>
      match role.adduser with
      | none => .error .rolemgnAddNosys
      | some adduser =>
        match adduser username password with
        | .failed => .ok (some "User add failed - check the icecast error log")
        | .useradded => .ok (some "User added")
        | .userexists => .ok (some "User already exists - not added")
        | _ => .ok none
    | _, _ => .error .roleMissingParameter
  | "delete" =>
    match username with
    | none => .error .roleMissingParameter
    | some username =>
      match role.deleteuser with
      | none => .error .rolemgnDeleteNosys
      | some deleteuser =>
        match deleteuser username with
        | .failed => .ok (some "User delete failed - check the icecast error log")
        | .userdeleted => .ok (some "User deleted")
        | _ => .ok none
  | _ => .ok none

def commandManageauth : Outcome :=
  match client.param "id" with
  | none => fail world .missingParameter
  | some idstring =>
    match world.roles.find? (·.id = (atoll idstring % 2 ^ 64).toNat) with
    | none => fail world .rolemgnRoleNotFound
    | some role =>
      match manageUsers client role with
      | .error id => fail world id
      | .ok message =>
        .ok (world, adminSendResponse world (.role role.id message role.listuser) format
          "manageauth.xsl")

def commandKillSource : Outcome := do
  let source ← deref source
  let world := world.modifySource source.mount fun source ↦ { source with running := false }
  return (world, adminSendResponse world (.iceresponse "Source Removed" 1) format "response.xsl")

/-- `source_find_client`: the `int` is compared with an `unsigned long`. -/
def sourceFindClient (source : AdminSource) (id : ℤ) : Option Listener :=
  source.details.clientTree.find? (·.id = (id % 2 ^ 64).toNat)

def markClient (id : ℕ) (source : AdminSource) : AdminSource :=
  { source with
    details := { source.details with
      clientTree := source.details.clientTree.map fun listener ↦
        if listener.id = id then { listener with error := true } else listener } }

def commandKillClient : Outcome :=
  match client.param "id" with
  | none => fail world .missingParameter
  | some idtext => do
    let id := atoi idtext
    let source ← deref source
    match sourceFindClient source id with
    | some listener =>
      let world := world.modifySource source.mount (markClient listener.id)
      return (world, adminSendResponse world (.iceresponse ("Client " ++ toString id ++ " removed") 1)
        format "response.xsl")
    | none =>
      return (world, adminSendResponse world
        (.iceresponse ("Client " ++ toString id ++ " not found") 0) format "response.xsl")

def commandFallback : Outcome :=
  match client.param "fallback" with
  | none => fail world .missingParameter
  | some fallback => do
    let source ← deref source
    let world := world.modifySource source.mount fun source ↦
      { source with details := { source.details with fallbackMount := some fallback } }
    return (world, htmlSuccess world "Fallback configured")

/-- The client of an update is the one that feeds the source, as far as can be told. -/
def otherIp (source : AdminSource) : Bool :=
  source.details.clientIp.any (· ≠ client.ip)

def acceptsTags (source : AdminSource) : Bool := source.details.format.any (·.setTag)

def metadataTags : List (String × String × Option String) :=
  let charset := client.param "charset"
  match client.param "song", client.param "artist", client.param "title" with
  | some song, _, _ => [("song", song, charset)]
  | none, some artist, some title => [("title", title, charset), ("artist", artist, charset)]
  | _, _, _ => []

def commandMetadata : Outcome := do
  let source ← deref source
  let respond (world : World) (message : String) (ret : ℕ) : Outcome :=
    .ok (world, adminSendResponse world (.iceresponse message ret) format "response.xsl")
  match client.param "mode" with
  | none => fail world .missingParameter
  | some action =>
    if action ≠ "updinfo" then respond world "No such action" 0
    else
      let sameIp := !(otherIp client source && format = .raw &&
        aclTestAdmin client.acl client.adminCommand ≠ .allow)
      if sameIp && acceptsTags source then
        respond (world.modifySource source.mount (pushTags (metadataTags client)))
          "Metadata update successful" 1
      else respond world "Mountpoint will not accept URL updates" 1

def commandShoutcastMetadata : Outcome := do
  let source ← deref source
  if !source.details.shoutcastCompat then fail world .metadataBadcall
  else if source.details.parser.isNone then .error .nullParser
  else
    match client.param "mode", client.param "song" with
    | some action, some value =>
      if action ≠ "updinfo" then fail world .metadataNoSuchAction
      else
        let sameIp := !(otherIp client source &&
          aclTestAdmin client.acl client.adminCommand ≠ .allow)
        if sameIp && acceptsTags source then
          let world := world.modifySource source.mount (pushTags [("title", value, none)])
          return (world, htmlSuccess world "Metadata update successful")
        else fail world .mountNotAcceptUrlUpdates
    | _, _ => fail world .missingParameter

def commandStats : Outcome :=
  .ok (world, adminSendResponse world (.stats (source.map (·.mount))) format "stats.xsl")

def commandQueueReload : Outcome :=
  let world := { world with scheduleConfigReread := true }
  .ok (world, adminSendResponse world (.iceresponse "Config reload queued" 1) format "response.xsl")

def commandListMounts : Outcome :=
  if format = .plaintext then
    if world.headerFails then fail world .headerGenFailed else .ok (world, .streams)
  else do
    let doc ← adminBuildSourcelist world none
    return (world, adminSendResponse world doc format "listmounts.xsl")

def commandUpdatemetadata : Outcome := do
  let source ← deref source
  return (world, adminSendResponse world (.source source.mount) format "updatemetadata.xsl")

/-- The call through the function pointer of a row. -/
def Function.call : Function → Outcome
  | .commandFallback => Admin.commandFallback client source world
  | .commandMetadata => Admin.commandMetadata client source format world
  | .commandShoutcastMetadata => Admin.commandShoutcastMetadata client source world
  | .commandShowListeners => Admin.commandShowListeners source format world
  | .commandStats => Admin.commandStats source format world
  | .commandQueueReload => Admin.commandQueueReload format world
  | .commandListMounts => Admin.commandListMounts format world
  | .commandMoveClients => Admin.commandMoveClients client source format world
  | .commandKillClient => Admin.commandKillClient client source format world
  | .commandKillSource => Admin.commandKillSource source format world
  | .commandManageauth => Admin.commandManageauth client format world
  | .commandUpdatemetadata => Admin.commandUpdatemetadata source format world
  | .commandBuildm3u => Admin.commandBuildm3u client source world

end Commands

/-! ## The dispatcher -/

/-- The last lines of `admin_handle_request`: what is called, and with which source. -/
structure Call where
  function : Function
  source : Option AdminSource
  format : Format

/-- The right of source clients to update metadata. -/
def metadataException (client : Client) (handler : Handler) : Bool :=
  handler.function = some .commandMetadata && handler.format = .raw &&
    (aclTestMethod client.acl .source = .allow || aclTestMethod client.acl .put = .allow)

/-- The source that a request is about. -/
def requestedSource (client : Client) (world : World) : Except ErrorId (Option AdminSource) :=
  match client.param "mount" with
  | none => .ok none
  | some mount =>
    match sourceFindMountRaw world.sources mount with
    | none => .error .sourceDoesNotExist
    | some source => if source.available then .ok (some source) else .error .sourceIsNotAvailable

/-- `admin_handle_request` up to the call of the handler. -/
def adminDispatch (client : Client) (world : World) : Except ErrorId Call := do
  match adminGetHandler client.adminCommand with
  | none => .error .unrecognisedCommand
  | some handler =>
    if aclTestAdmin client.acl client.adminCommand ≠ .allow ∧ !metadataException client handler then
      .error .clientNeedsToAuthenticate
    else
      let source ← requestedSource client world
      if handler.type = .mount ∧ source.isNone then .error .missingParameter
      else
        match handler.function with
        | none => .error .unrecognisedCommand
        | some function => .ok ⟨function, source, handler.format⟩

def adminHandleRequest (client : Client) (world : World) : Outcome :=
  match adminDispatch client world with
  | .error id => fail world id
  | .ok call => call.function.call client call.source call.format world

/-! ## Which handlers need a source -/

/-- Called with `NULL`, the handler can come to use it. -/
def UsesUnchecked (function : Function) : Prop :=
  ∃ client format world, function.call client none format world = .error .nullSource

theorem listedSource_fault {source : AdminSource} {fault : Fault}
    (h : listedSource source = .error fault) : fault = .nullFormat := by
  unfold listedSource at h
  simp only at h
  split at h
  · split at h
    · exact (Except.error.inj h).symm
    · cases h
  · cases h

theorem adminBuildSourcelist_fault {world : World} {mount : Option String} {fault : Fault}
    (h : adminBuildSourcelist world mount = .error fault) : fault = .nullFormat := by
  have hmap (sources : List AdminSource) {fault : Fault}
      (hsources : sources.mapM listedSource = .error fault) : fault = .nullFormat := by
    induction sources with
    | nil => cases hsources
    | cons source sources ih =>
      rw [List.mapM_cons] at hsources
      cases hsource : listedSource source with
      | error other =>
        rw [hsource] at hsources
        obtain rfl := Except.error.inj hsources
        exact listedSource_fault hsource
      | ok listed =>
        rw [hsource] at hsources
        cases hrest : sources.mapM listedSource with
        | error other =>
          rw [hrest] at hsources
          obtain rfl := Except.error.inj hsources
          exact ih hrest
        | ok rest =>
          rw [hrest] at hsources
          cases hsources
  simp only [adminBuildSourcelist] at h
  cases hlisted : (world.sources.filter fun source ↦
      mount ≠ some source.mount && source.available).mapM listedSource with
  | error other =>
    rw [hlisted] at h
    obtain rfl := Except.error.inj h
    exact hmap _ hlisted
  | ok listed =>
    rw [hlisted] at h
    cases h

theorem commandManageauth_ok (client : Client) (format : Format) (world : World) :
    ∃ result, commandManageauth client format world = .ok result := by
  unfold commandManageauth
  cases client.param "id" with
  | none => exact ⟨_, rfl⟩
  | some idstring =>
    simp only
    cases world.roles.find? _ with
    | none => exact ⟨_, rfl⟩
    | some role =>
      simp only
      cases manageUsers client role with
      | error id => exact ⟨_, rfl⟩
      | ok message => exact ⟨_, rfl⟩

/-- The handlers that are safe without a source. -/
theorem not_usesUnchecked {function : Function}
    (h : function ∈ [Function.commandStats, .commandQueueReload, .commandListMounts,
      .commandManageauth]) : ¬UsesUnchecked function := by
  rintro ⟨client, format, world, hcall⟩
  simp only [List.mem_cons, List.not_mem_nil, or_false] at h
  rcases h with rfl | rfl | rfl | rfl
  · cases hcall
  · cases hcall
  · simp only [Function.call, commandListMounts] at hcall
    split at hcall
    · split at hcall <;> cases hcall
    · cases hdoc : adminBuildSourcelist world none with
      | error fault =>
        rw [hdoc] at hcall
        obtain rfl := Except.error.inj hcall
        cases adminBuildSourcelist_fault hdoc
      | ok doc =>
        rw [hdoc] at hcall
        cases hcall
  · obtain ⟨result, hresult⟩ := commandManageauth_ok client format world
    simp only [Function.call, hresult] at hcall
    cases hcall

/-- `command_move_clients` shows the list of destinations if none is given. -/
theorem usesUnchecked_moveClients : UsesUnchecked .commandMoveClients :=
  ⟨⟨"", none, fun _ ↦ none, ""⟩, .raw, ⟨⟨[], fun _ _ ↦ false⟩, [], [], false, false, []⟩, rfl⟩

/-! ## What is called with which source -/

theorem requestedSource_some {client : Client} {world : World} {source : AdminSource}
    (h : requestedSource client world = .ok (some source)) : source.available = true := by
  unfold requestedSource at h
  split at h
  · cases h
  · split at h
    · cases h
    · split at h
      · rename_i havailable
        obtain rfl := Option.some.inj (Except.ok.inj h)
        exact havailable
      · cases h

theorem requestedSource_none {client : Client} {world : World}
    (h : requestedSource client world = .ok none) : client.param "mount" = none := by
  unfold requestedSource at h
  split at h
  · assumption
  · split at h
    · cases h
    · split at h <;> cases h

/-- The rows that let a handler be called without a source. -/
theorem handlers_without_source {handler : Handler} (hmem : handler ∈ handlers)
    (htype : handler.type ≠ .mount) {function : Function} (hfunction : handler.function = some function) :
    function ∈ [Function.commandStats, .commandQueueReload, .commandListMounts,
      .commandManageauth] ∨ handler.route = "moveclients.xsl" ∧ function = .commandMoveClients := by
  have hrows : ∀ handler ∈ handlers, handler.type ≠ .mount → ∀ function ∈ handler.function,
      function ∈ [Function.commandStats, .commandQueueReload, .commandListMounts,
        .commandManageauth] ∨
        handler.route = "moveclients.xsl" ∧ function = .commandMoveClients := by
    decide
  exact hrows handler hmem htype function hfunction

/-- Everything that is known of a call. -/
theorem adminDispatch_cases {client : Client} {world : World} {call : Call}
    (h : adminDispatch client world = .ok call) :
    ∃ handler, adminGetHandler client.adminCommand = some handler ∧
      (aclTestAdmin client.acl client.adminCommand = .allow ∨ metadataException client handler) ∧
      requestedSource client world = .ok call.source ∧
      (call.source = none → handler.type ≠ .mount) ∧
      handler.function = some call.function := by
  unfold adminDispatch at h
  split at h
  · cases h
  · rename_i handler hhandler
    split at h
    · cases h
    · rename_i hacl
      cases hsource : requestedSource client world with
      | error id =>
        rw [hsource] at h
        cases h
      | ok source =>
        rw [hsource] at h
        change (if handler.type = .mount ∧ source.isNone then _ else _) = _ at h
        split at h
        · cases h
        · rename_i htype
          split at h
          · cases h
          · rename_i function hfunction
            obtain rfl := Except.ok.inj h
            refine ⟨handler, hhandler, ?_, rfl, ?_, hfunction⟩
            · by_contra hnot
              push Not at hnot
              exact hacl ⟨hnot.1, by simpa using hnot.2⟩
            · rintro rfl hmount
              exact htype ⟨hmount, rfl⟩

theorem adminGetHandler_mem {command : ℤ} {handler : Handler}
    (h : adminGetHandler command = some handler) : handler ∈ handlers := by
  unfold adminGetHandler at h
  split at h
  · exact List.mem_of_getElem? h
  · cases h

/-- The handler of a command is the one whose route was asked for. -/
theorem route_of_adminGetCommand {command : String} {handler : Handler}
    (h : adminGetHandler (adminGetCommand command) = some handler) : handler.route = command := by
  unfold adminGetCommand at h
  cases hfound : handlers.findIdx? (·.route = command) with
  | none =>
    rw [hfound] at h
    cases h
  | some i =>
    obtain ⟨hlt, hroute, -⟩ := List.findIdx?_eq_some_iff_getElem.mp hfound
    rw [hfound] at h
    simp only [adminGetHandler, Int.toNat_natCast] at h
    split at h
    · rw [List.getElem?_eq_getElem hlt] at h
      rw [← Option.some.inj h]
      exact of_decide_eq_true hroute
    · cases h

theorem uri_of_route {client : Client} {handler : Handler}
    (h : adminGetHandler client.adminCommand = some handler)
    (hroute : handler.route = "moveclients.xsl") : client.uri = "/admin/moveclients.xsl" := by
  unfold Client.adminCommand at h
  split at h
  · rw [route_of_adminGetCommand h] at hroute
    exact absurd hroute (by decide)
  · split at h
    · rename_i hstart
      obtain ⟨rest, hrest⟩ := List.isPrefixOf_iff_prefix.mp hstart
      have hname : rest = "moveclients.xsl".toList := by
        rw [← hroute, route_of_adminGetCommand h, ← hrest]
        simp
      rw [← String.toList_inj, ← hrest, hname]
      decide
    · cases h

theorem adminCommand_of_moveclients {client : Client} (h : client.uri = "/admin/moveclients.xsl") :
    client.adminCommand = 19 := by
  rw [Client.adminCommand, h]
  decide

/-! ## The result -/

/-- A handler that uses its source unchecked is only called with one that is available. -/
def DispatchSafe (client : Client) (world : World) : Prop :=
  ∀ call, adminDispatch client world = .ok call → UsesUnchecked call.function →
    ∃ source, call.source = some source ∧ (source.running ∨ source.onDemand)

theorem adminDispatch_moveclients {client : Client} {world : World}
    (huri : client.uri = "/admin/moveclients.xsl")
    (hacl : aclTestAdmin client.acl client.adminCommand = .allow)
    (hmount : client.param "mount" = none) :
    adminDispatch client world = .ok ⟨.commandMoveClients, none, .transformed⟩ := by
  have hhandler : adminGetHandler client.adminCommand =
      some ⟨"moveclients.xsl", .hybrid, .transformed, some .commandMoveClients⟩ := by
    rw [adminCommand_of_moveclients huri]
    decide
  have hsource : requestedSource client world = .ok none := by rw [requestedSource, hmount]
  rw [adminDispatch, hhandler]
  simp only [hacl, ne_eq, not_true_eq_false, false_and, if_false, hsource]
  rfl

/-- Every request is dispatched safely, except for `moveclients.xsl` without a mount. -/
theorem admin_dispatch_safety (client : Client) (world : World) :
    DispatchSafe client world ↔
      ¬(client.uri = "/admin/moveclients.xsl" ∧
        aclTestAdmin client.acl client.adminCommand = .allow ∧ client.param "mount" = none) := by
  constructor
  · rintro hsafe ⟨huri, hacl, hmount⟩
    obtain ⟨source, hsource, -⟩ :=
      hsafe _ (adminDispatch_moveclients huri hacl hmount) usesUnchecked_moveClients
    cases hsource
  · intro hroute call hcall hunchecked
    obtain ⟨handler, hhandler, hacl, hsource, htype, hfunction⟩ := adminDispatch_cases hcall
    cases hcalled : call.source with
    | some source =>
      rw [hcalled] at hsource
      have havailable := requestedSource_some hsource
      refine ⟨source, rfl, ?_⟩
      simpa [SourceState.available] using havailable
    | none =>
      rw [hcalled] at hsource
      have hrow := handlers_without_source (adminGetHandler_mem hhandler) (htype hcalled) hfunction
      rcases hrow with hchecked | ⟨hmove, hcommand⟩
      · exact absurd hunchecked (not_usesUnchecked hchecked)
      · refine absurd ⟨uri_of_route hhandler hmove, ?_, requestedSource_none hsource⟩ hroute
        rcases hacl with hallow | hexception
        · exact hallow
        · rw [metadataException, hfunction, hcommand] at hexception
          cases hexception

/-- An administrator asks for the page without saying which mount. -/
def pageRequest : Client :=
  ⟨"/admin/moveclients.xsl", some ⟨fun _ ↦ .allow, [], .allow⟩, fun _ ↦ none, "127.0.0.1"⟩

def emptyWorld : World := ⟨⟨[], fun _ _ ↦ false⟩, [], [], false, false, []⟩

theorem admin_dispatch_unsafe :
    adminHandleRequest pageRequest emptyWorld = .error .nullSource ∧
      ¬∀ client world, DispatchSafe client world := by
  constructor
  · rfl
  · intro hall
    obtain ⟨source, hsource, -⟩ := hall pageRequest emptyWorld
      ⟨.commandMoveClients, none, .transformed⟩ rfl usesUnchecked_moveClients
    cases hsource

end Icecast.Admin
