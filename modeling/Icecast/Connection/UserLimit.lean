import Icecast.Auth.AccessControl
import Icecast.Lib.Machine
import Icecast.Source.Mounts

/-!
# The limit on connections per user

A `<mount>` may have an `<authentication>` of the old style. If its option `allow_duplicate_users` is
false, `cfgfile.c` turns that into an attribute `connections-per-user` of the element, from which
`acl.c` reads a limit, and `connection.c` compares that limit with the listeners of the same user that
a source has, active or pending.

The attribute is `0`, and a limit of zero is no limit. So the option has no effect: whoever gets in at
all gets in again (`legacy_duplicates_refused_iff`).
-/

namespace Icecast.Connection.UserLimit

open Auth (AclData AclPolicy ReqType RoleNode aclNew aclNewFromXmlNode aclTestMethod utilStrToBool)
open Lib.Machine Source.Mounts

/-! ## The legacy element -/

/-- `xmlSetProp`: the value of an attribute that is there is replaced. -/
def xmlSetProp (name value : String) : List (String × String) → List (String × String)
  | [] => [(name, value)]
  | prop :: props =>
    if prop.1 = name then (name, value) :: props else prop :: xmlSetProp name value props

/-- An option counts if it has both a name and a value, and the last one decides. -/
def allowDuplicateUsers (options : List (String × String)) : Bool :=
  options.foldl
    (fun allow option ↦
      if option.1 = "allow_duplicate_users" then utilStrToBool option.2 else allow) true

/-- The element as `_parse_mount_oldstyle_authentication` hands it to `auth_get_authenticator`. -/
def parseMountOldstyleAuthentication (node : RoleNode) : RoleNode :=
  if node.prop "type" = some "htpasswd" ∧ allowDuplicateUsers node.options = false then
    { node with attributes := xmlSetProp "connections-per-user" "0" node.attributes }
  else node

theorem lookup_xmlSetProp (name value : String) (props : List (String × String)) :
    (xmlSetProp name value props).lookup name = some value := by
  induction props with
  | nil => simp [xmlSetProp]
  | cons prop props ih =>
    unfold xmlSetProp
    split
    · simp
    · rename_i hname
      have hbeq : (name == prop.1) = false := by simpa using fun h ↦ hname h.symm
      rw [List.lookup_cons, hbeq]
      exact ih

/-- No other attribute touches the limit. -/
theorem maxConnectionsPerUser_setProp_of_ne {strToMethod : String → Option ReqType} {name : String}
    (h : name ≠ "connections-per-user") (acl : AclData) (value : String) :
    (acl.setProp strToMethod name value).maxConnectionsPerUser = acl.maxConnectionsPerUser := by
  simp only [AclData.setProp, apply_ite AclData.maxConnectionsPerUser, h, if_false]
  simp [AclData.setMethodStr, AclData.setAdminStr, AclData.setAll]

/-- The limit that a legacy element without duplicates ends up with. -/
theorem maxConnectionsPerUser_legacy (strToMethod : String → Option ReqType) {node : RoleNode}
    (htype : node.prop "type" = some "htpasswd") (hallow : allowDuplicateUsers node.options = false) :
    (aclNewFromXmlNode strToMethod (parseMountOldstyleAuthentication node)).maxConnectionsPerUser =
      0 := by
  let legacy := parseMountOldstyleAuthentication node
  have hlegacy : legacy =
      { node with attributes := xmlSetProp "connections-per-user" "0" node.attributes } :=
    if_pos ⟨htype, hallow⟩
  have hprop : legacy.prop "connections-per-user" = some "0" := by
    rw [hlegacy]
    exact lookup_xmlSetProp _ _ _
  have hstep : ∀ (acl : AclData) (prop : String × String), acl.maxConnectionsPerUser = 0 →
      (legacy.applyProp strToMethod acl prop).maxConnectionsPerUser = 0 := by
    intro acl prop hacl
    unfold RoleNode.applyProp
    by_cases hname : prop.1 = "connections-per-user"
    · rw [hname, hprop]
      rfl
    · cases legacy.prop prop.1 with
      | none => exact hacl
      | some value => rw [maxConnectionsPerUser_setProp_of_ne hname, hacl]
  exact run_invariant (legacy.applyProp strToMethod) (·.maxConnectionsPerUser = 0) hstep
    legacy.attributes rfl

/-! ## Listeners on sources -/

structure Listener where
  id : ℕ
  username : Option String
  role : Option String
  deriving DecidableEq

/-- What a `source_t` has to do with its listeners. -/
structure Trees where
  maxListeners : ℤ
  listeners : ℕ
  fallbackWhenFull : Bool
  fallbackMount : Option String
  clientTree : List Listener
  pendingTree : List Listener
  deriving DecidableEq

abbrev ListenSource := SourceState Trees

/-- The test that `__count_user_role_on_mount` makes of one listener. -/
def countsFor (client existing : Listener) : Bool :=
  existing.username.isSome && existing.username = client.username &&
    existing.role.isSome && existing.role = client.role

def countUserRoleOnMount (source : ListenSource) (client : Listener) : ℕ :=
  source.details.clientTree.countP (countsFor client) +
    source.details.pendingTree.countP (countsFor client)

/-- A negative limit other than `-1` is a very large one. -/
def hasRoom (source : ListenSource) : Bool :=
  source.details.maxListeners = -1 || source.details.listeners < source.details.maxListeners % 2 ^ 64

/-- The loop of `__add_listener_to_source`: the source that takes the listener. -/
def addListenerToSource (config : Config) (sources : List ListenSource) :
    ℕ → ListenSource → Option ListenSource
  | loop, source =>
    if hasRoom source then some source
    else
      match loop with
      | 0 => none
      | loop + 1 =>
        if source.details.fallbackWhenFull then
          (source.details.fallbackMount.bind (sourceFindMount config sources)).bind
            (addListenerToSource config sources loop)
        else none

/-! ## Requests -/

/-- `client_t` with the ACL of the role that accepted it. -/
structure Client where
  listener : Listener
  acl : AclData

inductive Outcome where
  | adminRequest
  | needsToAuthenticate
  | xslt
  | perCredClientLimit
  | rejectingClient
  | admitted (mount : String)
  | file
  deriving DecidableEq

def isXslt (uri : String) : Bool :=
  '.' ∈ uri.toList &&
    let extension := String.ofList (uri.toList.reverse.takeWhile (· ≠ '.')).reverse
    extension = "xsl" || extension = "xslt"

def handleGetRequest (config : Config) (sources : List ListenSource) (client : Client)
    (uri : String) : Outcome :=
  if uri = "/admin.cgi" ∨ "/admin/".toList.isPrefixOf uri.toList then .adminRequest
  else if client.acl.webPolicy ≠ .allow then .needsToAuthenticate
  else if isXslt uri then .xslt
  else
    match sourceFindMount config sources uri with
    | none => .file
    | some source =>
      let maxConnectionsPerUser := client.acl.maxConnectionsPerUser
      -- a limit of -1 is one that is not set, and 0 is unlimited
      if 0 < maxConnectionsPerUser ∧
          maxConnectionsPerUser ≤ countUserRoleOnMount source client.listener then
        .perCredClientLimit
      else
        match addListenerToSource config sources 10 source with
        | none => .rejectingClient
        | some source => .admitted source.mount

/-- `_handle_authed_client` for a `GET` request. -/
def handleAuthedClient (config : Config) (sources : List ListenSource) (client : Client)
    (uri : String) : Outcome :=
  if aclTestMethod (some client.acl.toAcl) .get ≠ .allow then .needsToAuthenticate
  else handleGetRequest config sources client uri

/-! ## Runs -/

/-- A listener comes with a user name that the legacy authentication has accepted, or the thread of a
source makes a turn, in which the listeners that are gone are noticed. -/
inductive Event where
  | connect (id : ℕ) (username : String) (uri : String)
  | turn (mount : String) (gone : List ℕ)

/-- Pending listeners are taken as long as there is room; the others are dropped. -/
def takePending (trees : Trees) : List Listener → Trees
  | [] => { trees with pendingTree := [] }
  | client :: pending =>
    if trees.maxListeners ≠ -1 ∧ trees.maxListeners % 2 ^ 64 ≤ trees.listeners then
      takePending trees pending
    else
      takePending
        { trees with clientTree := trees.clientTree ++ [client], listeners := trees.listeners + 1 }
        pending

def turn (gone : List ℕ) (trees : Trees) : Trees :=
  let kept := trees.clientTree.filter (·.id ∉ gone)
  takePending
    { trees with
      clientTree := kept
      listeners := trees.listeners - (trees.clientTree.length - kept.length) }
    trees.pendingTree

def updateMount (mount : String) (change : Trees → Trees) (sources : List ListenSource) :
    List ListenSource :=
  sources.map fun source ↦
    if source.mount = mount then { source with details := change source.details } else source

/-- What is fixed in a run: the settings of the mounts and the element the listeners are
authenticated with. -/
structure Server where
  config : Config
  strToMethod : String → Option ReqType
  node : RoleNode

def Server.client (server : Server) (id : ℕ) (username : String) : Client :=
  let legacy := parseMountOldstyleAuthentication server.node
  ⟨⟨id, some username, legacy.prop "name"⟩, aclNewFromXmlNode server.strToMethod legacy⟩

def step (server : Server) (sources : List ListenSource) : Event → List ListenSource
  | .connect id username uri =>
    let client := server.client id username
    match handleAuthedClient server.config sources client uri with
    | .admitted mount =>
      updateMount mount
        (fun trees ↦ { trees with pendingTree := trees.pendingTree ++ [client.listener] }) sources
    | _ => sources
  | .turn mount gone => updateMount mount (turn gone) sources

/-- Two listeners with the same user name and the same role, or both without one. -/
def SameUser (client existing : Listener) : Prop :=
  client.username.isSome ∧ existing.username = client.username ∧ existing.role = client.role

/-- Nobody is admitted to a source that has a listener of the same user. -/
def NoDuplicateAdmitted (server : Server) (start : List ListenSource) (events : List Event) : Prop :=
  ∀ before id username uri after mount, events = before ++ .connect id username uri :: after →
    handleAuthedClient server.config (run (step server) start before) (server.client id username) uri =
      .admitted mount →
    ∀ source ∈ run (step server) start before, source.mount = mount →
      ∀ existing ∈ source.details.clientTree ++ source.details.pendingTree,
        ¬ SameUser (server.client id username).listener existing

/-- A source that nobody listens to yet. -/
def Silent (source : ListenSource) : Prop :=
  source.details.clientTree = [] ∧ source.details.pendingTree = [] ∧ source.details.listeners = 0

theorem handleAuthedClient_not_admitted {config : Config} {sources : List ListenSource}
    {client : Client} {uri mount : String}
    (h : aclTestMethod (some client.acl.toAcl) .get ≠ .allow ∨ client.acl.webPolicy ≠ .allow) :
    handleAuthedClient config sources client uri ≠ .admitted mount := by
  unfold handleAuthedClient
  by_cases hmethod : aclTestMethod (some client.acl.toAcl) .get = .allow
  · have hweb : client.acl.webPolicy ≠ .allow := h.resolve_left (not_not.mpr hmethod)
    rw [if_neg (not_not.mpr hmethod)]
    unfold handleGetRequest
    split
    · exact nofun
    · exact nofun
  · rw [if_pos hmethod]
    exact nofun

/-- Where there is no limit on listeners or on the connections of a user, whoever may listen is
admitted. -/
theorem handleAuthedClient_admitted {client : Client} {trees : Trees}
    (hmethod : aclTestMethod (some client.acl.toAcl) .get = .allow)
    (hweb : client.acl.webPolicy = .allow) (hlimit : client.acl.maxConnectionsPerUser = 0)
    (hroom : trees.maxListeners = -1) :
    handleAuthedClient ⟨[], fun _ _ ↦ false⟩ [⟨"/stream", true, false, trees⟩] client "/stream" =
      .admitted "/stream" := by
  have hxslt : isXslt "/stream" = false := by decide
  have hfound : sourceFindMount ⟨[], fun _ _ ↦ false⟩ [(⟨"/stream", true, false, trees⟩ : ListenSource)]
      "/stream" = some ⟨"/stream", true, false, trees⟩ := rfl
  have hadd : addListenerToSource ⟨[], fun _ _ ↦ false⟩ [⟨"/stream", true, false, trees⟩] 10
      ⟨"/stream", true, false, trees⟩ = some ⟨"/stream", true, false, trees⟩ := by
    unfold addListenerToSource
    simp [hasRoom, hroom]
  simp [handleAuthedClient, handleGetRequest, hmethod, hweb, hxslt, hfound, hlimit, hadd]

/-- The restriction is kept if and only if the ACL of the role lets no listener in at all. -/
theorem legacy_duplicates_refused_iff (strToMethod : String → Option ReqType) (node : RoleNode)
    (htype : node.prop "type" = some "htpasswd")
    (hallow : allowDuplicateUsers node.options = false) :
    (∀ config start events, (∀ source ∈ start, Silent source) →
      NoDuplicateAdmitted ⟨config, strToMethod, node⟩ start events) ↔
    let acl := aclNewFromXmlNode strToMethod (parseMountOldstyleAuthentication node)
    aclTestMethod (some acl.toAcl) .get ≠ .allow ∨ acl.webPolicy ≠ .allow := by
  constructor
  · intro hall acl
    by_contra hopen
    obtain ⟨hmethod, hweb⟩ := not_or.mp hopen
    have hlimit : acl.maxConnectionsPerUser = 0 :=
      maxConnectionsPerUser_legacy strToMethod htype hallow
    let server : Server := ⟨⟨[], fun _ _ ↦ false⟩, strToMethod, node⟩
    let trees : Trees := ⟨-1, 0, false, none, [], []⟩
    have hadmitted : ∀ id username trees, trees.maxListeners = -1 →
        handleAuthedClient server.config [⟨"/stream", true, false, trees⟩]
          (server.client id username) "/stream" = .admitted "/stream" := by
      intro id username trees hroom
      exact handleAuthedClient_admitted (not_ne_iff.mp hmethod) (not_ne_iff.mp hweb) hlimit hroom
    have hfirst : run (step server) [⟨"/stream", true, false, trees⟩]
          [.connect 1 "user" "/stream"] =
        [⟨"/stream", true, false, { trees with pendingTree := [(server.client 1 "user").listener] }⟩] := by
      rw [run_cons, run_nil]
      simp only [step, hadmitted 1 "user" trees rfl]
      simp [updateMount, trees]
    have hkept := hall server.config [⟨"/stream", true, false, trees⟩]
      [.connect 1 "user" "/stream", .connect 2 "user" "/stream"] (by simp [Silent, trees])
      [.connect 1 "user" "/stream"] 2 "user" "/stream" [] "/stream" rfl
    rw [hfirst] at hkept
    have hsecond := hkept (hadmitted 2 "user" _ rfl) _ List.mem_cons_self rfl
      (server.client 1 "user").listener (by simp)
    exact hsecond ⟨rfl, rfl, rfl⟩
  · intro hclosed config start events _ before id username uri after mount _ hadmitted
    exact absurd hadmitted (handleAuthedClient_not_admitted hclosed)

/-- An element of the old style, as it may stand in a `<mount>`. -/
def exampleNode : RoleNode :=
  ⟨[("type", "htpasswd")], [("filename", "myauth"), ("allow_duplicate_users", "0")]⟩

theorem legacy_duplicates_refused_iff_htpasswd :
    (∀ config start events, (∀ source ∈ start, Silent source) →
      NoDuplicateAdmitted ⟨config, Auth.exampleStrToMethod, exampleNode⟩ start events) ↔
    let acl := aclNewFromXmlNode Auth.exampleStrToMethod (parseMountOldstyleAuthentication exampleNode)
    aclTestMethod (some acl.toAcl) .get ≠ .allow ∨ acl.webPolicy ≠ .allow := by
  exact legacy_duplicates_refused_iff Auth.exampleStrToMethod exampleNode (by decide) (by decide)

def exampleServer : Server := ⟨⟨[], fun _ _ ↦ false⟩, Auth.exampleStrToMethod, exampleNode⟩

def exampleSources : List ListenSource := [⟨"/stream", true, false, ⟨-1, 0, false, none, [], []⟩⟩]

/-- The same user twice, one right after the other. -/
theorem legacy_duplicate_admitted :
    allowDuplicateUsers exampleNode.options = false ∧ (∀ source ∈ exampleSources, Silent source) ∧
    ¬ NoDuplicateAdmitted exampleServer exampleSources
      [.connect 1 "listener" "/stream", .connect 2 "listener" "/stream"] := by
  refine ⟨by decide, by simp [exampleSources, Silent], ?_⟩
  intro hkept
  have hsecond := hkept [.connect 1 "listener" "/stream"] 2 "listener" "/stream" [] "/stream" rfl
    (by decide) ⟨"/stream", true, false, ⟨-1, 0, false, none, [], [⟨1, some "listener", none⟩]⟩⟩
    (by decide) rfl ⟨1, some "listener", none⟩ List.mem_cons_self
  exact hsecond ⟨rfl, rfl, rfl⟩

end Icecast.Connection.UserLimit
