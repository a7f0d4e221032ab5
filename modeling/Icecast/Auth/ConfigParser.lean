import Icecast.Auth.Stack

/-!
# Where the authentication stacks come from

The part of `cfgfile.c` that builds the stacks: the `<authentication>` sections of the root element,
those of the mounts, and the legacy passwords, which are turned into roles. What an XML element
holds is given by its attributes and children; blank nodes and elements that have nothing to do with
authentication are left out.
-/

namespace Icecast.Auth

/-- A `<role>` element with its attributes and its `<option>` children. -/
structure RoleNode where
  attributes : List (String × String)
  options : List (String × String)

def RoleNode.prop (role : RoleNode) (name : String) : Option String :=
  role.attributes.lookup name

/-- What the construction of an authenticator uses: the names of the methods in `httpp`, the ACL of
an element, and the backends with a thread of their own (by type and options). -/
structure Plugins where
  strToMethod : String → Option ReqType
  aclNewFromXmlNode : RoleNode → Acl
  backend : String → List (String × String) → Option (Bool × Option (Request → AuthResult))

/-! ## Authenticators -/

def staticAuth (username : Option String) (password : String) (request : Request) : AuthResult :=
  if username.isSome ∧ request.username ≠ username then .nomatch
  else
    match request.password with
    | none => .nomatch
    | some given => if password = given then .ok else .failed

/-- `auth_get_static_auth`: a repeated option counts with its last value. -/
def authGetStaticAuth (needUser : Bool) (options : List (String × String)) :
    Option (Bool × Option (Request → AuthResult)) :=
  let username := options.reverse.lookup "username"
  match options.reverse.lookup "password" with
  | none => none
  | some password =>
    if needUser ∧ username.isNone then none else some (true, some (staticAuth username password))

def authGetAnonymousAuth : Option (Bool × Option (Request → AuthResult)) :=
  some (true, some fun _ ↦ .ok)

def getAuthenticator (plugins : Plugins) (type : String) (options : List (String × String)) :
    Option (Bool × Option (Request → AuthResult)) :=
  if type = "anonymous" then authGetAnonymousAuth
  else if type = "static" then authGetStaticAuth true options
  else if type = "legacy-password" then authGetStaticAuth false options
  else plugins.backend type options

/-- The names in a comma separated list, up to the first `*`, as methods. -/
def parseMethods (plugins : Plugins) : List String → (ReqType → Bool) → Option (ReqType → Bool)
  | [], methods => some methods
  | name :: names, methods =>
    if name = "*" then some fun _ ↦ true
    else
      match plugins.strToMethod name with
      | none => none
      | some method => parseMethods plugins names fun other ↦ other = method || methods other

/-- `strstr` for a comma, with the spaces behind it skipped. -/
def splitMethods (text : String) : List String :=
  match text.splitOn "," with
  | [] => []
  | name :: names => name :: names.map fun other ↦ String.ofList (other.toList.dropWhile (· = ' '))

def authGetAuthenticator (plugins : Plugins) (role : RoleNode) (id : ℕ) : Option Authenticator :=
  match role.prop "type" with
  | none => none
  | some type =>
    let methods :=
      match role.prop "method" with
      | none => some fun _ ↦ true
      | some text => parseMethods plugins (splitMethods text) fun _ ↦ false
    match methods, getAuthenticator plugins type role.options with
    | some method, some (immediate, authenticate) =>
      some ⟨id, method, immediate, authenticate, plugins.aclNewFromXmlNode role⟩
    | _, _ => none

/-- A stack under construction, with the number of the next authenticator. -/
structure Roles where
  stack : List Authenticator
  nextId : ℕ

/-- A role whose authenticator cannot be built is left out. -/
def pushRole (plugins : Plugins) (roles : Roles) (role : RoleNode) : Roles where
  stack := roles.stack ++ (authGetAuthenticator plugins role roles.nextId).toList
  nextId := roles.nextId + 1

/-- The element that `__append_old_style_auth` makes up. -/
def oldStyleRole (name : Option String) (type : String)
    (username password method allowMethod : Option String)
    (allowWeb : Bool) (allowAdmin : Option String) : RoleNode where
  attributes :=
    [("type", type), ("deny-method", "*")] ++ (allowMethod.map ("allow-method", ·)).toList ++
      (name.map ("name", ·)).toList ++ (method.map ("method", ·)).toList ++
      [if allowWeb then ("allow-web", "*") else ("deny-web", "*")] ++
      if allowAdmin = some "*" then [("allow-admin", "*")]
      else ("deny-admin", "*") :: (allowAdmin.map ("allow-admin", ·)).toList
  options := (username.map ("username", ·)).toList ++ (password.map ("password", ·)).toList

/-! ## The global section -/

/-- A child of the global `<authentication>`. An element without text gives `none`. -/
inductive AuthenticationNode where
  | sourcePassword (hasMount : Bool) (text : Option String)
  | adminPassword (text : Option String)
  | adminUser (text : Option String)
  | relayPassword (text : Option String)
  | relayUser (text : Option String)
  | role (node : RoleNode)

/-- The local variables of `_parse_authentication`. -/
structure AuthenticationSection where
  sourcePassword : Option String
  adminPassword : Option String
  adminUsername : Option String
  relayPassword : Option String
  relayUsername : Option String
  newStyle : Roles

def authenticationNode (plugins : Plugins) (vars : AuthenticationSection) :
    AuthenticationNode → AuthenticationSection
  | .sourcePassword hasMount text =>
    if hasMount then vars else { vars with sourcePassword := text }
  | .adminPassword text => { vars with adminPassword := text }
  | .adminUser text => { vars with adminUsername := text }
  | .relayPassword text => { vars with relayPassword := text }
  | .relayUser text => { vars with relayUsername := text }
  | .role node => { vars with newStyle := pushRole plugins vars.newStyle node }

/-- The legacy account is added when both of its texts are there. -/
def appendLegacy (plugins : Plugins) (roles : Roles) (name : String)
    (username password : Option String) (allowMethod allowAdmin : String) : Roles :=
  if username.isSome ∧ password.isSome then
    pushRole plugins roles
      (oldStyleRole (some name) "static" username password none (some allowMethod) true
        (some allowAdmin))
  else roles

def anonymousRole : RoleNode :=
  oldStyleRole (some "anonymous") "anonymous" none none none (some "get,post,head") true none

/-- The state of `_parse_root`. -/
structure RootState where
  mounts : List MountProxy
  authstack : List Authenticator
  sourcePassword : Option String
  nextId : ℕ

def parseAuthentication (plugins : Plugins) (children : List AuthenticationNode)
    (state : RootState) :
    RootState :=
  let start : AuthenticationSection :=
    ⟨state.sourcePassword, none, none, none, some "relay", ⟨[], state.nextId⟩⟩
  let vars := children.foldl (authenticationNode plugins) start
  let oldStyle : Roles := ⟨[], vars.newStyle.nextId⟩
  let oldStyle := appendLegacy plugins oldStyle "legacy-admin" vars.adminUsername
    vars.adminPassword "get,post,head,stats" "*"
  let oldStyle := appendLegacy plugins oldStyle "legacy-relay" vars.relayUsername
    vars.relayPassword "get" "streamlist.txt"
  let roles : Roles := ⟨oldStyle.stack ++ vars.newStyle.stack, oldStyle.nextId⟩
  let roles := pushRole plugins roles anonymousRole
  { state with
    authstack := roles.stack
    sourcePassword := vars.sourcePassword
    nextId := roles.nextId }

/-! ## Mounts and the root element -/

/-- A `<mount>` element. `roles` are those of its `<authentication>` sections, which stand for the
element itself where that has a legacy type. -/
structure MountNode where
  type : Option String
  mountname : Option String
  username : Option String
  password : Option String
  roles : List RoleNode

def mountTypeOf : Option String → Option MountType
  | none => some .normal
  | some type =>
    if type = "normal" then some .normal else if type = "default" then some .default else none

def parseMount (plugins : Plugins) (node : MountNode) (state : RootState) : RootState :=
  match mountTypeOf node.type with
  | none => state
  | some mounttype =>
    let roles := node.roles.foldl (pushRole plugins) ⟨[], state.nextId⟩
    let oldStyle : Roles :=
      match node.password with
      | none => ⟨[], roles.nextId⟩
      | some password =>
        pushRole plugins ⟨[], roles.nextId⟩
          (oldStyleRole (some "legacy-mount-source") "static" (some (node.username.getD "source"))
            (some password) none (some "source,put,get") false (some "*"))
    let mounts :=
      if node.mountname.isNone ∧ mounttype ≠ .default then state.mounts
      else state.mounts ++ [⟨node.mountname, mounttype, oldStyle.stack ++ roles.stack⟩]
    { state with mounts, nextId := oldStyle.nextId }

inductive RootNode where
  | authentication (children : List AuthenticationNode)
  | sourcePassword (text : Option String)
  | mount (node : MountNode)

def rootNode (plugins : Plugins) (state : RootState) : RootNode → RootState
  | .authentication children => parseAuthentication plugins children state
  | .sourcePassword text => { state with sourcePassword := text }
  | .mount node => parseMount plugins node state

/-- The first default mount gets `stack` if it has none. -/
def setDefaultStack (stack : List Authenticator) : List MountProxy → List MountProxy
  | [] => []
  | mount :: mounts =>
    if mount.mounttype = .default then
      (if mount.authstack = [] then { mount with authstack := stack } else mount) :: mounts
    else mount :: setDefaultStack stack mounts

/-- The end of `_parse_root`: a global source password is set on the default mount. -/
def applySourcePassword (plugins : Plugins) (state : RootState) : RootState :=
  match state.sourcePassword with
  | none => state
  | some password =>
    let state :=
      if state.mounts.any (·.mounttype = .default) then state
      else parseMount plugins ⟨some "default", none, none, none, []⟩ state
    let roles := pushRole plugins ⟨[], state.nextId⟩
      (oldStyleRole (some "legacy-global-source") "static" (some "source") (some password) none
        (some "source,put,get") false (some "*"))
    { state with mounts := setDefaultStack roles.stack state.mounts }

def parseRoot (plugins : Plugins) (fnmatch : String → String → Bool) (nodes : List RootNode) :
    Config :=
  let state := nodes.foldl (rootNode plugins) ⟨[], [], none, 1⟩
  let state := applySourcePassword plugins state
  ⟨state.mounts, state.authstack, fnmatch⟩

/-! ## The global stack -/

/-- Whether the file has an `<authentication>` section of its own. -/
def HasAuthentication (nodes : List RootNode) : Prop :=
  ∃ children, RootNode.authentication children ∈ nodes

/-- The anonymous account can always be built. -/
theorem authGetAuthenticator_anonymous (plugins : Plugins) (id : ℕ) :
    authGetAuthenticator plugins anonymousRole id =
      some ⟨id, fun _ ↦ true, true, some fun _ ↦ .ok, plugins.aclNewFromXmlNode anonymousRole⟩ := by
  rfl

theorem parseAuthentication_ne_nil (plugins : Plugins) (children : List AuthenticationNode)
    (state : RootState) : (parseAuthentication plugins children state).authstack ≠ [] := by
  simp [parseAuthentication, pushRole, authGetAuthenticator_anonymous]

theorem parseMount_authstack (plugins : Plugins) (node : MountNode) (state : RootState) :
    (parseMount plugins node state).authstack = state.authstack := by
  unfold parseMount
  split <;> rfl

theorem applySourcePassword_authstack (plugins : Plugins) (state : RootState) :
    (applySourcePassword plugins state).authstack = state.authstack := by
  unfold applySourcePassword
  split
  · rfl
  · simp only
    split
    · rfl
    · exact parseMount_authstack plugins _ state

theorem foldl_rootNode_authstack (plugins : Plugins) (nodes : List RootNode) (state : RootState) :
    (nodes.foldl (rootNode plugins) state).authstack ≠ [] ↔
      state.authstack ≠ [] ∨ HasAuthentication nodes := by
  induction nodes generalizing state with
  | nil => simp [HasAuthentication]
  | cons node nodes ih =>
    rw [List.foldl_cons, ih]
    cases node with
    | authentication children =>
      have hstack := parseAuthentication_ne_nil plugins children state
      simp [rootNode, hstack, HasAuthentication]
    | sourcePassword text => simp [rootNode, HasAuthentication]
    | mount node => simp [rootNode, HasAuthentication, parseMount_authstack]

theorem parseRoot_authstack (plugins : Plugins) (fnmatch : String → String → Bool)
    (nodes : List RootNode) :
    (parseRoot plugins fnmatch nodes).authstack ≠ [] ↔ HasAuthentication nodes := by
  simp only [parseRoot, applySourcePassword_authstack, foldl_rootNode_authstack, ne_eq,
    not_true_eq_false, false_or]

end Icecast.Auth
