import Icecast.Auth.AccessControl

/-!
# Legacy authentication by URL

A `<mount>` may have an `<authentication type="url">` of the old style, whose options name up to five
URLs. `_parse_mount_oldstyle_authentication` (`cfgfile.c`) turns them into what replaced them: events
for the URLs that are to be told of a source, and a stack of authenticators for the others.

The events are built by `event_get_url` (`event_url.c`), which frees the URL when it comes to the
action. The authenticator that turns away the listeners that the URL does not know is made for `PUT`
where its siblings are made for `POST`.
-/

namespace Icecast.Auth.LegacyUrl

/-! ## Options -/

/-- The local variables of `_parse_mount_oldstyle_authentication` for the type `url`. -/
structure UrlOptions where
  mountAdd : Option String
  mountRemove : Option String
  listenerAdd : Option String
  listenerRemove : Option String
  streamAuth : Option String
  username : Option String
  password : Option String
  authHeader : Option String
  timelimitHeader : Option String
  headers : Option String
  headerPrefix : Option String

def UrlOptions.unset : UrlOptions :=
  ⟨none, none, none, none, none, none, none, none, none, none, none⟩

/-- An option that has both a name and a value. -/
def UrlOptions.read (vars : UrlOptions) (option : String × String) : UrlOptions :=
  let (name, value) := option
  if name = "mount_add" then { vars with mountAdd := some value }
  else if name = "mount_remove" then { vars with mountRemove := some value }
  else if name = "listener_add" then { vars with listenerAdd := some value }
  else if name = "listener_remove" then { vars with listenerRemove := some value }
  else if name = "username" then { vars with username := some value }
  else if name = "password" then { vars with password := some value }
  else if name = "auth_header" then { vars with authHeader := some value }
  else if name = "timelimit_header" then { vars with timelimitHeader := some value }
  else if name = "headers" then { vars with headers := some value }
  else if name = "header_prefix" then { vars with headerPrefix := some value }
  else if name = "stream_auth" then { vars with streamAuth := some value }
  else vars

/-- `__append_option_tag` for one tag after the other. -/
def optionTags (tags : List (String × Option String)) : List (String × String) :=
  tags.filterMap fun tag ↦ tag.2.map (tag.1, ·)

/-! ## Events -/

/-- A pointer to a text on the heap. -/
inductive Pointer where
  | null
  | valid (text : String)
  | freed
  deriving DecidableEq

def Pointer.free : Pointer → Pointer
  | .null => .null
  | _ => .freed

/-- `event_url_t` -/
structure EventUrl where
  url : Pointer
  action : Option String
  userpwd : Option String
  deriving DecidableEq

/-- The state of the loop in `event_get_url`. -/
structure EventLoop where
  self : EventUrl
  username : Option String
  password : Option String

def EventLoop.read (state : EventLoop) (option : String × String) : EventLoop :=
  let (name, value) := option
  if name = "url" then { state with self := { state.self with url := .valid value } }
  else if name = "username" then { state with username := some value }
  else if name = "password" then { state with password := some value }
  else if name = "action" then
    -- it is the URL that is freed here
    { state with self := { state.self with url := state.self.url.free, action := some value } }
  else state

/-- `event_get_url`; without a URL there is no event. -/
def eventGetUrl (options : List (String × String)) : Option EventUrl :=
  let state := options.foldl EventLoop.read ⟨⟨.null, none, none⟩, none, none⟩
  if state.self.url = .null then none
  else
    match state.username, state.password with
    | some username, some password =>
      some { state.self with userpwd := some (username ++ ":" ++ password) }
    | _, _ => some state.self

/-- `event_registration_t` of type `url` -/
structure EventRegistration where
  trigger : String
  state : EventUrl
  deriving DecidableEq

def appendOldStyleUrlEvent (list : List EventRegistration) (trigger : String) (url : Option String)
    (action : String) (username password : Option String) : List EventRegistration :=
  let options := optionTags
    [("url", url), ("action", some action), ("username", username), ("password", password)]
  list ++ ((eventGetUrl options).map (EventRegistration.mk trigger)).toList

/-- Where `_try_registrations` posts an event to. -/
def postedTo (list : List EventRegistration) (trigger : String) : List Pointer :=
  (list.filter (·.trigger = trigger)).map (·.state.url)

/-! ## Authenticators -/

/-- What is outside of the code: `httpp_str_to_method`, which knows the methods by their names, and
what a web server says of a client. -/
structure Environment where
  strToMethod : String → Option ReqType
  urlAddClient : List (String × String) → Request → AuthResult
  str_get : strToMethod "get" = some .get
  str_post : strToMethod "post" = some .post
  str_head : strToMethod "head" = some .head
  str_source : strToMethod "source" = some .source
  str_put : strToMethod "put" = some .put

namespace Environment

variable (env : Environment)

/-- `auth_get_url_auth` sets up an authenticator with a thread of its own. -/
def plugins : Plugins where
  strToMethod := env.strToMethod
  aclNewFromXmlNode node := (aclNewFromXmlNode env.strToMethod node).toAcl
  backend type options := if type = "url" then some (false, some (env.urlAddClient options)) else none

/-- The names in the attribute `method`; the spaces behind a comma are skipped. -/
def methodNames (text : String) : List String :=
  match text.toList.splitOn ',' with
  | [] => []
  | first :: rest =>
    String.ofList first :: rest.map fun name ↦ String.ofList (name.dropWhile (· = ' '))

/-- `auth_get_authenticator` -/
def getAuthenticator (role : RoleNode) (id : ℕ) : Option Authenticator :=
  match role.prop "type" with
  | none => none
  | some type =>
    let methods :=
      match role.prop "method" with
      | none => some fun _ ↦ true
      | some text => parseMethods env.plugins (methodNames text) fun _ ↦ false
    match methods, Auth.getAuthenticator env.plugins type role.options with
    | some method, some (immediate, authenticate) =>
      some ⟨id, method, immediate, authenticate, env.plugins.aclNewFromXmlNode role⟩
    | _, _ => none

def pushRole (roles : Roles) (role : RoleNode) : Roles where
  stack := roles.stack ++ (env.getAuthenticator role roles.nextId).toList
  nextId := roles.nextId + 1

/-- `__append_old_style_auth` as it is called for a legacy URL. -/
def appendAnonymous (roles : Roles) (method : String) : Roles :=
  env.pushRole roles (oldStyleRole none "anonymous" none none (some method) none false none)

/-- The element that `__append_old_style_urlauth` makes up. -/
def urlRole (clientAdd clientRemove actionAdd actionRemove : Option String) (vars : UrlOptions)
    (isSource : Bool) : RoleNode where
  attributes :=
    if isSource then
      [("type", "url"), ("method", "source,put"), ("deny-method", "*"),
        ("allow-method", "source,put"), ("allow-web", "*"), ("allow-admin", "*")]
    else
      [("type", "url"), ("method", "get,post,head"), ("deny-method", "*"),
        ("allow-method", "get,post,head"), ("allow-web", "*"), ("deny-admin", "*")]
  options := optionTags
    [("client_add", clientAdd), ("client_remove", clientRemove), ("action_add", actionAdd),
      ("action_remove", actionRemove), ("username", vars.username), ("password", vars.password),
      ("auth_header", vars.authHeader), ("timelimit_header", vars.timelimitHeader),
      ("headers", vars.headers), ("header_prefix", vars.headerPrefix)]

def appendOldStyleUrlauth (roles : Roles)
    (clientAdd clientRemove actionAdd actionRemove : Option String) (vars : UrlOptions)
    (isSource : Bool) : Roles :=
  if clientAdd = none ∧ clientRemove = none then roles
  else env.pushRole roles (urlRole clientAdd clientRemove actionAdd actionRemove vars isSource)

end Environment

/-! ## The translation -/

/-- What is built for a mount. -/
structure Mount where
  event : List EventRegistration
  roles : Roles

/-- The end of the branch for `url`, after the options have been read. -/
def translate (env : Environment) (vars : UrlOptions) (mount : Mount) : Mount :=
  let event := mount.event
  let event :=
    if vars.mountAdd.isSome then
      appendOldStyleUrlEvent event "source-connect" vars.mountAdd "mount_add" vars.username
        vars.password
    else event
  let event :=
    if vars.mountRemove.isSome then
      appendOldStyleUrlEvent event "source-disconnect" vars.mountAdd "mount_remove" vars.username
        vars.password
    else event
  let roles := env.appendOldStyleUrlauth mount.roles vars.listenerAdd vars.listenerRemove
    (some "listener_add") (some "listener_remove") vars false
  let roles := env.appendOldStyleUrlauth roles vars.streamAuth none (some "stream_auth") none vars true
  let roles := if vars.listenerAdd.isSome then env.appendAnonymous roles "get,put,head" else roles
  let roles := if vars.streamAuth.isSome then env.appendAnonymous roles "source,put" else roles
  ⟨event, roles⟩

/-- `_parse_mount_oldstyle_authentication` for an element of type `url`. -/
def parseMountOldstyleAuthentication (env : Environment) (options : List (String × String))
    (mount : Mount) : Mount :=
  translate env (options.foldl UrlOptions.read .unset) mount

/-- How the stack of a mount is done with a client: with a result, with an error as too many others
are waiting, or not yet. -/
inductive StackEnd where
  | result (result : AuthResult)
  | busy
  | queued
  | ignored
  deriving DecidableEq

/-- `_handle_authentication_mount_generic` for a mount with that stack. -/
def askStack (pending : ℕ → ℕ) (stack : List Authenticator) (request : Request) : StackEnd :=
  if stack = [] then .result .nomatch
  else
    authStackAddClient pending
      ⟨fun _ result ↦ .result result, fun _ ↦ .busy, fun _ _ ↦ .queued, fun _ ↦ .ignored⟩ stack
      (newClient request)

/-! ## What is read -/

/-- The value of an option, the last one if it is repeated. -/
def lastValue (name : String) (options : List (String × String)) : Option String :=
  options.reverse.lookup name

/-- A variable that is set by the options of one name, and by no other, ends up with the last value. -/
theorem foldl_read (field : UrlOptions → Option String) {name : String}
    (hfield : ∀ vars key value,
      field (vars.read (key, value)) = if key = name then some value else field vars)
    (options : List (String × String)) (vars : UrlOptions) :
    field (options.foldl UrlOptions.read vars) = (lastValue name options).or (field vars) := by
  induction options generalizing vars with
  | nil => rfl
  | cons option options ih =>
    obtain ⟨key, value⟩ := option
    rw [List.foldl_cons, ih, hfield, lastValue, lastValue, List.reverse_cons, List.lookup_append,
      Option.or_assoc]
    congr 1
    by_cases hname : key = name
    · simp [hname]
    · have hbeq : (name == key) = false := by simpa using fun h ↦ hname h.symm
      simp [List.lookup_cons, hname, hbeq]

section Fields

variable (options : List (String × String))

theorem mountAdd_foldl_read :
    (options.foldl UrlOptions.read .unset).mountAdd = lastValue "mount_add" options := by
  refine (foldl_read UrlOptions.mountAdd ?_ options .unset).trans Option.or_none
  intro vars key value
  by_cases hkey : key = "mount_add"
  · subst hkey
    rfl
  · simp only [UrlOptions.read, apply_ite UrlOptions.mountAdd, hkey, if_false, ite_self]

theorem mountRemove_foldl_read :
    (options.foldl UrlOptions.read .unset).mountRemove = lastValue "mount_remove" options := by
  refine (foldl_read UrlOptions.mountRemove ?_ options .unset).trans Option.or_none
  intro vars key value
  by_cases hkey : key = "mount_remove"
  · subst hkey
    rfl
  · simp only [UrlOptions.read, apply_ite UrlOptions.mountRemove, hkey, if_false, ite_self]

theorem listenerAdd_foldl_read :
    (options.foldl UrlOptions.read .unset).listenerAdd = lastValue "listener_add" options := by
  refine (foldl_read UrlOptions.listenerAdd ?_ options .unset).trans Option.or_none
  intro vars key value
  by_cases hkey : key = "listener_add"
  · subst hkey
    rfl
  · simp only [UrlOptions.read, apply_ite UrlOptions.listenerAdd, hkey, if_false, ite_self]

theorem listenerRemove_foldl_read :
    (options.foldl UrlOptions.read .unset).listenerRemove = lastValue "listener_remove" options := by
  refine (foldl_read UrlOptions.listenerRemove ?_ options .unset).trans Option.or_none
  intro vars key value
  by_cases hkey : key = "listener_remove"
  · subst hkey
    rfl
  · simp only [UrlOptions.read, apply_ite UrlOptions.listenerRemove, hkey, if_false, ite_self]

theorem streamAuth_foldl_read :
    (options.foldl UrlOptions.read .unset).streamAuth = lastValue "stream_auth" options := by
  refine (foldl_read UrlOptions.streamAuth ?_ options .unset).trans Option.or_none
  intro vars key value
  by_cases hkey : key = "stream_auth"
  · subst hkey
    rfl
  · simp only [UrlOptions.read, apply_ite UrlOptions.streamAuth, hkey, if_false, ite_self]

end Fields

/-! ## What is built -/

/-- The action comes after the URL, so the URL of every event that is registered has been freed. -/
theorem eventGetUrl_optionTags (url : Option String) (action : String)
    (username password : Option String) :
    (eventGetUrl (optionTags [("url", url), ("action", some action), ("username", username),
      ("password", password)])).map EventUrl.url = url.map fun _ ↦ .freed := by
  cases url with
  | none => cases username <;> cases password <;> rfl
  | some url => cases username <;> cases password <;> rfl

theorem postedTo_appendOldStyleUrlEvent (list : List EventRegistration) (trigger other : String)
    (url : Option String) (action : String) (username password : Option String) :
    postedTo (appendOldStyleUrlEvent list trigger url action username password) other =
      postedTo list other ++ if trigger = other then (url.map fun _ ↦ .freed).toList else [] := by
  have hurl := eventGetUrl_optionTags url action username password
  rw [appendOldStyleUrlEvent, postedTo, postedTo, List.filter_append, List.map_append, ← hurl]
  congr 1
  cases eventGetUrl (optionTags [("url", url), ("action", some action), ("username", username),
      ("password", password)]) with
  | none => simp
  | some state =>
    by_cases htrigger : trigger = other
    · simp [htrigger]
    · simp [htrigger]

/-- Nothing is posted to a URL of the options, whichever event it is. -/
theorem postedTo_translate (env : Environment) (vars : UrlOptions) (roles : Roles) :
    postedTo (translate env vars ⟨[], roles⟩).event "source-connect" =
      (vars.mountAdd.map fun _ ↦ .freed).toList ∧
    postedTo (translate env vars ⟨[], roles⟩).event "source-disconnect" =
      ((vars.mountRemove.bind fun _ ↦ vars.mountAdd).map fun _ ↦ .freed).toList := by
  have hnil : ∀ trigger, postedTo [] trigger = [] := fun _ ↦ rfl
  cases hadd : vars.mountAdd <;> cases hremove : vars.mountRemove <;>
    simp [translate, hadd, hremove, postedTo_appendOldStyleUrlEvent, hnil]

section Authenticators

variable (env : Environment)

theorem parseMethods_of_known {names : List String} {wanted : List ReqType}
    (hnames : names.map env.strToMethod = wanted.map some) (hstar : "*" ∉ names)
    (methods : ReqType → Bool) :
    ∃ method, parseMethods env.plugins names methods = some method ∧
      ∀ other, method other = (decide (other ∈ wanted) || methods other) := by
  induction names generalizing wanted methods with
  | nil =>
    have hwanted : wanted = [] := by simpa using hnames.symm
    exact ⟨methods, rfl, fun other ↦ by simp [hwanted]⟩
  | cons name names ih =>
    cases wanted with
    | nil => exact absurd hnames nofun
    | cons first wanted =>
      obtain ⟨hfirst, hrest⟩ := List.cons.inj hnames
      obtain ⟨hne, hstar⟩ := List.ne_and_not_mem_of_not_mem_cons hstar
      obtain ⟨method, hparse, hmethod⟩ :=
        ih hrest hstar fun other ↦ other = first || methods other
      refine ⟨method, ?_, ?_⟩
      · rw [parseMethods, if_neg hne.symm,
          show env.plugins.strToMethod name = some first from hfirst]
        exact hparse
      · intro other
        simp only [hmethod, List.mem_cons, Bool.decide_or]
        rw [← Bool.or_assoc, Bool.or_comm (decide (other ∈ wanted))]

/-- An element of a type that can be built gives an authenticator for the methods that it names. -/
theorem getAuthenticator_of_known {role : RoleNode} (type text : String) (names : List String)
    {wanted : List ReqType} {immediate : Bool} {authenticate : Option (Request → AuthResult)}
    (htype : role.prop "type" = some type) (htext : role.prop "method" = some text)
    (hsplit : Environment.methodNames text = names) (hstar : "*" ∉ names)
    (hnames : names.map env.strToMethod = wanted.map some)
    (hbackend : Auth.getAuthenticator env.plugins type role.options = some (immediate, authenticate))
    (id : ℕ) :
    ∃ auth, env.getAuthenticator role id = some auth ∧ auth.id = id ∧ auth.immediate = immediate ∧
      auth.authenticateClient = authenticate ∧ ∀ other, auth.method other = decide (other ∈ wanted) := by
  obtain ⟨method, hparse, hmethod⟩ := parseMethods_of_known env hnames hstar fun _ ↦ false
  refine ⟨⟨id, method, immediate, authenticate, env.plugins.aclNewFromXmlNode role⟩, ?_, rfl, rfl, rfl,
    fun other ↦ (hmethod other).trans (Bool.or_false _)⟩
  simp only [Environment.getAuthenticator, htype, htext, hsplit, hparse, hbackend]

/-- The authenticator that asks the URL about listeners. -/
theorem getAuthenticator_listener (clientAdd clientRemove actionAdd actionRemove : Option String)
    (vars : UrlOptions) (id : ℕ) :
    ∃ auth, env.getAuthenticator
        (Environment.urlRole clientAdd clientRemove actionAdd actionRemove vars false) id = some auth ∧
      auth.id = id ∧ auth.method .source = false ∧ auth.method .put = false := by
  have hnames : ["get", "post", "head"].map env.strToMethod =
      [ReqType.get, .post, .head].map some := by
    simp only [List.map_cons, List.map_nil, env.str_get, env.str_post, env.str_head]
  let role := Environment.urlRole clientAdd clientRemove actionAdd actionRemove vars false
  have htype : role.prop "type" = some "url" := rfl
  have htext : role.prop "method" = some "get,post,head" := rfl
  obtain ⟨auth, hauth, hid, -, -, hmethod⟩ := getAuthenticator_of_known env "url" "get,post,head"
    ["get", "post", "head"] htype htext (by decide) (by decide) hnames rfl id
  exact ⟨auth, hauth, hid, hmethod .source, hmethod .put⟩

/-- The authenticator for the listeners that the URL has nothing to say about. It takes everybody who
comes with a `PUT`. -/
theorem getAuthenticator_anonymous (id : ℕ) :
    ∃ auth, env.getAuthenticator
        (oldStyleRole none "anonymous" none none (some "get,put,head") none false none) id = some auth ∧
      auth.immediate = true ∧ auth.authenticateClient = some (fun _ ↦ .ok) ∧
      auth.method .put = true := by
  have hnames : ["get", "put", "head"].map env.strToMethod =
      [ReqType.get, .put, .head].map some := by
    simp only [List.map_cons, List.map_nil, env.str_get, env.str_put, env.str_head]
  let role := oldStyleRole none "anonymous" none none (some "get,put,head") none false none
  have htype : role.prop "type" = some "anonymous" := rfl
  have htext : role.prop "method" = some "get,put,head" := rfl
  obtain ⟨auth, hauth, -, himmediate, hauthenticate, hmethod⟩ := getAuthenticator_of_known env
    "anonymous" "get,put,head" ["get", "put", "head"] htype htext (by decide) (by decide) hnames rfl id
  exact ⟨auth, hauth, himmediate, hauthenticate, hmethod .put⟩

end Authenticators

/-! ## What becomes of the meaning -/

section Stacks

variable {pending : ℕ → ℕ} {request : Request}

/-- A single authenticator for other methods has nothing to say, unless its queue is full. -/
theorem askStack_singleton {auth : Authenticator} (hmethod : auth.method request.reqType = false) :
    askStack pending [auth] request = .result .nomatch ↔ pending auth.id ≤ 100 := by
  by_cases hbusy : 100 < pending auth.id
  · simp [askStack, authStackAddClient, authAddClient, newClient, hbusy]
  · simp [askStack, authStackAddClient, authAddClient, newClient, hbusy, hmethod, not_lt.mp hbusy]

/-- Behind it an authenticator takes everybody. -/
theorem askStack_pair_ne {auth anonymous : Authenticator}
    (hmethod : auth.method request.reqType = false)
    (himmediate : anonymous.immediate = true)
    (hauthenticate : anonymous.authenticateClient = some fun _ ↦ .ok)
    (hanonymous : anonymous.method request.reqType = true) :
    askStack pending [auth, anonymous] request ≠ .result .nomatch := by
  have hsame : sameStack [anonymous] [anonymous] = true := by simp [sameStack]
  by_cases hbusy : 100 < pending auth.id
  · simp [askStack, authStackAddClient, authAddClient, newClient, hbusy]
  · by_cases hfull : 100 < pending anonymous.id
    · simp [askStack, authStackAddClient, authAddClient, newClient, hbusy, hmethod, hfull, hsame]
    · simp [askStack, authStackAddClient, authAddClient, newClient, hbusy, hmethod, hfull, hsame,
        hanonymous, himmediate, handleAuthClient, authNewClient, hauthenticate]

end Stacks

/-- The stack of a mount whose options name no URL for sources. -/
theorem stack_translate {env : Environment} {vars : UrlOptions} (hstream : vars.streamAuth = none)
    (firstId : ℕ) :
    (translate env vars ⟨[], ⟨[], firstId⟩⟩).roles.stack =
      (if vars.listenerAdd = none ∧ vars.listenerRemove = none then []
        else (env.getAuthenticator (Environment.urlRole vars.listenerAdd vars.listenerRemove
          (some "listener_add") (some "listener_remove") vars false) firstId).toList) ++
      (if vars.listenerAdd = none then []
        else (env.getAuthenticator
          (oldStyleRole none "anonymous" none none (some "get,put,head") none false none)
          (firstId + 1)).toList) := by
  cases hadd : vars.listenerAdd <;> cases hremove : vars.listenerRemove <;>
    simp [translate, hstream, hadd, hremove, Environment.appendOldStyleUrlauth,
      Environment.appendAnonymous, Environment.pushRole]

/-- Requests of a source client. -/
def IsSourceRequest (request : Request) : Prop := request.reqType = .source ∨ request.reqType = .put

/-- The meaning of the old options: the URLs for sources are told of sources that come and go, and
without a URL for their authentication the mount has nothing to say about it. `pending` are the lengths
of the queues, and `firstId` is the number of the first authenticator that is built. -/
structure KeepsMeaning (env : Environment) (options : List (String × String)) (firstId : ℕ)
    (pending : ℕ → ℕ) : Prop where
  connect :
    postedTo (parseMountOldstyleAuthentication env options ⟨[], ⟨[], firstId⟩⟩).event
      "source-connect" = (lastValue "mount_add" options).toList.map .valid
  disconnect :
    postedTo (parseMountOldstyleAuthentication env options ⟨[], ⟨[], firstId⟩⟩).event
      "source-disconnect" = (lastValue "mount_remove" options).toList.map .valid
  sources : lastValue "stream_auth" options = none → ∀ request, IsSourceRequest request →
    askStack pending (parseMountOldstyleAuthentication env options ⟨[], ⟨[], firstId⟩⟩).roles.stack
      request = .result .nomatch

/-- The events go where they should just if there are none. -/
theorem events_iff (env : Environment) (vars : UrlOptions) (roles : Roles) :
    (postedTo (translate env vars ⟨[], roles⟩).event "source-connect" =
        vars.mountAdd.toList.map .valid ∧
      postedTo (translate env vars ⟨[], roles⟩).event "source-disconnect" =
        vars.mountRemove.toList.map .valid) ↔
      vars.mountAdd = none ∧ vars.mountRemove = none := by
  obtain ⟨hconnect, hdisconnect⟩ := postedTo_translate env vars roles
  rw [hconnect, hdisconnect]
  cases vars.mountAdd <;> cases vars.mountRemove <;> simp

/-- Without a URL for sources, their requests are left to others just if there is no anonymous
authenticator and no full queue. -/
theorem sources_iff {env : Environment} {vars : UrlOptions} (hstream : vars.streamAuth = none)
    (firstId : ℕ) (pending : ℕ → ℕ) :
    (∀ request, IsSourceRequest request →
      askStack pending (translate env vars ⟨[], ⟨[], firstId⟩⟩).roles.stack request =
        .result .nomatch) ↔
      vars.listenerAdd = none ∧ (vars.listenerRemove = none ∨ pending firstId ≤ 100) := by
  obtain ⟨auth, hauth, hid, hsource, hput⟩ := getAuthenticator_listener env vars.listenerAdd
    vars.listenerRemove (some "listener_add") (some "listener_remove") vars firstId
  obtain ⟨anonymous, hanonymous, himmediate, hauthenticate, htakes⟩ :=
    getAuthenticator_anonymous env (firstId + 1)
  let put : Request := ⟨.put, "", -1, .error, none, none, none⟩
  rw [stack_translate hstream, hauth, hanonymous]
  cases hadd : vars.listenerAdd with
  | some url =>
    simp only [reduceCtorEq, false_and, if_false, Option.toList_some, List.singleton_append, iff_false]
    intro hall
    exact askStack_pair_ne hput himmediate hauthenticate htakes (hall put (.inr rfl))
  | none =>
    cases hremove : vars.listenerRemove with
    | none => simp [askStack]
    | some url =>
      simp only [reduceCtorEq, and_false, if_false, if_true, Option.toList_some, List.append_nil,
        true_and, false_or]
      rw [← hid]
      constructor
      · intro hall
        exact (askStack_singleton hput).mp (hall put (.inr rfl))
      · rintro hfree request (hrequest | hrequest)
        · exact (askStack_singleton (hrequest ▸ hsource)).mpr hfree
        · exact (askStack_singleton (hrequest ▸ hput)).mpr hfree

/-- The options keep their meaning just if neither of the URLs for events is given, and a URL that
listeners are to be authenticated at comes with one for sources. -/
theorem legacy_url_keeps_meaning_iff (env : Environment) (options : List (String × String))
    (firstId : ℕ) (pending : ℕ → ℕ) :
    KeepsMeaning env options firstId pending ↔
      lastValue "mount_add" options = none ∧ lastValue "mount_remove" options = none ∧
      (lastValue "stream_auth" options = none →
        lastValue "listener_add" options = none ∧
          (lastValue "listener_remove" options = none ∨ pending firstId ≤ 100)) := by
  let vars := options.foldl UrlOptions.read .unset
  have hevents := events_iff env vars ⟨[], firstId⟩
  rw [mountAdd_foldl_read, mountRemove_foldl_read] at hevents
  have hsources : lastValue "stream_auth" options = none → _ := fun hstream ↦
    @sources_iff env vars ((streamAuth_foldl_read options).trans hstream) firstId pending
  rw [listenerAdd_foldl_read, listenerRemove_foldl_read] at hsources
  constructor
  · intro hkeeps
    obtain ⟨hadd, hremove⟩ := hevents.mp ⟨hkeeps.connect, hkeeps.disconnect⟩
    exact ⟨hadd, hremove, fun hstream ↦ (hsources hstream).mp (hkeeps.sources hstream)⟩
  · rintro ⟨hadd, hremove, hlisteners⟩
    obtain ⟨hconnect, hdisconnect⟩ := hevents.mpr ⟨hadd, hremove⟩
    exact ⟨hconnect, hdisconnect, fun hstream ↦ (hsources hstream).mpr (hlisteners hstream)⟩

/-- Methods by their names, and a web server that knows nobody. -/
def exampleEnvironment : Environment where
  strToMethod := exampleStrToMethod
  urlAddClient _ _ := .failed
  str_get := rfl
  str_post := rfl
  str_head := rfl
  str_source := rfl
  str_put := rfl

/-- With a URL to be told of sources that go and one for the authentication of listeners, nobody is
told, and a source client that sends `PUT` is accepted as a listener. -/
theorem legacy_url_loses_meaning :
    let options := [("mount_remove", "http://localhost/remove"), ("listener_add", "http://localhost/add")]
    let mount := parseMountOldstyleAuthentication exampleEnvironment options ⟨[], ⟨[], 1⟩⟩
    let request reqType : Request := ⟨reqType, "/stream", -1, .error, none, none, none⟩
    mount.event = [] ∧
      askStack (fun _ ↦ 0) mount.roles.stack (request .source) = .result .nomatch ∧
      askStack (fun _ ↦ 0) mount.roles.stack (request .put) = .result .ok ∧
      ¬ KeepsMeaning exampleEnvironment options 1 (fun _ ↦ 0) := by
  refine ⟨by decide, by decide, by decide, ?_⟩
  intro hkeeps
  exact absurd hkeeps.disconnect (by decide)

end Icecast.Auth.LegacyUrl
