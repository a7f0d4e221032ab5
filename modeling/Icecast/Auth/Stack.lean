import Icecast.Lib.Machine
import Mathlib.Data.Int.Notation
import Mathlib.Data.List.Basic

/-!
# Authentication of requests

A request is tried on the authenticators of up to three stacks: that of its mount, that of the
default mount and the global one (`connection.c`). Within a stack, `auth.c` asks the authenticators
in order until one of them has an opinion. An immediate authenticator answers within the call; any
other one has a queue and a thread of its own, so that the request waits, and goes on from there when
the thread has come to it. What happens next is told by callbacks throughout: the code that goes on
to the next authenticator or to the next stack runs inside the call that delivers a result.

The functions that end in a callback are written with their continuations. The other clients appear
only as the number of clients pending on each authenticator.
-/

namespace Icecast.Auth

open Lib.Machine

inductive AuthResult where
  | undefined
  | ok
  | failed
  | released
  | forbidden
  | nomatch
  | useradded
  | userexists
  | userdeleted
  deriving DecidableEq

/-- The request methods; those that no handler is for are not told apart by name. -/
inductive ReqType where
  | source
  | put
  | stats
  | get
  | post
  | head
  | other (code : ℕ)
  deriving DecidableEq

inductive AclPolicy where
  | error
  | allow
  | deny
  deriving DecidableEq

/-- `acl_t`, as far as methods and admin commands are concerned. -/
structure Acl where
  method : ReqType → AclPolicy
  adminCommands : List (ℤ × AclPolicy)
  adminCommandPolicy : AclPolicy

def aclTestMethod (acl : Option Acl) (method : ReqType) : AclPolicy :=
  match acl with
  | none => .error
  | some acl => acl.method method

def aclTestAdmin (acl : Option Acl) (command : ℤ) : AclPolicy :=
  match acl with
  | none => .error
  | some acl =>
    match acl.adminCommands.find? (·.1 = command) with
    | some (_, policy) => policy
    | none => acl.adminCommandPolicy

inductive AdminType where
  | error
  | general
  | mount
  | hybrid
  deriving DecidableEq

/-- What a client asks for. `mountParam` is the query parameter `mount`. -/
structure Request where
  reqType : ReqType
  uri : String
  adminCommand : ℤ
  adminType : AdminType
  mountParam : Option String
  username : Option String
  password : Option String
  deriving DecidableEq

/-- `auth_t`. What its authenticator says of a request is a function of its own. -/
structure Authenticator where
  id : ℕ
  method : ReqType → Bool
  immediate : Bool
  authenticateClient : Option (Request → AuthResult)
  acl : Acl

/-- `client_t`; a stack is the list of its authenticators, `NULL` the empty one. `verdicts` records
which authenticators have been asked and what they returned. -/
structure Client where
  request : Request
  authstack : List Authenticator
  auth : Option Authenticator
  acl : Option Acl
  verdicts : List (Authenticator × AuthResult)

/-- The ways a chain of calls can come to its end: a result is delivered, an error is sent because
too many clients are pending, the client is left in the queue of an authenticator, or the call just
returns. -/
structure Continuation (α : Type*) where
  onResult : Client → AuthResult → α
  busy : Client → α
  queued : Client → Authenticator → α
  ignored : Client → α

section Stack

variable {α : Type*} (pending : ℕ → ℕ) (k : Continuation α)

def authNewClient (auth : Authenticator) (client : Client) : AuthResult × Client :=
  match auth.authenticateClient with
  | some authenticate =>
    let ret := authenticate client.request
    let client := { client with verdicts := client.verdicts ++ [(auth, ret)] }
    if ret ≠ .ok then (ret, { client with auth := none }) else (ret, client)
  | none => (.failed, { client with verdicts := client.verdicts ++ [(auth, .failed)] })

/-- `__handle_auth_client` for a client that is to be authenticated. -/
def handleAuthClient (onNoMatch : Client → α) (auth : Authenticator) (client : Client) : α :=
  let (result, client) := authNewClient auth client
  let client := if result = .ok then { client with acl := some auth.acl } else client
  if result = .nomatch then onNoMatch client else k.onResult client result

def authAddClient (onNoMatch : Client → α) (auth : Authenticator) (client : Client) : α :=
  if 100 < pending auth.id then k.busy client
  else if auth.method client.request.reqType then
    let client := { client with auth := some auth }
    if auth.immediate then handleAuthClient k onNoMatch auth client else k.queued client auth
  else onNoMatch client

/-- Stacks are compared by address; the authenticators of different stacks have different ids. -/
def sameStack (first second : List Authenticator) : Bool :=
  first.map Authenticator.id = second.map Authenticator.id

/-- `auth_stack_add_client`. When there is no match the client moves forward in its stack. -/
def authStackAddClient : List Authenticator → Client → α
  | [], client => k.ignored client
  | auth :: rest, client =>
    if client.authstack ≠ [] ∧ ¬sameStack client.authstack (auth :: rest) then k.ignored client
    else
      authAddClient pending k
        (fun client ↦
          let client := { client with authstack := rest }
          if rest = [] then k.onResult client .nomatch else authStackAddClient rest client)
        auth { client with authstack := auth :: rest }

def moveClientForward (client : Client) : α :=
  let client := { client with authstack := client.authstack.tail }
  if client.authstack = [] then k.onResult client .nomatch
  else authStackAddClient pending k client.authstack client

end Stack

/-! ## The three stacks -/

inductive MountType where
  | normal
  | default
  deriving DecidableEq

structure MountProxy where
  mountname : Option String
  mounttype : MountType
  authstack : List Authenticator

/-- The configuration, and the pattern matching of the system that it uses for mount names. -/
structure Config where
  mounts : List MountProxy
  authstack : List Authenticator
  fnmatch : String → String → Bool

def configFindDefaultMount (config : Config) (mount : String) : Option MountProxy :=
  config.mounts.find? fun mountinfo ↦
    mountinfo.mounttype = .default && match mountinfo.mountname with
      | none => true
      | some name => config.fnmatch name mount

/-- `config_find_mount` for a given name. -/
def configFindMount (config : Config) (mount : String) : MountType → Option MountProxy
  | .default => configFindDefaultMount config mount
  | .normal =>
    let found := config.mounts.find? fun mountinfo ↦
      mountinfo.mounttype = .normal && mountinfo.mountname = some mount
    if found.isSome then found else configFindDefaultMount config mount

def findNonAdminMount (config : Config) (name : String) (type : MountType) : Option MountProxy :=
  if name = "/admin.cgi" ∨ name.startsWith "/admin/" then none else configFindMount config name type

/-- The stack that `_handle_authentication_mount_generic` looks up. -/
def mountStack (config : Config) (request : Request) (type : MountType) : List Authenticator :=
  let mountproxy := findNonAdminMount config request.uri type
  let mountproxy :=
    if mountproxy.isNone ∧ (request.adminType = .mount ∨ request.adminType = .hybrid) then
      request.mountParam.bind fun mount ↦ findNonAdminMount config mount type
    else mountproxy
  match mountproxy with
  | some mountproxy => if mountproxy.mounttype = type then mountproxy.authstack else []
  | none => []

/-- The callbacks of `connection.c` that are given to `auth_stack_add_client`. -/
inductive Callback where
  | mountDefault
  | global
  | authed
  deriving DecidableEq

inductive Handler where
  | source
  | stats
  | get
  deriving DecidableEq

inductive ErrorId where
  | authBusy
  | clientNeedsToAuthenticate
  | unknownRequest
  deriving DecidableEq

inductive Outcome where
  | dispatched (handler : Handler)
  | errorSent (error : ErrorId)
  deriving DecidableEq

/-- A request under way: it may wait in the queue of an authenticator, with the callback for the
result, and it has had some outcomes. -/
structure Task where
  client : Client
  waiting : Option (Authenticator × Callback)
  outcomes : List Outcome

def finish (client : Client) (outcome : Outcome) : Task := ⟨client, none, [outcome]⟩

def handleAuthedClient (client : Client) (result : AuthResult) : Task :=
  let client := { client with authstack := [] }
  if result ≠ .ok then finish client (.errorSent .clientNeedsToAuthenticate)
  else if aclTestMethod client.acl client.request.reqType ≠ .allow then
    finish client (.errorSent .clientNeedsToAuthenticate)
  else
    match client.request.reqType with
    | .source | .put => finish client (.dispatched .source)
    | .stats => finish client (.dispatched .stats)
    | .get => finish client (.dispatched .get)
    | _ => finish client (.errorSent .unknownRequest)

/-- The chain of calls for a callback in `connection.c`. -/
def continueWith (callback : Callback) (onResult : Client → AuthResult → Task) :
    Continuation Task where
  onResult := onResult
  busy client := finish client (.errorSent .authBusy)
  queued client auth := ⟨client, some (auth, callback), []⟩
  ignored client := ⟨client, none, []⟩

/-- Whether the next stack is tried: nobody knew the client, or it may not use its admin command. -/
def tryNextStack (client : Client) (result : AuthResult) : Bool :=
  result = .nomatch ||
    (result = .ok && client.request.adminCommand ≠ -1 &&
      aclTestAdmin client.acl client.request.adminCommand = .deny)

section Stages

variable (config : Config) (pending : ℕ → ℕ)

def handleAuthenticationGlobal (client : Client) (result : AuthResult) : Task :=
  let client := { client with authstack := [] }
  if tryNextStack client result then
    authStackAddClient pending (continueWith .authed handleAuthedClient) config.authstack client
  else handleAuthedClient client result

def handleAuthenticationMountGeneric (type : MountType) (callback : Callback)
    (onResult : Client → AuthResult → Task) (client : Client) : Task :=
  match mountStack config client.request type with
  | [] => onResult client .nomatch
  | stack => authStackAddClient pending (continueWith callback onResult) stack client

def handleAuthenticationMountDefault (client : Client) (result : AuthResult) : Task :=
  let client := { client with authstack := [] }
  if tryNextStack client result then
    handleAuthenticationMountGeneric config pending .default .global
      (handleAuthenticationGlobal config pending) client
  else handleAuthedClient client result

def handleAuthentication (client : Client) : Task :=
  handleAuthenticationMountGeneric config pending .normal .mountDefault
    (handleAuthenticationMountDefault config pending) client

def invoke : Callback → Client → AuthResult → Task
  | .mountDefault => handleAuthenticationMountDefault config pending
  | .global => handleAuthenticationGlobal config pending
  | .authed => handleAuthedClient

end Stages

/-- The configuration and the lengths of the queues at the time of an event. -/
structure Env where
  config : Config
  pending : ℕ → ℕ

/-- The thread of the authenticator a request waits for has come to it. -/
def process (task : Task) (env : Env) : Task :=
  match task.waiting with
  | none => task
  | some (auth, callback) =>
    let k := continueWith callback (invoke env.config env.pending callback)
    let next := handleAuthClient k (moveClientForward env.pending k) auth task.client
    { next with outcomes := task.outcomes ++ next.outcomes }

/-- A client as it comes from `client_create`. -/
def newClient (request : Request) : Client := ⟨request, [], none, none, []⟩

/-- A request is handed to `_handle_authentication` and then processed at the times of `later`. -/
def runRequest (request : Request) (first : Env) (later : List Env) : Task :=
  run process (handleAuthentication first.config first.pending (newClient request)) later

end Icecast.Auth
