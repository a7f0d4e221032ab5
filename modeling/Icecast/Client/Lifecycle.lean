import Icecast.Auth.Stack
import Icecast.Lib.Heap

/-!
# The life of a client

`client_create` and `client_destroy` (`client.c`) with the two ways in which a client does not end at
once: its connection is kept for another request, or its authenticator wants to be told and the
client goes through the queue of the authenticator first (`auth_release_client`). What the rest of
the server does to a client in between is an arbitrary change of its authentication and its reuse.

Whoever calls `client_destroy` gives its pointer up; `destroyed` marks that. `decrements` lists the
clients `global.clients` has been decremented for.
-/

namespace Icecast.Client

open Lib Lib.Machine
open Auth (AuthResult)

inductive Reuse where
  | close
  | keepalive
  | upgradetls
  deriving DecidableEq

/-- `auth_t` with its release hook, if it has one. -/
structure Authenticator where
  id : ℕ
  immediate : Bool
  releaseClient : Option (ℕ → AuthResult)

/-- `connection_t`; a socket of `-1` is `none`. -/
structure Connection where
  sock : Option ℕ
  serversock : ℕ
  ip : String
  tls : Bool

/-- `client_t`; `acl` is the authenticator whose ACL it has. -/
structure ClientState where
  con : ℕ
  reuse : Reuse
  acl : Option ℕ
  auth : Option Authenticator
  destroyed : Bool

def ClientState.setAuth (acl : Option ℕ) (auth : Option Authenticator) (client : ClientState) :
    ClientState :=
  { client with acl, auth }

def ClientState.setReuse (reuse : Reuse) (client : ClientState) : ClientState := { client with reuse }

def ClientState.giveUp (client : ClientState) : ClientState := { client with destroyed := true }

structure State where
  clients : Heap ClientState
  connections : Heap Connection
  globalClients : ℤ
  releaseQueue : List (Authenticator × ℕ)
  decrements : List ℕ
  closedSocks : List ℕ

def start : State := ⟨.empty, .empty, 0, [], [], []⟩

/-! ## Release by the authenticator -/

/-- The result of `auth_remove_client`, which also takes authenticator and ACL off the client. -/
def authRemoveClient (id : ℕ) (client : ClientState) : AuthResult :=
  match client.auth.bind Authenticator.releaseClient with
  | some release => release id
  | none => .released

/-- `__handle_auth_client` with `auth_remove_client` as its process, and no callback. -/
def handleRelease (auth : Authenticator) (id : ℕ) (s : State) : State :=
  match s.clients.objects id with
  | none => s
  | some client =>
    let acl := if authRemoveClient id client = .ok then some auth.id else none
    { s with clients := s.clients.modify id (ClientState.setAuth acl none) }

def queueAuthClient (auth : Authenticator) (id : ℕ) (s : State) : State :=
  if auth.immediate then handleRelease auth id s
  else { s with releaseQueue := s.releaseQueue ++ [(auth, id)] }

/-- `auth_release_client`; the result says whether the client is left to its authenticator. -/
def authReleaseClient (id : ℕ) (client : ClientState) (s : State) : Bool × State :=
  if client.acl.isSome then
    match client.auth with
    | some auth =>
      if auth.releaseClient.isSome then (true, queueAuthClient auth id s)
      else (false, { s with clients := s.clients.modify id (ClientState.setAuth none none) })
    | none => (false, { s with clients := s.clients.modify id (ClientState.setAuth none none) })
  else (false, s)

/-! ## Creation and destruction -/

def connectionClose (con : ℕ) (s : State) : State :=
  match s.connections.objects con with
  | none => s
  | some connection =>
    { s with
      connections := s.connections.free con
      closedSocks := s.closedSocks ++ connection.sock.toList }

/-- `client_create`: a client is made even if the limit has been reached. -/
def clientCreate (clientLimit : ℤ) (con : ℕ) (s : State) : ℤ × ℕ × State :=
  let ret := if clientLimit < s.globalClients + 1 then -1 else 0
  (ret, s.clients.next, { s with
    clients := s.clients.alloc ⟨con, .close, none, none, false⟩
    globalClients := s.globalClients + 1 })

/-- The end of `client_destroy`. -/
def clientFree (id : ℕ) (con : ℕ) (s : State) : State :=
  let s := connectionClose con s
  { s with
    globalClients := s.globalClients - 1
    decrements := s.decrements ++ [id]
    clients := s.clients.free id }

/-- `client_destroy` for a client whose connection is not reused. -/
def destroyClosing (id : ℕ) (s : State) : State :=
  match s.clients.objects id with
  | none => s
  | some client =>
    let s := { s with clients := s.clients.modify id ClientState.giveUp }
    let (released, s) := authReleaseClient id client s
    if released then s else clientFree id client.con s

/-- `connection_queue`. A client over the limit lives on until its error has been sent; when the
options of the socket cannot be set (`fails`) the client is destroyed. -/
def connectionQueue (clientLimit : ℤ) (fails : Bool) (con : ℕ) (s : State) : State :=
  let (ret, id, s) := clientCreate clientLimit con s
  if ret < 0 then s else if fails then destroyClosing id s else s

/-- `client_reuseconnection`: the socket goes over to a new connection. -/
def clientReuseconnection (clientLimit : ℤ) (fails : Bool) (id : ℕ) (client : ClientState) (s : State) :
    State :=
  match s.connections.objects client.con with
  | none => s
  | some old =>
    let con := s.connections.next
    let tls := old.tls || client.reuse = .upgradetls
    let s := { s with
      connections := (s.connections.alloc ⟨old.sock, old.serversock, old.ip, tls⟩).modify client.con
        fun connection ↦ { connection with sock := none, tls := false }
      clients := s.clients.modify id (ClientState.setReuse .close) }
    connectionQueue clientLimit fails con (destroyClosing id s)

def clientDestroy (clientLimit : ℤ) (fails : Bool) (id : ℕ) (s : State) : State :=
  match s.clients.objects id with
  | none => s
  | some client =>
    if client.reuse ≠ .close then clientReuseconnection clientLimit fails id client s
    else destroyClosing id s

/-! ## Events -/

inductive Event where
  /-- A connection comes in. -/
  | accept (connection : Connection) (clientLimit : ℤ) (fails : Bool)
  /-- A client is made for an outgoing connection, as for a relay. -/
  | create (connection : Connection) (clientLimit : ℤ)
  /-- The rest of the server changes a client it owns. -/
  | update (id : ℕ) (reuse : Reuse) (acl : Option ℕ) (auth : Option Authenticator)
  | destroy (id : ℕ) (clientLimit : ℤ) (fails : Bool)
  /-- The thread of an authenticator takes the first release request from its queue. -/
  | processRelease (auth : ℕ)

/-- Whether anyone has a pointer to the client. -/
def owned (s : State) (id : ℕ) : Bool :=
  match s.clients.objects id with
  | none => false
  | some client => !client.destroyed

def processRelease (auth : ℕ) (s : State) : State :=
  match s.releaseQueue.find? (·.1.id = auth) with
  | none => s
  | some (authenticator, id) =>
    handleRelease authenticator id { s with releaseQueue := s.releaseQueue.eraseP (·.1.id = auth) }

def step (s : State) : Event → State
  | .accept connection clientLimit fails =>
    connectionQueue clientLimit fails s.connections.next
      { s with connections := s.connections.alloc connection }
  | .create connection clientLimit =>
    (clientCreate clientLimit s.connections.next
      { s with connections := s.connections.alloc connection }).2.2
  | .update id reuse acl auth =>
    if owned s id then
      { s with clients := s.clients.modify id fun client ↦
        (client.setAuth acl auth).setReuse reuse }
    else s
  | .destroy id clientLimit fails => if owned s id then clientDestroy clientLimit fails id s else s
  | .processRelease auth => processRelease auth s

end Icecast.Client
