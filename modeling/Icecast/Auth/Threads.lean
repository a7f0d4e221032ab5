import Icecast.Auth.Outcome
import Icecast.Lib.Heap
import Icecast.Lib.LinkQueue
import Icecast.Lib.Workers

/-!
# The threads of the authenticators

An authenticator that does not answer at once has a queue of `auth_client` structures, with a pointer to
the link behind the last of them, and a thread that takes them from the front (`auth.c`). A client is queued
when it is to be authenticated, perhaps by the thread of the authenticator in front on its stack, and once
more when it leaves and the authenticator wants to know of that.

The numbers of clients pending are read without the lock, so that any numbers may be read. The queue
operations are done under a lock. What a thread does with a client it has taken is one step here, although
the client may come into the next queue shortly before the old `auth_client` is freed: nobody else has that
one.
-/

namespace Icecast.Auth.Threads

open Function Lib Lib.LinkQueue Lib.Machine

abbrev Link := LinkQueue.Link ℕ ℕ

/-- A client from its request on: `leaving` is the authenticator in whose queue it stands to be released. -/
structure Session where
  task : Task
  leaving : Option Authenticator
  left : Bool

/-- What an `auth_client` is queued for is told by the session: it has the client only. -/
structure State where
  nodes : Heap ℕ
  link : Link → Option ℕ
  tailp : ℕ → Link
  pendingCount : ℕ → ℤ
  hand : ℕ → Option ℕ
  sessions : List Session

/-- Every authenticator as `auth_get_authenticator` leaves it. -/
def empty : State := ⟨Heap.empty, fun _ ↦ none, .head, fun _ ↦ 0, fun _ ↦ none, []⟩

/-! ## One client -/

def withoutAuth (client : Client) : Client := { client with auth := none, acl := none }

/-- `__handle_auth_client` with `auth_remove_client`, where `release_client` gives `ret`. After an `AUTH_OK`
the client gets an ACL once more. -/
def authRemoveClient (auth : Authenticator) (ret : AuthResult) (session : Session) : Session :=
  let client := withoutAuth session.task.client
  let client := if ret = .ok then { client with acl := some auth.acl } else client
  { session with
    task := { session.task with client := client }
    leaving := none
    left := true }

/-- `auth_release_client`; what `release_client` of the authenticator gives if it has one. -/
def authReleaseClient (releaseClient : Option AuthResult) (session : Session) : Session :=
  let released := { session with task := { session.task with client := withoutAuth session.task.client } }
  if session.task.client.acl.isNone then session
  else
    match session.task.client.auth with
    | none => released
    | some auth =>
      match releaseClient with
      | none => released
      | some ret =>
        if auth.immediate then authRemoveClient auth ret session else { session with leaving := some auth }

/-- With what `release_client` gives, if that is called. -/
inductive Input where
  | processed (env : Env) (ret : AuthResult)
  | released (releaseClient : Option AuthResult)

/-- The function in `process` of the `auth_client` has been called, or the client leaves. -/
def proceed (session : Session) : Input → Session
  | .processed env ret =>
    if session.task.waiting.isSome then { session with task := process session.task env }
    else
      match session.leaving with
      | some auth => authRemoveClient auth ret session
      | none => session
  | .released releaseClient => authReleaseClient releaseClient session

/-- The authenticator in whose queue the client belongs. -/
def waitsFor (session : Session) : Option ℕ :=
  match session.task.waiting with
  | some (auth, _) => some auth.id
  | none => session.leaving.map Authenticator.id

/-! ## Queues and threads -/

/-- `auth_client_setup`, and `queue_auth_client` for an authenticator that is not immediate. -/
def queueAuthClient (client auth : ℕ) (st : State) : State :=
  let node := st.nodes.next
  { st with
    nodes := st.nodes.alloc client
    link := update (update st.link (.next node) none) (st.tailp auth) (some node)
    tailp := update st.tailp auth (.next node)
    pendingCount := update st.pendingCount auth (st.pendingCount auth + 1) }

def queueWaiting (client : ℕ) (st : State) : Option ℕ → State
  | none => st
  | some auth => queueAuthClient client auth st

/-- A client goes on, which may lead it into a queue. -/
def goOn (client : ℕ) (input : Input) (st : State) : State :=
  match st.sessions[client]? with
  | none => st
  | some session =>
    queueWaiting client { st with sessions := st.sessions.set client (proceed session input) }
      (waitsFor (proceed session input))

/-- What `auth_run_thread` does under the lock. -/
def authRunThread (auth : ℕ) (st : State) : State :=
  match st.hand auth, st.link (.head auth) with
  | none, some node =>
    let link := update st.link (.head auth) (st.link (.next node))
    { st with
      link := update link (.next node) none
      tailp := if link (.head auth) = none then update st.tailp auth (.head auth) else st.tailp
      pendingCount := update st.pendingCount auth (st.pendingCount auth - 1)
      hand := update st.hand auth (some node) }
  | _, _ => st

/-- `__handle_auth_client` in the thread; the `auth_client` is freed at its end. -/
def handleTaken (auth : ℕ) (env : Env) (ret : AuthResult) (st : State) : State :=
  match st.hand auth with
  | none => st
  | some node =>
    match st.nodes.objects node with
    | none => st
    | some client =>
      let st := goOn client (.processed env ret) st
      { st with nodes := st.nodes.free node, hand := update st.hand auth none }

inductive Event where
  | arrive (request : Request) (env : Env)
  | release (client : ℕ) (releaseClient : Option AuthResult)
  | take (auth : ℕ)
  | handle (auth : ℕ) (env : Env) (ret : AuthResult)

def newSession (request : Request) (env : Env) : Session :=
  ⟨handleAuthentication env.config env.pending (newClient request), none, false⟩

/-- A client that waits for an authenticator is not released. -/
def step (st : State) : Event → State
  | .arrive request env =>
    queueWaiting st.sessions.length { st with sessions := st.sessions ++ [newSession request env] }
      (waitsFor (newSession request env))
  | .release client releaseClient =>
    if (st.sessions[client]?).bind waitsFor = none then goOn client (.released releaseClient) st else st
  | .take auth => authRunThread auth st
  | .handle auth env ret => handleTaken auth env ret st

end Icecast.Auth.Threads
