import Icecast.Auth.Threads

/-!
# What the threads of the authenticators do with a client

The queues and threads carry out the machine in which clients wait for authenticators, event by event. What
is known of that machine in general is so of the clients: none is lost, kept twice or passed over. Together
with what is known of one request this says how often a client is answered.
-/

namespace Icecast.Auth.Threads

open Function Lib Lib.LinkQueue Lib.Machine

/-- The same in terms of clients that wait for authenticators. -/
abbrev Abstract := Workers.State ℕ Session Input

/-- Node by node, the queues and hands of the threads are those of the clients. -/
structure Represents (st : State) (b : Abstract) (nodesOf : ℕ → List ℕ) : Prop where
  sessions : st.sessions = b.tasks
  queue : ∀ auth, Queue st.link (st.tailp auth) auth (nodesOf auth)
  clients : ∀ auth, (nodesOf auth).map st.nodes.objects = (b.queue auth).map some
  count : ∀ auth, st.pendingCount auth = (nodesOf auth).length
  idle : ∀ auth, st.hand auth = none → b.hand auth = none
  hand : ∀ auth node, st.hand auth = some node →
    ∃ client, st.nodes.objects node = some client ∧ b.hand auth = some client
  live : ∀ node client, st.nodes.objects node = some client →
    ∃ auth, node ∈ nodesOf auth ∨ st.hand auth = some node

/-- The client of each thread goes on in its own way. -/
abbrev Placed (b : Abstract) : Prop := Workers.Invariant waitsFor proceed b

section Steps

variable {st : State} {b : Abstract} {nodesOf : ℕ → List ℕ}

theorem mem_clients (h : Represents st b nodesOf) {auth node : ℕ} (hnode : node ∈ nodesOf auth) :
    ∃ client, st.nodes.objects node = some client ∧ client ∈ b.queue auth := by
  have hmem : st.nodes.objects node ∈ (b.queue auth).map some := h.clients auth ▸ List.mem_map_of_mem hnode
  obtain ⟨client, hclient, hobject⟩ := List.mem_map.mp hmem
  exact ⟨client, hobject.symm, hclient⟩

/-- A node in a queue or in a thread's hands is that of a client there. -/
theorem holds_client (h : Represents st b nodesOf) {auth node : ℕ}
    (hnode : node ∈ nodesOf auth ∨ st.hand auth = some node) :
    ∃ client, st.nodes.objects node = some client ∧ b.Holds auth client := by
  rcases hnode with hmem | hhand
  · obtain ⟨client, hclient, hqueue⟩ := mem_clients h hmem
    exact ⟨client, hclient, Or.inl hqueue⟩
  · obtain ⟨client, hclient, hb⟩ := h.hand auth node hhand
    exact ⟨client, hclient, Or.inr hb⟩

/-- No node is in two places. -/
theorem place_unique (h : Represents st b nodesOf)
    (hsingle : ∀ {auth other client : ℕ}, b.Holds auth client → b.Holds other client → auth = other)
    {auth other node : ℕ} (hauth : node ∈ nodesOf auth ∨ st.hand auth = some node)
    (hother : node ∈ nodesOf other ∨ st.hand other = some node) : auth = other := by
  obtain ⟨client, hclient, hholds⟩ := holds_client h hauth
  obtain ⟨client', hclient', hholds'⟩ := holds_client h hother
  rw [hclient, Option.some.injEq] at hclient'
  rw [← hclient'] at hholds'
  exact hsingle hholds hholds'

theorem Represents.fresh (h : Represents st b nodesOf) (auth : ℕ) : st.nodes.next ∉ nodesOf auth := by
  intro hmem
  obtain ⟨client, hclient, -⟩ := mem_clients h hmem
  rw [st.nodes.fresh _ (Nat.le_refl _)] at hclient
  cases hclient

theorem queueAuthClient_represents (h : Represents st b nodesOf)
    (hsingle : ∀ {auth other client : ℕ}, b.Holds auth client → b.Holds other client → auth = other)
    (client auth : ℕ) : Represents (queueAuthClient client auth st) (Workers.enqueue client b (some auth))
      (update nodesOf auth (nodesOf auth ++ [st.nodes.next])) := by
  have hcleared (other : ℕ) :
      Queue (update st.link (.next st.nodes.next) none) (st.tailp other) other (nodesOf other) := by
    apply (h.queue other).congr
    intro link hlink
    apply update_of_ne
    rintro rfl
    exact h.fresh other (next_mem_links.mp hlink)
  have hkept {node found : ℕ} (hfound : st.nodes.objects node = some found) :
      (st.nodes.alloc client).objects node = some found := by
    rw [Heap.objects_alloc_of_isSome _ _ (Option.isSome_of_eq_some hfound)]
    exact hfound
  refine ⟨h.sessions, fun other ↦ ?_, fun other ↦ ?_, fun other ↦ ?_, h.idle, fun other node hnode ↦ ?_,
    fun node found hfound ↦ ?_⟩
  · change Queue (update (update st.link (.next st.nodes.next) none) (st.tailp auth) (some st.nodes.next))
      (update st.tailp auth (.next st.nodes.next) other) other
      (update nodesOf auth (nodesOf auth ++ [st.nodes.next]) other)
    by_cases hother : other = auth
    · rw [hother, update_self, update_self]
      exact (hcleared auth).append (update_self _ _ _) (h.fresh auth)
    · rw [update_of_ne hother, update_of_ne hother]
      apply (hcleared other).congr
      intro link hlink
      apply update_of_ne
      rintro rfl
      have hapart : ∀ node ∈ nodesOf auth, node ∉ nodesOf other := fun node hnode hnode' ↦
        hother (place_unique h hsingle (Or.inl hnode') (Or.inl hnode))
      have htail : st.tailp auth ∈ links (.head auth) (nodesOf auth) := by
        rw [(h.queue auth).tail_eq]
        exact lastLink_mem
      exact notMem_links_of_mem (Ne.symm hother) hapart htail hlink
  · change (update nodesOf auth (nodesOf auth ++ [st.nodes.next]) other).map
        (st.nodes.alloc client).objects = (update b.queue auth (b.queue auth ++ [client]) other).map some
    have hold : (nodesOf other).map (st.nodes.alloc client).objects = (b.queue other).map some := by
      rw [← h.clients other]
      apply List.map_congr_left
      intro node hnode
      obtain ⟨found, hfound, -⟩ := mem_clients h hnode
      rw [hkept hfound, hfound]
    by_cases hother : other = auth
    · rw [hother] at hold ⊢
      rw [update_self, update_self, List.map_append, List.map_append, hold, List.map_singleton,
        Heap.objects_alloc_self]
      rfl
    · rw [update_of_ne hother, update_of_ne hother]
      exact hold
  · change update st.pendingCount auth (st.pendingCount auth + 1) other =
      (update nodesOf auth (nodesOf auth ++ [st.nodes.next]) other).length
    by_cases hother : other = auth
    · rw [hother, update_self, update_self, List.length_append, h.count]
      rfl
    · rw [update_of_ne hother, update_of_ne hother]
      exact h.count other
  · obtain ⟨found, hfound, hb⟩ := h.hand other node hnode
    exact ⟨found, hkept hfound, hb⟩
  · change (st.nodes.alloc client).objects node = some found at hfound
    by_cases hnew : node = st.nodes.next
    · refine ⟨auth, Or.inl ?_⟩
      rw [hnew, update_self]
      exact List.mem_append_right _ (List.mem_singleton_self _)
    · rw [Heap.objects_alloc_of_ne _ _ hnew] at hfound
      obtain ⟨other, hplace⟩ := h.live node found hfound
      refine ⟨other, hplace.imp_left fun hmem ↦ ?_⟩
      by_cases hother : other = auth
      · rw [hother] at hmem ⊢
        rw [update_self]
        exact List.mem_append_left _ hmem
      · rwa [update_of_ne hother]

/-- A queue with a first node, as the rules for queues see it. -/
theorem nodes_cons {auth node : ℕ} {tail : Link} {rest : List ℕ}
    (h : Queue st.link tail auth (node :: rest)) :
    Queue st.link tail auth ([] ++ node :: rest) := h

theorem node_rest {auth node : ℕ} {tail : Link} {rest : List ℕ}
    (h : Queue st.link tail auth (node :: rest)) :
    Queue st.link tail auth ([node] ++ rest) := h

/-- The thread takes the first client. -/
theorem authRunThread_represents (h : Represents st b nodesOf) (hb : Placed b) (auth : ℕ) : ∃ nodesOf',
    Represents (authRunThread auth st) (Workers.step waitsFor proceed b (.take auth)) nodesOf' := by
  rw [authRunThread, Workers.step]
  cases hhand : st.hand auth with
  | some node =>
    obtain ⟨client, -, hbusy⟩ := h.hand auth node hhand
    rw [hbusy]
    exact ⟨nodesOf, h⟩
  | none =>
    rw [h.idle auth hhand]
    have hqueue := h.queue auth
    have hclients := h.clients auth
    cases hnodes : nodesOf auth with
    | nil =>
      rw [hnodes] at hqueue hclients
      rw [List.map_eq_nil_iff.mp hclients.symm, show st.link (.head auth) = none from hqueue.ends]
      exact ⟨nodesOf, h⟩
    | cons node rest =>
      rw [hnodes] at hqueue hclients
      obtain ⟨client, clients, hbqueue, hclient, hrest⟩ := List.map_eq_cons_iff.mp hclients.symm
      have hin : node ∈ nodesOf auth := hnodes ▸ List.mem_cons_self
      have hsingle {first second found : ℕ} (hfirst : b.Holds first found)
        (hsecond : b.Holds second found) :
          first = second := hb.single hfirst hsecond
      rw [hbqueue, show st.link (.head auth) = some node from hqueue.path.1]
      have hremoved : Queue (update (update st.link (.head auth) (st.link (.next node))) (.next node) none)
          (if st.tailp auth = .next node then .head auth else st.tailp auth) auth rest :=
        Queue.remove (nodes_cons hqueue)
      have hnext : st.link (.next node) = rest.head? := Queue.mem_lastLink (node_rest hqueue)
      have hlast : st.link (.next node) = none ↔ st.tailp auth = .next node := by
        rw [hnext, List.head?_eq_none_iff]
        exact (Queue.tail_eq_next_iff (nodes_cons hqueue)).symm
      refine ⟨update nodesOf auth rest, h.sessions, fun other ↦ ?_, fun other ↦ ?_, fun other ↦ ?_,
        fun other hnone ↦ ?_, fun other found hfound ↦ ?_, fun found owner hfound ↦ ?_⟩
      · change Queue (update (update st.link (.head auth) (st.link (.next node))) (.next node) none)
          ((if update st.link (.head auth) (st.link (.next node)) (.head auth) = none
            then update st.tailp auth (.head auth) else st.tailp) other) other
          (update nodesOf auth rest other)
        by_cases hother : other = auth
        · rw [hother, update_self]
          by_cases htail : st.tailp auth = .next node
          · rw [if_pos htail] at hremoved
            rw [if_pos (hlast.mpr htail), update_self, update_self]
            exact hremoved
          · rw [if_neg htail] at hremoved
            rw [if_neg (mt hlast.mp htail), update_self]
            exact hremoved
        · have htail : (if update st.link (.head auth) (st.link (.next node)) (.head auth) = none
              then update st.tailp auth (.head auth) else st.tailp) other = st.tailp other := by
            split
            · exact update_of_ne hother _ _
            · rfl
          rw [htail, update_of_ne hother]
          apply (h.queue other).congr
          intro link hlink
          rw [update_of_ne, update_of_ne]
          · rintro rfl
            rcases mem_links_head.mp hlink with hhead | ⟨found, -, hfound⟩
            · exact hother (Link.head.inj hhead).symm
            · cases hfound
          · rintro rfl
            exact hother (place_unique h hsingle (Or.inl (next_mem_links.mp hlink)) (Or.inl hin))
      · change (update nodesOf auth rest other).map st.nodes.objects =
        (update b.queue auth clients other).map some
        by_cases hother : other = auth
        · rw [hother, update_self, update_self]
          exact hrest.symm
        · rw [update_of_ne hother, update_of_ne hother]
          exact h.clients other
      · change update st.pendingCount auth (st.pendingCount auth - 1) other =
        (update nodesOf auth rest other).length
        by_cases hother : other = auth
        · rw [hother, update_self, update_self, h.count, hnodes, List.length_cons]
          omega
        · rw [update_of_ne hother, update_of_ne hother]
          exact h.count other
      · change update st.hand auth (some node) other = none at hnone
        change update b.hand auth (some client) other = none
        by_cases hother : other = auth
        · rw [hother, update_self] at hnone
          cases hnone
        · rw [update_of_ne hother] at hnone ⊢
          exact h.idle other hnone
      · change update st.hand auth (some node) other = some found at hfound
        change ∃ client', st.nodes.objects found = some client' ∧
          update b.hand auth (some client) other = some client'
        by_cases hother : other = auth
        · rw [hother, update_self, Option.some.injEq] at hfound
          rw [hother, update_self, ← hfound]
          exact ⟨client, hclient.symm, rfl⟩
        · rw [update_of_ne hother] at hfound ⊢
          exact h.hand other found hfound
      · obtain ⟨other, hplace⟩ := h.live found owner hfound
        refine ⟨other, ?_⟩
        change found ∈ update nodesOf auth rest other ∨ update st.hand auth (some node) other = some found
        by_cases hother : other = auth
        · rw [hother, update_self, update_self]
          rw [hother, hnodes, hhand, List.mem_cons] at hplace
          rcases hplace with (rfl | hmem) | hnone
          · exact Or.inr rfl
          · exact Or.inl hmem
          · cases hnone
        · rwa [update_of_ne hother, update_of_ne hother]

/-- A client that goes on, in the abstract machine a task that is nowhere. -/
theorem goOn_represents (h : Represents st b nodesOf)
    (hsingle : ∀ {auth other client : ℕ}, b.Holds auth client → b.Holds other client → auth = other)
    (client : ℕ) (input : Input) : ∃ nodesOf',
    Represents (goOn client input st) (Workers.advance waitsFor proceed client input b) nodesOf' := by
  rw [goOn, Workers.advance, h.sessions]
  cases b.tasks[client]? with
  | none => exact ⟨nodesOf, h⟩
  | some session =>
    have hset : Represents { st with sessions := b.tasks.set client (proceed session input) } { b with
        tasks := b.tasks.set client (proceed session input)
        inputs := b.inputs ++ [(client, input)] } nodesOf :=
      ⟨rfl, h.queue, h.clients, h.count, h.idle, h.hand, h.live⟩
    cases hwaits : waitsFor (proceed session input) with
    | none =>
      dsimp only
      rw [hwaits]
      exact ⟨nodesOf, hset⟩
    | some auth =>
      dsimp only
      rw [hwaits]
      exact ⟨_, queueAuthClient_represents hset hsingle client auth⟩

/-- The thread has put down the client, and its `auth_client` is freed. -/
theorem putDown_represents (h : Represents st b nodesOf) (hb : Placed b) {auth node client : ℕ}
    (hhand : st.hand auth = some node) (hclient : st.nodes.objects node = some client) :
    Represents { st with nodes := st.nodes.free node, hand := update st.hand auth none }
      { b with hand := update b.hand auth none } nodesOf := by
  have hsingle {first second found : ℕ} (hfirst : b.Holds first found) (hsecond : b.Holds second found) :
      first = second := hb.single hfirst hsecond
  have hbhand : b.hand auth = some client := by
    obtain ⟨found, hfound, hb'⟩ := h.hand auth node hhand
    rw [hclient, Option.some.injEq] at hfound
    rw [hb', hfound]
  have hapart (other : ℕ) : node ∉ nodesOf other := by
    intro hmem
    have hsame := place_unique h hsingle (Or.inr hhand) (Or.inl hmem)
    obtain ⟨found, hfound, hqueue⟩ := mem_clients h hmem
    rw [hclient, Option.some.injEq] at hfound
    rw [← hsame, ← hfound] at hqueue
    exact hb.apart auth client hbhand hqueue
  refine ⟨h.sessions, h.queue, fun other ↦ ?_, h.count, fun other hnone ↦ ?_, fun other found hfound ↦ ?_,
    fun found owner hfound ↦ ?_⟩
  · rw [← h.clients other]
    apply List.map_congr_left
    intro found hfound
    apply Heap.objects_free_of_ne
    rintro rfl
    exact hapart other hfound
  · change update st.hand auth none other = none at hnone
    change update b.hand auth none other = none
    by_cases hother : other = auth
    · rw [hother, update_self]
    · rw [update_of_ne hother] at hnone ⊢
      exact h.idle other hnone
  · change update st.hand auth none other = some found at hfound
    change ∃ owner, (st.nodes.free node).objects found = some owner ∧
      update b.hand auth none other = some owner
    by_cases hother : other = auth
    · rw [hother, update_self] at hfound
      cases hfound
    · rw [update_of_ne hother] at hfound ⊢
      have hne : found ≠ node := by
        rintro rfl
        exact hother (place_unique h hsingle (Or.inr hfound) (Or.inr hhand))
      rw [Heap.objects_free_of_ne _ hne]
      exact h.hand other found hfound
  · change (st.nodes.free node).objects found = some owner at hfound
    have hne : found ≠ node := by
      rintro rfl
      rw [Heap.objects_free_self] at hfound
      cases hfound
    rw [Heap.objects_free_of_ne _ hne] at hfound
    obtain ⟨other, hplace⟩ := h.live found owner hfound
    refine ⟨other, hplace.imp_right fun hheld ↦ ?_⟩
    change update st.hand auth none other = some found
    rw [update_of_ne]
    · exact hheld
    · rintro rfl
      rw [hhand, Option.some.injEq] at hheld
      exact hne hheld.symm

/-- It makes no difference whether the client that was taken goes on before its `auth_client` is freed. -/
theorem goOn_putDown {auth node : ℕ} (hnode : node ≠ st.nodes.next) (client : ℕ) (input : Input) :
    { goOn client input st with
      nodes := (goOn client input st).nodes.free node
      hand := update (goOn client input st).hand auth none } =
    goOn client input { st with nodes := st.nodes.free node, hand := update st.hand auth none } := by
  rw [goOn, goOn]
  dsimp only
  cases st.sessions[client]? with
  | none => rfl
  | some session =>
    dsimp only
    cases waitsFor (proceed session input) with
    | none => rfl
    | some other =>
      rw [queueWaiting, queueWaiting, queueAuthClient, queueAuthClient]
      dsimp only
      rw [Heap.free_alloc _ hnode, Heap.free_next]

theorem handleTaken_represents (h : Represents st b nodesOf) (hb : Placed b) (auth : ℕ) (env : Env)
    (ret : AuthResult) : ∃ nodesOf',
    Represents (handleTaken auth env ret st)
      (Workers.step waitsFor proceed b (.finish auth (.processed env ret))) nodesOf' := by
  rw [handleTaken, Workers.step]
  cases hhand : st.hand auth with
  | none =>
    rw [h.idle auth hhand]
    exact ⟨nodesOf, h⟩
  | some node =>
    obtain ⟨client, hclient, hbhand⟩ := h.hand auth node hhand
    have hnode : node ≠ st.nodes.next := Heap.ne_next_of_isSome (Option.isSome_of_eq_some hclient)
    have hdown := putDown_represents h hb hhand hclient
    have hloose := Workers.Invariant.putDown hb hbhand
    rw [hbhand]
    dsimp only
    rw [hclient]
    dsimp only
    rw [goOn_putDown hnode]
    exact goOn_represents hdown (fun hfirst hsecond ↦ hloose.single hfirst hsecond) client
      (.processed env ret)

/-- What an event is for the abstract machine. -/
def action : Event → Workers.Action ℕ Session Input
  | .arrive request env => .submit (newSession request env)
  | .release client releaseClient => .resume client (.released releaseClient)
  | .take auth => .take auth
  | .handle auth env ret => .finish auth (.processed env ret)

theorem step_represents (h : Represents st b nodesOf) (hb : Placed b) (event : Event) : ∃ nodesOf',
    Represents (step st event) (Workers.step waitsFor proceed b (action event)) nodesOf' := by
  have hsingle {first second found : ℕ} (hfirst : b.Holds first found) (hsecond : b.Holds second found) :
      first = second := hb.single hfirst hsecond
  cases event with
  | arrive request env =>
    rw [step, action, Workers.step, h.sessions]
    have hset : Represents { st with sessions := b.tasks ++ [newSession request env] } { b with
        starts := b.starts ++ [newSession request env]
        tasks := b.tasks ++ [newSession request env] } nodesOf :=
      ⟨rfl, h.queue, h.clients, h.count, h.idle, h.hand, h.live⟩
    cases waitsFor (newSession request env) with
    | none => exact ⟨nodesOf, hset⟩
    | some auth => exact ⟨_, queueAuthClient_represents hset hsingle _ auth⟩
  | release client releaseClient =>
    rw [step, action, Workers.step, h.sessions]
    split
    · exact goOn_represents h hsingle client (.released releaseClient)
    · exact ⟨nodesOf, h⟩
  | take auth => exact authRunThread_represents h hb auth
  | handle auth env ret => exact handleTaken_represents h hb auth env ret

theorem represents_empty : Represents empty Workers.State.empty fun _ ↦ [] := by
  refine ⟨rfl, fun auth ↦ ⟨trivial, rfl, rfl⟩, fun auth ↦ rfl, fun auth ↦ rfl, fun auth _ ↦ rfl, ?_, ?_⟩
  · rintro auth node ⟨⟩
  · rintro node client ⟨⟩

/-- Event by event. -/
theorem run_represents (events : List Event) : ∃ nodesOf, Represents (run step empty events)
    (run (Workers.step waitsFor proceed) Workers.State.empty (events.map action)) nodesOf := by
  induction events using List.reverseRecOn with
  | nil => exact ⟨_, represents_empty⟩
  | append_singleton events event ih =>
    obtain ⟨nodesOf, h⟩ := ih
    rw [List.map_append, run_append, run_append]
    exact step_represents h (Workers.invariant_run waitsFor proceed (events.map action)) event

end Steps

/-! ## One client -/

section Client

variable {config : Config} {request : Request}

def Input.isTurn : Input → Bool
  | .processed _ _ => true
  | .released _ => false

/-- A thread has a client that waits for its authenticator, and asks with this configuration; a client that
waits is not released. -/
def Input.Fits (config : Config) (session : Session) : Input → Prop
  | .processed env _ => env.config = config ∧ (waitsFor session).isSome
  | .released _ => waitsFor session = none

/-- How far a client has come when its request is answered: `used` turns of the threads have been spent on
it, one of them perhaps to release it. -/
structure Counted (config : Config) (request : Request) (used : ℕ) (session : Session) : Prop where
  task : TaskInv config request (stackTotal config request - used) [] false session.task
  used : used ≤ stackTotal config request + session.left.toNat
  left : session.left = true → waitsFor session = none ∧ session.task.client.auth = none

theorem waitsFor_of_none {session : Session} (h : session.task.waiting = none) :
    waitsFor session = session.leaving.map Authenticator.id := by
  rw [waitsFor, h]

theorem waitsFor_eq_none {session : Session} (h : waitsFor session = none) :
    session.task.waiting = none ∧ session.leaving = none := by
  rw [waitsFor] at h
  cases hwaiting : session.task.waiting with
  | some found =>
    rw [hwaiting] at h
    cases h
  | none =>
    rw [hwaiting] at h
    exact ⟨rfl, Option.map_eq_none_iff.mp h⟩

/-- A client that does not wait has its outcome, whatever becomes of its client structure. -/
theorem taskInv_client {left : ℕ} {task : Task} (h : TaskInv config request left [] false task)
    (hwaiting : task.waiting = none) (client : Client) :
    TaskInv config request left [] false { task with client := client } := by
  rcases h with ⟨auth, callback, rest, hsome, -⟩ | hdone
  · rw [hwaiting] at hsome
    cases hsome
  · exact Or.inr ⟨hdone.waiting, hdone.answered, hdone.unanswered⟩

/-- A client that is through needs no more turns. -/
theorem taskInv_done {left : ℕ} {task : Task} (h : TaskInv config request left [] false task)
    (hwaiting : task.waiting = none) (left' : ℕ) : TaskInv config request left' [] false task := by
  rcases h with ⟨auth, callback, rest, hsome, -⟩ | hdone
  · rw [hwaiting] at hsome
    cases hsome
  · exact Or.inr hdone

theorem authRemoveClient_left (auth : Authenticator) (ret : AuthResult) {session : Session}
    (hwaiting : session.task.waiting = none) : waitsFor (authRemoveClient auth ret session) = none ∧
      (authRemoveClient auth ret session).task.client.auth = none := by
  refine ⟨?_, ?_⟩
  · have hsame : (authRemoveClient auth ret session).task.waiting = none := hwaiting
    exact waitsFor_of_none hsame
  · unfold authRemoveClient
    dsimp only
    split
    · rfl
    · rfl

theorem authReleaseClient_counted {used : ℕ} {session : Session} (h : Counted config request used session)
    (hfree : waitsFor session = none) (releaseClient : Option AuthResult) :
    Counted config request used (authReleaseClient releaseClient session) := by
  obtain ⟨hwaiting, hleaving⟩ := waitsFor_eq_none hfree
  have hdropped : Counted config request used
      { session with task := { session.task with client := withoutAuth session.task.client } } := by
    refine ⟨taskInv_client h.task hwaiting _, h.used, fun _ ↦ ⟨?_, rfl⟩⟩
    exact hfree
  unfold authReleaseClient
  dsimp only
  split
  · exact h
  · cases hauth : session.task.client.auth with
    | none => exact hdropped
    | some auth =>
      have hleft : session.left = false := by
        by_contra hleft
        have hnone := (h.left (eq_true_of_ne_false hleft)).2
        rw [hauth] at hnone
        cases hnone
      cases releaseClient with
      | none => exact hdropped
      | some ret =>
        dsimp only
        split
        · refine ⟨taskInv_client h.task hwaiting _, ?_, fun _ ↦ authRemoveClient_left auth ret hwaiting⟩
          exact h.used.trans (Nat.add_le_add_left (by rw [hleft]; exact Nat.zero_le 1) _)
        · exact ⟨h.task, h.used, fun hleft' ↦ absurd hleft' (by rw [hleft]; exact Bool.false_ne_true)⟩

theorem proceed_counted (hanswered : Answered config request) {used : ℕ} {session : Session} {input : Input}
    (h : Counted config request used session) (hfits : input.Fits config session) :
    Counted config request (used + if input.isTurn then 1 else 0) (proceed session input) := by
  cases input with
  | released releaseClient => exact authReleaseClient_counted h hfits releaseClient
  | processed env ret =>
    obtain ⟨hconfig, hsome⟩ := hfits
    have henv : env = ⟨config, env.pending⟩ := congrArg (Env.mk · env.pending) hconfig
    have hleft : session.left = false := by
      by_contra hleft
      rw [(h.left (eq_true_of_ne_false hleft)).1] at hsome
      cases hsome
    change Counted config request (used + 1) _
    rw [proceed]
    cases hwaiting : session.task.waiting with
    | some found =>
      have hless : used < stackTotal config request := by
        rcases h.task with ⟨auth, callback, rest, -, -, -, -, -, -, -, -, hless⟩ | hdone
        · omega
        · rw [hdone.waiting] at hwaiting
          cases hwaiting
      rw [if_pos Option.isSome_some]
      refine ⟨?_, Nat.le_add_right_of_le hless, fun hleft' ↦ absurd hleft' ?_⟩
      · have hbefore := h.task.of_answered hanswered [env.pending] false
        rw [henv]
        exact process_taskInv (hbefore.mono (by omega))
      · rw [hleft]
        exact Bool.false_ne_true
    | none =>
      rw [Option.isSome_none, if_neg Bool.false_ne_true]
      cases hleaving : session.leaving with
      | none =>
        rw [waitsFor_of_none hwaiting, hleaving] at hsome
        cases hsome
      | some auth =>
        have hused := h.used
        rw [hleft] at hused
        refine ⟨?_, Nat.add_le_add_right hused 1, fun _ ↦ authRemoveClient_left auth ret hwaiting⟩
        exact taskInv_client (taskInv_done h.task hwaiting _) hwaiting _

theorem run_counted (hanswered : Answered config request) (inputs : List Input) {used : ℕ}
    {session : Session} (h : Counted config request used session)
    (hfits : Guarded proceed (fun session input ↦ input.Fits config session) session inputs) :
    Counted config request (used + inputs.countP Input.isTurn) (run proceed session inputs) := by
  induction inputs generalizing session used with
  | nil => exact h
  | cons input inputs ih =>
    have hnext := ih (proceed_counted hanswered h hfits.1) hfits.2
    rw [List.countP_cons, Nat.add_comm (List.countP _ _), ← Nat.add_assoc]
    exact hnext

/-- Requests are authenticated with this configuration. -/
def Event.Uses (config : Config) : Event → Prop
  | .arrive _ env => env.config = config
  | .handle _ env _ => env.config = config
  | _ => True

/-- The clients are numbered in the order of their arrival. -/
def Event.arrival : Event → Option (Request × Env)
  | .arrive request env => some (request, env)
  | _ => none

theorem submitted_action (events : List Event) : (events.map action).filterMap Workers.Action.submitted =
    (events.filterMap Event.arrival).map fun arrival ↦ newSession arrival.1 arrival.2 := by
  induction events with
  | nil => rfl
  | cons event events ih =>
    cases event with
    | arrive request env =>
      exact congrArg (newSession request env :: ·) ih
    | release client releaseClient => exact ih
    | take auth => exact ih
    | handle auth env ret => exact ih

/-- In terms of nodes: a node of the client is in the queue of the authenticator, or its thread has it. -/
def Stands (st : State) (nodesOf : ℕ → List ℕ) (auth client : ℕ) : Prop :=
  ∃ node, st.nodes.objects node = some client ∧ (node ∈ nodesOf auth ∨ st.hand auth = some node)

theorem exists_node {st : State} {b : Abstract} {nodesOf : ℕ → List ℕ} (h : Represents st b nodesOf)
    {auth client : ℕ} (hclient : client ∈ b.queue auth) :
    ∃ node, st.nodes.objects node = some client ∧ node ∈ nodesOf auth := by
  have hmem : some client ∈ (nodesOf auth).map st.nodes.objects :=
    h.clients auth ▸ List.mem_map_of_mem hclient
  obtain ⟨node, hnode, hobject⟩ := List.mem_map.mp hmem
  exact ⟨node, hobject, hnode⟩

theorem stands_iff {st : State} {b : Abstract} {nodesOf : ℕ → List ℕ} (h : Represents st b nodesOf)
    (auth client : ℕ) : Stands st nodesOf auth client ↔ b.Holds auth client := by
  constructor
  · rintro ⟨node, hnode, hplace⟩
    obtain ⟨found, hfound, hholds⟩ := holds_client h hplace
    rw [hnode, Option.some.injEq] at hfound
    rwa [hfound]
  · rintro (hmem | hhand)
    · obtain ⟨node, hnode, hplace⟩ := exists_node h hmem
      exact ⟨node, hnode, Or.inl hplace⟩
    · cases hst : st.hand auth with
      | none =>
        rw [h.idle auth hst] at hhand
        cases hhand
      | some node =>
        obtain ⟨found, hfound, hb⟩ := h.hand auth node hst
        rw [hhand, Option.some.injEq] at hb
        exact ⟨node, hb ▸ hfound, Or.inr hst⟩

/-- A client has one `auth_client` at a time. -/
theorem node_unique {st : State} {b : Abstract} {nodesOf : ℕ → List ℕ} (h : Represents st b nodesOf)
    (hb : Placed b) {client first second : ℕ} (hfirst : st.nodes.objects first = some client)
    (hsecond : st.nodes.objects second = some client) : first = second := by
  obtain ⟨auth, hplace⟩ := h.live first client hfirst
  obtain ⟨other, hplace'⟩ := h.live second client hsecond
  have hholds : b.Holds auth client := (stands_iff h auth client).mp ⟨first, hfirst, hplace⟩
  have hsame : auth = other := hb.single hholds ((stands_iff h other client).mp ⟨second, hsecond, hplace'⟩)
  rw [← hsame] at hplace'
  have hapart {node third : ℕ} (hnode : st.nodes.objects node = some client)
      (hthird : st.nodes.objects third = some client) (hmem : node ∈ nodesOf auth)
      (hhand : st.hand auth = some third) : False := by
    obtain ⟨found, hfound, hqueue⟩ := mem_clients h hmem
    obtain ⟨held, hheld, hbhand⟩ := h.hand auth third hhand
    rw [hnode, Option.some.injEq] at hfound
    rw [hthird, Option.some.injEq] at hheld
    rw [← hfound] at hqueue
    rw [← hheld] at hbhand
    exact hb.apart auth client hbhand hqueue
  rcases hplace with hmem | hhand
  · rcases hplace' with hmem' | hhand'
    · have hnodup : ((nodesOf auth).map st.nodes.objects).Nodup := by
        rw [h.clients]
        exact (List.nodup_map_iff (Option.some_injective ℕ)).mpr (hb.nodup auth)
      exact List.inj_on_of_nodup_map hnodup hmem hmem' (hfirst.trans hsecond.symm)
    · exact (hapart hfirst hsecond hmem hhand').elim
  · rcases hplace' with hmem' | hhand'
    · exact (hapart hsecond hfirst hmem' hhand).elim
    · rw [hhand, Option.some.injEq] at hhand'
      exact hhand'

/-! ## Runs -/

/-- The run of the abstract machine. -/
def abstractRun (events : List Event) : Abstract :=
  run (Workers.step waitsFor proceed) Workers.State.empty (events.map action)

/-- Whatever clients arrive and leave and in whatever order the threads go on: the queue of each
authenticator is linked as its pointers say and as long as its count; a client stands with the authenticator
it waits for, in its queue or in the hands of its thread, and nowhere else, by one `auth_client`; and the
clients are taken from each queue in the order in which they were put into it, each of them once. -/
theorem waiting_once (events : List Event) : ∃ st nodesOf, run step empty events = st ∧
    (∀ auth, Queue st.link (st.tailp auth) auth (nodesOf auth) ∧
      st.pendingCount auth = (nodesOf auth).length) ∧
    (∀ client auth, (st.sessions[client]?).bind waitsFor = some auth ↔ Stands st nodesOf auth client) ∧
    (∀ first second client, st.nodes.objects first = some client → st.nodes.objects second = some client →
      first = second) ∧
    (∀ auth node, st.hand auth = some node → node ∉ nodesOf auth) ∧
    ∀ auth, (Workers.of auth (abstractRun events).queued).map some =
      (Workers.of auth (abstractRun events).taken).map some ++ (nodesOf auth).map st.nodes.objects := by
  obtain ⟨nodesOf, h⟩ := run_represents events
  have hb : Placed (abstractRun events) := Workers.invariant_run waitsFor proceed (events.map action)
  refine ⟨_, nodesOf, rfl, fun auth ↦ ⟨h.queue auth, h.count auth⟩, fun client auth ↦ ?_,
    fun first second client hfirst hsecond ↦ node_unique h hb hfirst hsecond, fun auth node hhand hmem ↦ ?_,
    fun auth ↦ ?_⟩
  · rw [h.sessions, stands_iff h]
    exact (hb.placed client auth).symm
  · obtain ⟨client, hclient, hbhand⟩ := h.hand auth node hhand
    obtain ⟨found, hfound, hqueue⟩ := mem_clients h hmem
    rw [hclient, Option.some.injEq] at hfound
    exact hb.apart auth client hbhand (hfound ▸ hqueue)
  · rw [h.clients, ← List.map_append]
    exact congrArg (List.map some) (hb.fifo auth)

/-- With a global `<authentication>` section, a client either has had exactly one outcome, and stands at most
with the authenticator that is to be told of its leaving, or it has had none and stands with the
authenticator that it waits for. It comes before the threads less often than there are authenticators on its
stacks while it waits, at most as often when it has its outcome, and once more to be released. -/
theorem clients_answered (hglobal : config.authstack ≠ []) {events : List Event}
    (huses : ∀ event ∈ events, event.Uses config) : ∃ st nodesOf, run step empty events = st ∧
    (∀ auth, Queue st.link (st.tailp auth) auth (nodesOf auth)) ∧
    ∀ client request env, (events.filterMap Event.arrival)[client]? = some (request, env) →
      ∃ session, st.sessions[client]? = some session ∧
        (session.task.waiting = none ∧ session.task.outcomes.length = 1 ∧
          (∀ auth, Stands st nodesOf auth client ↔ session.leaving.map Authenticator.id = some auth) ∧
          ((abstractRun events).inputsOf client).countP Input.isTurn ≤
            stackTotal config request + session.left.toNat ∨
        ∃ auth callback, session.task.waiting = some (auth, callback) ∧ session.task.outcomes = [] ∧
          Stands st nodesOf auth.id client ∧
          ((abstractRun events).inputsOf client).countP Input.isTurn < stackTotal config request) := by
  obtain ⟨nodesOf, h⟩ := run_represents events
  have hb : Placed (abstractRun events) := Workers.invariant_run waitsFor proceed (events.map action)
  have hstarts : (abstractRun events).starts =
      (events.filterMap Event.arrival).map fun arrival ↦ newSession arrival.1 arrival.2 :=
    (Workers.starts_run waitsFor proceed (events.map action)).trans (submitted_action events)
  have htold : Workers.Told proceed (fun session input ↦ input.Fits config session)
      (abstractRun events) := by
    apply Workers.told_run
    intro found hfound
    obtain ⟨event, hevent, rfl⟩ := List.mem_map.mp hfound
    have hconfig := huses event hevent
    cases event with
    | arrive request env => trivial
    | release client releaseClient => exact fun session hfree ↦ hfree
    | take auth => trivial
    | handle auth env ret => exact fun session hwaits ↦ ⟨hconfig, Option.isSome_of_eq_some hwaits⟩
  refine ⟨_, nodesOf, rfl, h.queue, fun client request env harrival ↦ ?_⟩
  have hplaced := hb.placed client
  have hruns := hb.runs client
  have hstart : (abstractRun events).starts[client]? = some (newSession request env) := by
    rw [hstarts, List.getElem?_map, harrival]
    rfl
  have hanswered : Answered config request := Or.inl hglobal
  have hconfig : env.config = config := by
    obtain ⟨event, hevent, hsame⟩ := List.mem_filterMap.mp (List.mem_of_getElem? harrival)
    cases event with
    | arrive request' env' =>
      have hboth := Prod.mk.inj (Option.some.inj hsame)
      rw [← hboth.2]
      exact huses _ hevent
    | release client releaseClient => cases hsame
    | take auth => cases hsame
    | handle auth env ret => cases hsame
  have hfirst : Counted config request 0 (newSession request env) := by
    refine ⟨?_, Nat.zero_le _, fun hleft ↦ absurd hleft Bool.false_ne_true⟩
    have hrequest := runRequest_taskInv config request env.pending []
    have henv : env = ⟨config, env.pending⟩ := congrArg (Env.mk · env.pending) hconfig
    rw [newSession, henv]
    exact hrequest.of_answered hanswered [] false
  have hcounted := run_counted hanswered _ hfirst (htold client _ hstart)
  rw [Nat.zero_add] at hcounted
  rw [hstart, Option.map_some] at hruns
  rw [hruns] at hplaced
  refine ⟨_, (congrArg (·[client]?) h.sessions).trans hruns, ?_⟩
  rcases hcounted.task with ⟨auth, callback, rest, hwaiting, houtcomes, -, -, -, -, -, -, hless⟩ | hdone
  · refine Or.inr ⟨auth, callback, hwaiting, houtcomes, ?_, by omega⟩
    apply (stands_iff h auth.id client).mpr
    apply (hplaced auth.id).mpr
    rw [Option.bind_some, waitsFor, hwaiting]
  · refine Or.inl ⟨hdone.waiting, hdone.answered hanswered, fun auth ↦ ?_, hcounted.used⟩
    refine ((stands_iff h auth client).trans (hplaced auth)).trans ?_
    rw [Option.bind_some, waitsFor_of_none hdone.waiting]

end Client

/-! ### Two clients -/

/-- The first of two clients has come before the thread of an authenticator that knows nobody. -/
def twoClients : List Event :=
  [.arrive exampleRequest exampleEnv, .arrive exampleRequest exampleEnv, .take 0,
    .handle 0 exampleEnv .released]

theorem two_clients_answered : ∃ st nodesOf, run step empty twoClients = st ∧
    (∃ session, st.sessions[0]? = some session ∧ session.task.outcomes.length = 1) ∧
      ∃ auth, Stands st nodesOf auth 1 := by
  have hglobal : exampleEnv.config.authstack ≠ [] := by simp [exampleEnv, exampleStack]
  have huses : ∀ event ∈ twoClients, event.Uses exampleEnv.config := by
    simp [twoClients, Event.Uses]
  obtain ⟨st, nodesOf, hrun, -, hclients⟩ := clients_answered hglobal huses
  have hfirst : (st.sessions[0]?.map fun session ↦ session.task.waiting.isSome) = some false := by
    rw [← hrun]
    decide +kernel
  have hsecond : (st.sessions[1]?.map fun session ↦ session.task.waiting.isSome) = some true := by
    rw [← hrun]
    decide +kernel
  obtain ⟨session, hsession, hcase⟩ := hclients 0 exampleRequest exampleEnv rfl
  obtain ⟨other, hother, hcase'⟩ := hclients 1 exampleRequest exampleEnv rfl
  rw [hsession, Option.map_some, Option.some.injEq] at hfirst
  rw [hother, Option.map_some, Option.some.injEq] at hsecond
  refine ⟨st, nodesOf, hrun, ⟨session, hsession, ?_⟩, ?_⟩
  · rcases hcase with ⟨-, houtcomes, -⟩ | ⟨auth, callback, hsome, -⟩
    · exact houtcomes
    · rw [hsome] at hfirst
      cases hfirst
  · rcases hcase' with ⟨hnone, -⟩ | ⟨auth, callback, -, -, hstands, -⟩
    · rw [hnone] at hsecond
      cases hsecond
    · exact ⟨auth.id, hstands⟩

end Icecast.Auth.Threads
