import Icecast.Client.Lifecycle
import Mathlib.Logic.Relation

/-!
# Clients are counted, and freed unless their authenticator has a release hook

Everything the code does to the state is one of six effects. Along all of them `global.clients` is
the number of live clients, what has been freed stays so, and a client that has been destroyed but
not freed stays like that: nothing frees it later.
-/

namespace Icecast.Client

open Lib Lib.Machine

/-- `client_destroy` leaves the client to its authenticator. -/
def ClientState.hasReleaseHook (client : ClientState) : Bool :=
  client.acl.isSome && client.auth.any (·.releaseClient.isSome)

/-- A change of a client that keeps its connection, and a destroyed client destroyed. -/
def Keeps (f : ClientState → ClientState) : Prop :=
  ∀ client, (f client).con = client.con ∧ (client.destroyed = true → (f client).destroyed = true)

def conOf (clients : Heap ClientState) (id : ℕ) : Option ℕ := (clients.objects id).map ClientState.con

/-- A live connection that no client has. -/
structure Unclaimed (s : State) (con : ℕ) : Prop where
  live : (s.connections.objects con).isSome
  not_conOf : ∀ id, conOf s.clients id ≠ some con

/-- What the operations are made of. -/
inductive Effect (s : State) : State → Prop where
  | keep (id : ℕ) (f : ClientState → ClientState) (hf : Keeps f) :
      Effect s { s with clients := s.clients.modify id f }
  | queue (releaseQueue : List (Authenticator × ℕ)) : Effect s { s with releaseQueue }
  | free (id : ℕ) (client : ClientState) (hclient : s.clients.objects id = some client)
      (howned : client.destroyed = false) : Effect s (clientFree id client.con s)
  | connect (connection : Connection) :
      Effect s { s with connections := s.connections.alloc connection }
  | change (con : ℕ) (f : Connection → Connection) :
      Effect s { s with connections := s.connections.modify con f }
  | create (clientLimit : ℤ) (con : ℕ) (hcon : Unclaimed s con) :
      Effect s (clientCreate clientLimit con s).2.2

abbrev Effects : State → State → Prop := Relation.ReflTransGen Effect

variable {s s' : State} {id con : ℕ} {client : ClientState}

/-! ## What the effects keep -/

@[simp] theorem connectionClose_clients : (connectionClose con s).clients = s.clients := by
  unfold connectionClose
  split <;> rfl

@[simp] theorem connectionClose_globalClients :
    (connectionClose con s).globalClients = s.globalClients := by
  unfold connectionClose
  split <;> rfl

@[simp] theorem connectionClose_decrements : (connectionClose con s).decrements = s.decrements := by
  unfold connectionClose
  split <;> rfl

theorem connectionClose_objects_self : (connectionClose con s).connections.objects con = none := by
  unfold connectionClose
  split
  · assumption
  · exact s.connections.objects_free_self

theorem connectionClose_objects_of_ne {other : ℕ} (h : other ≠ con) :
    (connectionClose con s).connections.objects other = s.connections.objects other := by
  unfold connectionClose
  split
  · rfl
  · exact s.connections.objects_free_of_ne h

theorem connectionClose_freed {other : ℕ} (h : s.connections.Freed other) :
    (connectionClose con s).connections.Freed other := by
  unfold connectionClose
  split
  · exact h
  · exact h.free con

theorem connectionClose_next (con : ℕ) :
    (connectionClose con s).connections.next = s.connections.next := by
  unfold connectionClose
  split <;> rfl

theorem conOf_modify {clients : Heap ClientState} {f : ClientState → ClientState} (hf : Keeps f)
    (id other : ℕ) : conOf (clients.modify id f) other = conOf clients other := by
  unfold conOf
  by_cases hother : other = id
  · rw [hother, Heap.objects_modify_self, Option.map_map]
    congr 1
    funext client
    exact (hf client).1
  · rw [Heap.objects_modify_of_ne clients f hother]

theorem conOf_free_of_ne {clients : Heap ClientState} {other : ℕ} (h : other ≠ id) :
    conOf (clients.free id) other = conOf clients other := by
  rw [conOf, clients.objects_free_of_ne h, conOf]

theorem conOf_free_self {clients : Heap ClientState} : conOf (clients.free id) id = none := by
  rw [conOf, clients.objects_free_self, Option.map_none]

theorem conOf_alloc_of_ne {clients : Heap ClientState} {other : ℕ} (h : other ≠ clients.next) :
    conOf (clients.alloc client) other = conOf clients other := by
  rw [conOf, clients.objects_alloc_of_ne client h, conOf]

/-- A client that has been destroyed and not been freed. -/
def Leaked (s : State) (id : ℕ) : Prop :=
  ∃ client, s.clients.objects id = some client ∧ client.destroyed = true

theorem Effect.leaked (h : Effect s s') (hleaked : Leaked s id) : Leaked s' id := by
  obtain ⟨client, hclient, hdestroyed⟩ := hleaked
  cases h with
  | queue releaseQueue => exact ⟨client, hclient, hdestroyed⟩
  | keep other f hf =>
    by_cases hid : id = other
    · rw [← hid]
      exact ⟨f client, by simp [hclient], (hf client).2 hdestroyed⟩
    · exact ⟨client, (s.clients.objects_modify_of_ne f hid).trans hclient, hdestroyed⟩
  | free other owned hother howned =>
    have hid : id ≠ other := by
      intro hid
      rw [hid, hother] at hclient
      rw [← Option.some.inj hclient, howned] at hdestroyed
      exact Bool.false_ne_true hdestroyed
    refine ⟨client, ?_, hdestroyed⟩
    simp only [clientFree, connectionClose_clients]
    rw [s.clients.objects_free_of_ne hid, hclient]
  | connect connection => exact ⟨client, hclient, hdestroyed⟩
  | change con f => exact ⟨client, hclient, hdestroyed⟩
  | create clientLimit con hcon =>
    have hid := Nat.ne_of_lt (Heap.lt_next_of_objects hclient)
    exact ⟨client, (s.clients.objects_alloc_of_ne _ hid).trans hclient, hdestroyed⟩

theorem Effect.freed (h : Effect s s') (hfreed : s.clients.Freed id) : s'.clients.Freed id := by
  cases h with
  | queue releaseQueue => exact hfreed
  | keep other f hf => exact hfreed.modify other f
  | free other owned hother howned =>
    simp only [clientFree, connectionClose_clients]
    exact hfreed.free other
  | connect connection => exact hfreed
  | change con f => exact hfreed
  | create clientLimit con hcon => exact hfreed.alloc _

theorem Effect.closed (h : Effect s s') (hclosed : s.connections.Freed con) :
    s'.connections.Freed con := by
  cases h with
  | queue releaseQueue => exact hclosed
  | keep other f hf => exact hclosed
  | free other owned hother howned => exact connectionClose_freed hclosed
  | connect connection => exact hclosed.alloc connection
  | change con f => exact hclosed.modify con f
  | create clientLimit con hcon => exact hclosed

/-- A property that every effect keeps. -/
theorem Effects.keeps {P : State → Prop} (hP : ∀ s s', Effect s s' → P s → P s') (h : Effects s s')
    (hs : P s) : P s' := by
  induction h with
  | refl => exact hs
  | tail _ heffect ih => exact hP _ _ heffect ih

/-! ## The invariant -/

/-- Clients are counted, each has a connection of its own, and the counter has been decremented once
for each client that has been freed. -/
structure Inv (s : State) : Prop where
  count : s.globalClients = s.clients.size
  con_live : ∀ id con, conOf s.clients id = some con → (s.connections.objects con).isSome
  con_inj : ∀ id other con, conOf s.clients id = some con → conOf s.clients other = some con →
    id = other
  decremented : ∀ id, s.clients.Freed id → s.decrements.count id = 1
  not_decremented : ∀ id, ¬s.clients.Freed id → s.decrements.count id = 0

theorem inv_start : Inv start := by
  exact ⟨rfl, by simp [start, conOf, Heap.empty], by simp [start, conOf, Heap.empty],
    by simp [start, Heap.Freed, Heap.empty], by simp [start]⟩

theorem Inv.keep (inv : Inv s) {f : ClientState → ClientState} (hf : Keeps f) :
    Inv { s with clients := s.clients.modify id f } := by
  have hfreed : ∀ other, (s.clients.modify id f).Freed other ↔ s.clients.Freed other := by
    intro other
    have hlive := congrArg (other ∈ ·) (s.clients.live_modify id f)
    simp only [Heap.mem_live, eq_iff_iff] at hlive
    rw [Heap.Freed, Heap.Freed, ← Option.not_isSome_iff_eq_none, hlive,
      Option.not_isSome_iff_eq_none, Heap.modify_next]
  refine ⟨?_, ?_, ?_, ?_, ?_⟩
  · simpa using inv.count
  · simpa only [conOf_modify hf] using inv.con_live
  · simpa only [conOf_modify hf] using inv.con_inj
  · simpa only [hfreed] using inv.decremented
  · simpa only [hfreed] using inv.not_decremented

theorem Inv.free (inv : Inv s) (hclient : s.clients.objects id = some client) :
    Inv (clientFree id client.con s) := by
  have hcon : conOf s.clients id = some client.con := by rw [conOf, hclient, Option.map_some]
  have hsize := Heap.size_free hclient
  have hother : ∀ other con, conOf (s.clients.free id) other = some con →
      other ≠ id ∧ conOf s.clients other = some con := by
    intro other con h
    by_cases hid : other = id
    · rw [hid, conOf_free_self] at h
      exact absurd h (by simp)
    · rw [conOf_free_of_ne hid] at h
      exact ⟨hid, h⟩
  have hcount : ∀ other, other ≠ id →
      (s.decrements ++ [id]).count other = s.decrements.count other := by
    intro other hid
    simp [List.count_append, Ne.symm hid]
  refine ⟨?_, ?_, ?_, ?_, ?_⟩
  · simp only [clientFree, connectionClose_clients, connectionClose_globalClients, inv.count]
    omega
  · intro other con h
    simp only [clientFree, connectionClose_clients] at h ⊢
    obtain ⟨hid, h⟩ := hother other con h
    have hne : con ≠ client.con := by
      intro heq
      rw [heq] at h
      exact hid (inv.con_inj other id client.con h hcon)
    rw [connectionClose_objects_of_ne hne]
    exact inv.con_live other con h
  · intro first second con hfirst hsecond
    simp only [clientFree, connectionClose_clients] at hfirst hsecond
    exact inv.con_inj first second con (hother first con hfirst).2 (hother second con hsecond).2
  · intro other h
    simp only [clientFree, connectionClose_clients, connectionClose_decrements] at h ⊢
    by_cases hid : other = id
    · have hnot : ¬s.clients.Freed id := by simp [Heap.Freed, hclient]
      rw [hid, List.count_append, inv.not_decremented id hnot]
      simp
    · rw [hcount other hid]
      exact inv.decremented other ⟨h.1, (s.clients.objects_free_of_ne hid).symm.trans h.2⟩
  · intro other h
    simp only [clientFree, connectionClose_clients, connectionClose_decrements] at h ⊢
    have hid : other ≠ id := by
      intro hid
      rw [hid] at h
      exact h (Heap.freed_free (Heap.lt_next_of_objects hclient))
    rw [hcount other hid]
    exact inv.not_decremented other fun hfreed ↦ h (hfreed.free id)

theorem Inv.connections (inv : Inv s) {connections : Heap Connection}
    (hlive : ∀ con, (s.connections.objects con).isSome → (connections.objects con).isSome) :
    Inv { s with connections } :=
  ⟨inv.count, fun id con h ↦ hlive con (inv.con_live id con h), inv.con_inj, inv.decremented,
    inv.not_decremented⟩

theorem Inv.create (inv : Inv s) (hcon : Unclaimed s con) (clientLimit : ℤ) :
    Inv (clientCreate clientLimit con s).2.2 := by
  have hself : conOf (s.clients.alloc ⟨con, .close, none, none, false⟩) s.clients.next =
      some con := by
    rw [conOf, Heap.objects_alloc_self, Option.map_some]
  have hother : ∀ id con', conOf (s.clients.alloc ⟨con, .close, none, none, false⟩) id = some con' →
      (id = s.clients.next ∧ con' = con) ∨ conOf s.clients id = some con' := by
    intro id con' h
    by_cases hid : id = s.clients.next
    · rw [hid, hself] at h
      exact Or.inl ⟨hid, (Option.some.inj h).symm⟩
    · rw [conOf_alloc_of_ne hid] at h
      exact Or.inr h
  have hfreed : ∀ id, (s.clients.alloc ⟨con, .close, none, none, false⟩).Freed id →
      s.clients.Freed id := by
    intro id h
    have hid : id ≠ s.clients.next := by
      intro hid
      rw [hid, Heap.Freed, Heap.objects_alloc_self] at h
      exact Option.some_ne_none _ h.2
    have hlt : id < s.clients.next + 1 := h.1
    exact ⟨by omega, (s.clients.objects_alloc_of_ne _ hid).symm.trans h.2⟩
  refine ⟨?_, ?_, ?_, ?_, ?_⟩
  · have hsize := s.clients.size_alloc ⟨con, .close, none, none, false⟩
    simp only [clientCreate, inv.count, hsize]
    omega
  · intro id con' h
    rcases hother id con' h with ⟨-, hcon'⟩ | hold
    · rw [hcon']
      exact hcon.live
    · exact inv.con_live id con' hold
  · intro first second con' hfirst hsecond
    rcases hother first con' hfirst with ⟨hfirst, hcon'⟩ | hfirst <;>
      rcases hother second con' hsecond with ⟨hsecond, hcon''⟩ | hsecond
    · rw [hfirst, hsecond]
    · exact absurd (hcon' ▸ hsecond) (hcon.not_conOf second)
    · exact absurd (hcon'' ▸ hfirst) (hcon.not_conOf first)
    · exact inv.con_inj first second con' hfirst hsecond
  · exact fun id h ↦ inv.decremented id (hfreed id h)
  · exact fun id h ↦ inv.not_decremented id fun hold ↦ h (hold.alloc _)

theorem Effect.inv (h : Effect s s') (inv : Inv s) : Inv s' := by
  cases h with
  | keep id f hf => exact inv.keep hf
  | queue releaseQueue =>
    exact ⟨inv.count, inv.con_live, inv.con_inj, inv.decremented, inv.not_decremented⟩
  | free id client hclient howned => exact inv.free hclient
  | connect connection =>
    apply inv.connections
    intro con hcon
    rw [← Heap.mem_live, Heap.live_alloc]
    exact Finset.mem_insert_of_mem (Heap.mem_live.mpr hcon)
  | change con f =>
    apply inv.connections
    intro other hother
    rw [← Heap.mem_live, Heap.live_modify]
    exact Heap.mem_live.mpr hother
  | create clientLimit con hcon => exact inv.create hcon clientLimit

/-! ## The operations as effects -/

theorem Effect.toEffects (h : Effect s s') : Effects s s' := Relation.ReflTransGen.single h

theorem keeps_setAuth (acl : Option ℕ) (auth : Option Authenticator) :
    Keeps (ClientState.setAuth acl auth) :=
  fun _ ↦ ⟨rfl, fun h ↦ h⟩

theorem keeps_setReuse (reuse : Reuse) : Keeps (ClientState.setReuse reuse) :=
  fun _ ↦ ⟨rfl, fun h ↦ h⟩

theorem keeps_giveUp : Keeps ClientState.giveUp :=
  fun _ ↦ ⟨rfl, fun _ ↦ rfl⟩

theorem handleRelease_eq (auth : Authenticator) (id : ℕ) (s : State) :
    handleRelease auth id s = s ∨ ∃ acl,
      handleRelease auth id s =
        { s with clients := s.clients.modify id (ClientState.setAuth acl none) } := by
  unfold handleRelease
  split
  · exact Or.inl rfl
  · exact Or.inr ⟨_, rfl⟩

theorem handleRelease_effects (auth : Authenticator) (id : ℕ) (s : State) :
    Effects s (handleRelease auth id s) := by
  rcases handleRelease_eq auth id s with h | ⟨acl, h⟩
  · rw [h]
  · rw [h]
    exact (Effect.keep id _ (keeps_setAuth acl none)).toEffects

theorem queueAuthClient_effects (auth : Authenticator) (id : ℕ) (s : State) :
    Effects s (queueAuthClient auth id s) := by
  unfold queueAuthClient
  split
  · exact handleRelease_effects auth id s
  · exact (Effect.queue _).toEffects

theorem Unclaimed.modify (h : Unclaimed s con) (id : ℕ) {f : ClientState → ClientState} (hf : Keeps f) :
    Unclaimed { s with clients := s.clients.modify id f } con :=
  ⟨h.live, fun other ↦ by rw [conOf_modify hf]; exact h.not_conOf other⟩

theorem Unclaimed.queueAuthClient (h : Unclaimed s con) (auth : Authenticator) (id : ℕ) :
    Unclaimed (Client.queueAuthClient auth id s) con := by
  unfold Client.queueAuthClient
  split
  · rcases handleRelease_eq auth id s with heq | ⟨acl, heq⟩
    · rw [heq]
      exact h
    · rw [heq]
      exact h.modify id (keeps_setAuth acl none)
  · exact ⟨h.live, h.not_conOf⟩

theorem Unclaimed.clientFree (h : Unclaimed s con) (hclient : s.clients.objects id = some client) :
    Unclaimed (Client.clientFree id client.con s) con := by
  have hne : con ≠ client.con := by
    intro heq
    exact h.not_conOf id (by rw [conOf, hclient, Option.map_some, heq])
  constructor
  · simp only [Client.clientFree, connectionClose_objects_of_ne hne]
    exact h.live
  · intro other
    simp only [Client.clientFree, connectionClose_clients]
    by_cases hother : other = id
    · simp [hother, conOf_free_self]
    · rw [conOf_free_of_ne hother]
      exact h.not_conOf other

/-! ## Destruction -/

theorem destroyClosing_of_hook (hclient : s.clients.objects id = some client)
    (hhook : client.hasReleaseHook = true) :
    ∃ auth, destroyClosing id s =
      queueAuthClient auth id { s with clients := s.clients.modify id ClientState.giveUp } := by
  simp only [ClientState.hasReleaseHook, Bool.and_eq_true, Option.any_eq_true] at hhook
  obtain ⟨hacl, auth, hauth, hrelease⟩ := hhook
  exact ⟨auth, by simp [destroyClosing, hclient, authReleaseClient, hacl, hauth, hrelease]⟩

theorem clientFree_modify (s : State) (id con : ℕ) (f : ClientState → ClientState) :
    clientFree id con { s with clients := s.clients.modify id f } = clientFree id con s := by
  unfold clientFree connectionClose
  simp only
  split <;> simp only [Heap.free_modify]

theorem destroyClosing_of_no_hook (hclient : s.clients.objects id = some client)
    (hhook : client.hasReleaseHook = false) : destroyClosing id s = clientFree id client.con s := by
  have hgiven := clientFree_modify s id client.con ClientState.giveUp
  have hcleared :=
    (clientFree_modify { s with clients := s.clients.modify id ClientState.giveUp } id client.con
    (ClientState.setAuth none none)).trans hgiven
  unfold destroyClosing authReleaseClient
  simp only [hclient]
  by_cases hacl : client.acl.isSome = true
  · cases hauth : client.auth with
    | none => simpa [hacl] using hcleared
    | some auth =>
      have hrelease : auth.releaseClient.isSome = false := by
        simpa [ClientState.hasReleaseHook, hacl, hauth] using hhook
      simpa [hacl, hrelease] using hcleared
  · simpa [hacl] using hgiven

theorem destroyClosing_effects (hclient : s.clients.objects id = some client)
    (howned : client.destroyed = false) : Effects s (destroyClosing id s) := by
  cases hhook : client.hasReleaseHook with
  | true =>
    obtain ⟨auth, heq⟩ := destroyClosing_of_hook hclient hhook
    rw [heq]
    exact (Effect.keep id _ keeps_giveUp).toEffects.trans (queueAuthClient_effects auth id _)
  | false =>
    rw [destroyClosing_of_no_hook hclient hhook]
    exact (Effect.free id client hclient howned).toEffects

theorem Unclaimed.destroyClosing (h : Unclaimed s con)
    (hclient : s.clients.objects id = some client) :
    Unclaimed (Client.destroyClosing id s) con := by
  cases hhook : client.hasReleaseHook with
  | true =>
    obtain ⟨auth, heq⟩ := destroyClosing_of_hook hclient hhook
    rw [heq]
    exact (h.modify id keeps_giveUp).queueAuthClient auth id
  | false =>
    rw [destroyClosing_of_no_hook hclient hhook]
    exact h.clientFree hclient

theorem connectionQueue_effects (clientLimit : ℤ) (fails : Bool) (hcon : Unclaimed s con) :
    Effects s (connectionQueue clientLimit fails con s) := by
  have hcreate := (Effect.create clientLimit con hcon).toEffects
  unfold connectionQueue
  simp only
  split
  · exact hcreate
  · split
    · exact hcreate.trans (destroyClosing_effects (s.clients.objects_alloc_self _) rfl)
    · exact hcreate

/-- The state in which `client_reuseconnection` destroys the client. -/
def handOver (id : ℕ) (client : ClientState) (old : Connection) (s : State) : State :=
  { s with
    connections := (s.connections.alloc
      ⟨old.sock, old.serversock, old.ip, old.tls || client.reuse = .upgradetls⟩).modify client.con
        fun connection ↦ { connection with sock := none, tls := false }
    clients := s.clients.modify id (ClientState.setReuse .close) }

theorem handOver_effects (id : ℕ) (client : ClientState) (old : Connection) (s : State) :
    Effects s (handOver id client old s) := by
  have hconnect := (Effect.connect (s := s)
    ⟨old.sock, old.serversock, old.ip, old.tls || client.reuse = .upgradetls⟩).toEffects
  apply (hconnect.tail (Effect.change client.con
    fun connection ↦ { connection with sock := none, tls := false })).tail
  exact Effect.keep id _ (keeps_setReuse .close)

theorem handOver_unclaimed (inv : Inv s) (id : ℕ) (client : ClientState) (old : Connection) :
    Unclaimed (handOver id client old s) s.connections.next := by
  constructor
  · rw [← Heap.mem_live, handOver, Heap.live_modify, Heap.live_alloc]
    exact Finset.mem_insert_self _ _
  · intro other
    rw [handOver, conOf_modify (keeps_setReuse .close)]
    intro hcon
    exact Heap.ne_next_of_isSome (inv.con_live other _ hcon) rfl

theorem clientReuseconnection_eq {old : Connection} (clientLimit : ℤ) (fails : Bool)
    (hold : s.connections.objects client.con = some old) :
    clientReuseconnection clientLimit fails id client s =
      connectionQueue clientLimit fails s.connections.next
        (destroyClosing id (handOver id client old s)) := by
  simp only [clientReuseconnection, hold, handOver]

/-- The client that `client_reuseconnection` destroys. -/
theorem handOver_objects (hclient : s.clients.objects id = some client) (old : Connection) :
    (handOver id client old s).clients.objects id = some (client.setReuse .close) := by
  rw [handOver, Heap.objects_modify_self, hclient, Option.map_some]

/-- `client_destroy` ends the client in some state, perhaps hands its connection over before and
makes a new client after it. -/
theorem clientDestroy_cases (inv : Inv s) (clientLimit : ℤ) (fails : Bool)
    (hclient : s.clients.objects id = some client) :
    ∃ middle closing, Effects s middle ∧ middle.clients.objects id = some closing ∧
      closing.con = client.con ∧ closing.destroyed = client.destroyed ∧
      closing.hasReleaseHook = client.hasReleaseHook ∧
      (closing.destroyed = false →
        Effects (destroyClosing id middle) (clientDestroy clientLimit fails id s)) := by
  by_cases hreuse : client.reuse = .close
  · refine ⟨s, client, .refl, hclient, rfl, rfl, rfl, fun _ ↦ ?_⟩
    have heq : clientDestroy clientLimit fails id s = destroyClosing id s := by
      simp [clientDestroy, hclient, hreuse]
    rw [heq]
  · have hcon := inv.con_live id client.con (by rw [conOf, hclient, Option.map_some])
    obtain ⟨old, hold⟩ := Option.isSome_iff_exists.mp hcon
    refine ⟨handOver id client old s, client.setReuse .close, handOver_effects id client old s,
      handOver_objects hclient old, rfl, rfl, rfl, fun _ ↦ ?_⟩
    have heq : clientDestroy clientLimit fails id s =
        connectionQueue clientLimit fails s.connections.next
          (destroyClosing id (handOver id client old s)) := by
      simp only [clientDestroy, hclient, ne_eq, hreuse, not_false_eq_true, if_true,
        clientReuseconnection_eq clientLimit fails hold]
    rw [heq]
    apply connectionQueue_effects
    exact (handOver_unclaimed inv id client old).destroyClosing (handOver_objects hclient old)

theorem clientDestroy_effects (inv : Inv s) (clientLimit : ℤ) (fails : Bool)
    (hclient : s.clients.objects id = some client) (howned : client.destroyed = false) :
    Effects s (clientDestroy clientLimit fails id s) := by
  obtain ⟨middle, closing, hbefore, hclosing, -, hdestroyed, -, hafter⟩ :=
    clientDestroy_cases inv clientLimit fails hclient
  rw [howned] at hdestroyed
  exact (hbefore.trans (destroyClosing_effects hclosing hdestroyed)).trans (hafter hdestroyed)

/-- Without a release hook the client is freed and its connection closed by the call. -/
theorem clientDestroy_freed (inv : Inv s) (clientLimit : ℤ) (fails : Bool)
    (hclient : s.clients.objects id = some client) (howned : client.destroyed = false)
    (hhook : client.hasReleaseHook = false) :
    (clientDestroy clientLimit fails id s).clients.Freed id ∧
      (clientDestroy clientLimit fails id s).connections.Freed client.con := by
  obtain ⟨middle, closing, hbefore, hclosing, hcon, hdestroyed, hsame, hafter⟩ :=
    clientDestroy_cases inv clientLimit fails hclient
  rw [howned] at hdestroyed
  rw [hhook] at hsame
  have hmiddle : Inv middle := hbefore.keeps (fun _ _ heffect ↦ heffect.inv) inv
  have hlater := hafter hdestroyed
  rw [destroyClosing_of_no_hook hclosing hsame, hcon] at hlater
  constructor
  · apply hlater.keeps (fun _ _ heffect ↦ heffect.freed)
    simp only [clientFree, connectionClose_clients]
    exact Heap.freed_free (Heap.lt_next_of_objects hclosing)
  · apply hlater.keeps (fun _ _ heffect ↦ heffect.closed)
    have hlive := hmiddle.con_live id closing.con (by rw [conOf, hclosing, Option.map_some])
    obtain ⟨connection, hconnection⟩ := Option.isSome_iff_exists.mp hlive
    rw [hcon] at hconnection
    have hlt := Heap.lt_next_of_objects hconnection
    rw [← connectionClose_next client.con] at hlt
    exact ⟨hlt, connectionClose_objects_self⟩

/-- With one it stays, destroyed and not freed. -/
theorem clientDestroy_leaked (inv : Inv s) (clientLimit : ℤ) (fails : Bool)
    (hclient : s.clients.objects id = some client) (howned : client.destroyed = false)
    (hhook : client.hasReleaseHook = true) : Leaked (clientDestroy clientLimit fails id s) id := by
  obtain ⟨middle, closing, -, hclosing, -, hdestroyed, hsame, hafter⟩ :=
    clientDestroy_cases inv clientLimit fails hclient
  rw [howned] at hdestroyed
  rw [hhook] at hsame
  obtain ⟨auth, heq⟩ := destroyClosing_of_hook hclosing hsame
  have hlater := hafter hdestroyed
  rw [heq] at hlater
  apply Effects.keeps (fun _ _ heffect ↦ heffect.leaked)
    ((queueAuthClient_effects auth id _).trans hlater)
  exact ⟨closing.giveUp, by simp [hclosing], rfl⟩

/-! ## Runs -/

theorem owned_eq_true (h : owned s id = true) :
    ∃ client, s.clients.objects id = some client ∧ client.destroyed = false := by
  unfold owned at h
  cases hclient : s.clients.objects id with
  | none => simp [hclient] at h
  | some client => exact ⟨client, rfl, by simpa [hclient] using h⟩

theorem unclaimed_connect (inv : Inv s) (connection : Connection) :
    Unclaimed { s with connections := s.connections.alloc connection } s.connections.next := by
  constructor
  · simp
  · intro id hcon
    exact Heap.ne_next_of_isSome (inv.con_live id _ hcon) rfl

theorem step_effects (inv : Inv s) (event : Event) : Effects s (step s event) := by
  cases event with
  | accept connection clientLimit fails =>
    exact (Effect.connect connection).toEffects.trans
      (connectionQueue_effects clientLimit fails (unclaimed_connect inv connection))
  | create connection clientLimit =>
    exact (Effect.connect connection).toEffects.tail
      (Effect.create clientLimit _ (unclaimed_connect inv connection))
  | update id reuse acl auth =>
    simp only [step]
    split
    · exact (Effect.keep id (fun client ↦ (client.setAuth acl auth).setReuse reuse)
        fun _ ↦ ⟨rfl, fun h ↦ h⟩).toEffects
    · exact .refl
  | destroy id clientLimit fails =>
    simp only [step]
    split
    · rename_i howned
      obtain ⟨client, hclient, hdestroyed⟩ := owned_eq_true howned
      exact clientDestroy_effects inv clientLimit fails hclient hdestroyed
    · exact .refl
  | processRelease auth =>
    simp only [step, processRelease]
    split
    · exact .refl
    · exact (Effect.queue _).toEffects.trans (handleRelease_effects _ _ _)

theorem step_inv (s : State) (event : Event) (inv : Inv s) : Inv (step s event) :=
  (step_effects inv event).keeps (fun _ _ heffect ↦ heffect.inv) inv

theorem run_effects (events : List Event) (inv : Inv s) : Effects s (run step s events) := by
  induction events generalizing s with
  | nil => exact .refl
  | cons event events ih => exact (step_effects inv event).trans (ih (step_inv s event inv))

/-- The client has been freed and its connection closed, and `global.clients` has been decremented
for it once. -/
structure Gone (s : State) (id con : ℕ) : Prop where
  freed : s.clients.Freed id
  closed : s.connections.Freed con
  decremented : s.decrements.count id = 1

/-- What has become of a client after `client_destroy` was called for it, whether or not a release
request has been processed since. -/
theorem gone_iff_of_destroy (before after : List Event) (clientLimit : ℤ) (fails : Bool)
    (hclient : (run step start before).clients.objects id = some client)
    (howned : client.destroyed = false) :
    Gone (run step start (before ++ .destroy id clientLimit fails :: after)) id client.con ↔
      client.hasReleaseHook = false := by
  have hbefore : Inv (run step start before) := run_invariant step Inv step_inv before inv_start
  have hstep : step (run step start before) (.destroy id clientLimit fails) =
      clientDestroy clientLimit fails id (run step start before) := by
    simp [step, owned, hclient, howned]
  have hdestroyed : Inv (clientDestroy clientLimit fails id (run step start before)) :=
    hstep ▸ step_inv _ _ hbefore
  rw [run_append, run_cons, hstep]
  have inv := run_invariant step Inv step_inv after hdestroyed
  have hlater := run_effects after hdestroyed
  cases hhook : client.hasReleaseHook with
  | false =>
    obtain ⟨hfreed, hclosed⟩ := clientDestroy_freed hbefore clientLimit fails hclient howned hhook
    have hgone := hlater.keeps (fun _ _ heffect ↦ heffect.freed) hfreed
    exact ⟨fun _ ↦ rfl, fun _ ↦ ⟨hgone, hlater.keeps (fun _ _ heffect ↦ heffect.closed) hclosed,
      inv.decremented id hgone⟩⟩
  | true =>
    have hleaked := clientDestroy_leaked hbefore clientLimit fails hclient howned hhook
    obtain ⟨left, hleft, -⟩ := hlater.keeps (fun _ _ heffect ↦ heffect.leaked) hleaked
    constructor
    · intro hgone
      rw [hgone.freed.2] at hleft
      exact absurd hleft (by simp)
    · intro h
      exact absurd h (by decide)

/-- In every run `global.clients` is the number of live clients, and a client for which
`client_destroy` was called is gone just if it had no authenticator with a release hook then. -/
theorem client_lifecycle (events : List Event) :
    (run step start events).globalClients = (run step start events).clients.size ∧
    ∀ before id clientLimit fails after client,
      events = before ++ .destroy id clientLimit fails :: after →
      (run step start before).clients.objects id = some client → client.destroyed = false →
      (Gone (run step start events) id client.con ↔ client.hasReleaseHook = false) := by
  refine ⟨(run_invariant step Inv step_inv events inv_start).count, ?_⟩
  intro before id clientLimit fails after client hevents hclient howned
  rw [hevents]
  exact gone_iff_of_destroy before after clientLimit fails hclient howned

def exampleConnection : Connection := ⟨some 5, 0, "192.0.2.1", false⟩

/-- An `url` authenticator with `listener_remove` set. -/
def exampleUrlAuth : Authenticator := ⟨7, false, some fun _ ↦ .released⟩

theorem client_lifecycle_keepalive :
    Gone (run step start
      [.accept exampleConnection 100 false, .update 0 .keepalive none none, .destroy 0 100 false])
      0 0 := by
  have h := client_lifecycle
    [.accept exampleConnection 100 false, .update 0 .keepalive none none, .destroy 0 100 false]
  exact (h.2 [.accept exampleConnection 100 false, .update 0 .keepalive none none] 0 100 false []
    ⟨0, .keepalive, none, none, false⟩ rfl rfl rfl).mpr rfl

/-- A client of such an authenticator is never freed. -/
theorem client_not_freed :
    ¬∀ (before after : List Event) (id : ℕ) (client : ClientState) (clientLimit : ℤ) (fails : Bool)
      (s : State),
      s = run step start (before ++ .destroy id clientLimit fails :: after) →
      (run step start before).clients.objects id = some client → client.destroyed = false →
      (∀ entry ∈ s.releaseQueue, entry.2 ≠ id) → Gone s id client.con := by
  intro hall
  have hgone :=
    hall [.accept exampleConnection 100 false, .update 0 .close (some 7) (some exampleUrlAuth)]
    [.processRelease 7] 0 ⟨0, .close, some 7, some exampleUrlAuth, false⟩ 100 false _ rfl rfl rfl
    (by decide)
  have hnone := hgone.freed.2
  exact absurd (congrArg Option.isSome hnone) (by decide)

end Icecast.Client
