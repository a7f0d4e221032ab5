import Icecast.Lib.Machine
import Mathlib.Algebra.Order.Ring.Int
import Mathlib.Data.List.Forall2

/-!
# Which listener a connection came in by

`connection_setup_sockets` opens a socket for each `<listen-socket>` of the configuration and drops
the entries for which this fails, so that the array of sockets and the list of listeners have the
same positions. `config_get_listen_sock` relies on that: it looks for the socket that accepted a
connection in the array and returns the entry at its position. Afterwards the two are changed
independently. `wait_for_serversock` removes broken sockets from the array and leaves the list
alone; `config_reread_config` replaces the list, dropped entries included, and leaves the array
alone.

A socket is its descriptor, which is all that the code compares, together with the port and the
address it was opened for.
-/

namespace Icecast.Connection

open Lib.Machine

inductive TlsMode where
  | disabled
  | auto
  | autoNoPlain
  | rfc2817
  | rfc2818
  deriving DecidableEq

structure Endpoint where
  port : ℤ
  bindAddress : Option String
  deriving DecidableEq

structure Listener extends Endpoint where
  shoutcastCompat : Bool
  shoutcastMount : Option String
  tls : TlsMode
  deriving DecidableEq

structure ServerSocket where
  fd : ℕ
  openedFor : Endpoint
  deriving DecidableEq

structure Con where
  id : ℕ
  serversock : ServerSocket
  deriving DecidableEq

/-- The configured listeners, the array of sockets with its size, and the connections that have
been accepted and not closed. The slot of a socket that had to be closed holds `SOCK_ERROR`. -/
structure Server where
  listenSock : List Listener
  serversock : Option (List (Option ServerSocket))
  serverSockets : ℕ
  currentId : ℕ
  connections : List Con
  deriving DecidableEq

def start (listeners : List Listener) : Server where
  listenSock := listeners
  serversock := none
  serverSockets := 0
  currentId := 0
  connections := []

/-! ## Looking a listener up -/

/-- The entries are compared from position `i` on. The array is not tested for being there. -/
def findListener (server : Server) (con : Con) :
    List Listener → ℕ → Option (Option Listener)
  | [], _ => some none
  | listener :: listeners, i =>
    if server.serverSockets ≤ i then some none
    else
      match server.serversock with
      | none => none
      | some slots =>
        if (slots[i]?.join).map ServerSocket.fd = some con.serversock.fd then some (some listener)
        else findListener server con listeners (i + 1)

/-- The entry for a connection, or a null pointer; nothing if the missing array is read. -/
def configGetListenSock (server : Server) (con : Con) : Option (Option Listener) :=
  findListener server con server.listenSock 0

/-- What the request queue is told about a connection. -/
structure ClientNode where
  shoutcast : Bool
  shoutcastMount : Option String
  tlsmode : TlsMode
  deriving DecidableEq

def createClientNode (server : Server) (con : Con) : Option ClientNode :=
  (configGetListenSock server con).map fun
    | some listener => ⟨listener.shoutcastCompat, listener.shoutcastMount, listener.tls⟩
    | none => ⟨false, none, .auto⟩

/-! ## Opening and removing sockets -/

/-- What comes of opening a socket for the listener at each position: a descriptor or an error.
Sockets that are open at the same time have different descriptors. -/
structure SocketOutcomes where
  fd : ℕ → Option ℕ
  injective : ∀ i j n, fd i = some n → fd j = some n → i = j

/-- The listeners whose sockets could be opened, with these sockets. -/
def openSockets (outcomes : SocketOutcomes) : List Listener → ℕ → List (Listener × ServerSocket)
  | [], _ => []
  | listener :: listeners, i =>
    match outcomes.fd i with
    | none => openSockets outcomes listeners (i + 1)
    | some fd => (listener, ⟨fd, listener.toEndpoint⟩) :: openSockets outcomes listeners (i + 1)

/-- Without a configuration the sockets are closed, but their number is kept. -/
def connectionSetupSockets (server : Server) : Option SocketOutcomes → Server
  | none => { server with serversock := none }
  | some outcomes =>
    let opened := openSockets outcomes server.listenSock 0
    { server with
      listenSock := opened.map Prod.fst
      serversock := some (opened.map fun entry ↦ some entry.2)
      serverSockets := opened.length }

structure Revents where
  pollin : Bool
  pollhup : Bool
  pollerr : Bool
  pollnval : Bool
  deriving DecidableEq

def Revents.broken (revents : Revents) : Bool :=
  revents.pollhup || revents.pollerr || revents.pollnval

/-- The first socket with something to accept; broken ones before it lose their slots. `poll`
ignores the slots that hold `SOCK_ERROR`. -/
def checkSockets (revents : ℕ → Revents) :
    List (Option ServerSocket) → ℕ → List (Option ServerSocket) × Option ServerSocket
  | [], _ => ([], none)
  | none :: slots, i =>
    let (slots, found) := checkSockets revents slots (i + 1)
    (none :: slots, found)
  | some sock :: slots, i =>
    if (revents i).pollin then (some sock :: slots, some sock)
    else
      let (slots, found) := checkSockets revents slots (i + 1)
      ((if (revents i).broken then none else some sock) :: slots, found)

/-- `ret` is what `poll` returns. The closed sockets are removed only if there is nothing to
accept. -/
def waitForServersock (server : Server) (ret : ℤ) (revents : ℕ → Revents) :
    Server × Option ServerSocket :=
  match server.serversock with
  | none => (server, none)
  | some slots =>
    if ret ≤ 0 then (server, none)
    else
      match checkSockets revents slots 0 with
      | (slots, some sock) => ({ server with serversock := some slots }, some sock)
      | (slots, none) =>
        let slots := slots.filter Option.isSome
        ({ server with serversock := some slots, serverSockets := slots.length }, none)

/-- `accepted` is whether the connection could be accepted and its address is not banned. -/
def acceptConnection (server : Server) (ret : ℤ) (revents : ℕ → Revents) (accepted : Bool) :
    Server :=
  match waitForServersock server ret revents with
  | (server, none) => server
  | (server, some sock) =>
    if accepted then
      { server with
        currentId := server.currentId + 1
        connections := server.connections ++ [⟨server.currentId, sock⟩] }
    else server

/-- A configuration file that cannot be parsed changes nothing. -/
def configRereadConfig (server : Server) : Option (List Listener) → Server
  | none => server
  | some listeners => { server with listenSock := listeners }

inductive Event where
  | setup (outcomes : Option SocketOutcomes)
  | accept (ret : ℤ) (revents : ℕ → Revents) (accepted : Bool)
  | reread (parsed : Option (List Listener))
  | close (id : ℕ)

def step (server : Server) : Event → Server
  | .setup outcomes => connectionSetupSockets server outcomes
  | .accept ret revents accepted => acceptConnection server ret revents accepted
  | .reread parsed => configRereadConfig server parsed
  | .close id => { server with connections := server.connections.filter (·.id ≠ id) }

/-! ## The mapping and what it needs -/

/-- No entry has the port and the address that the socket was opened for. -/
def Unlisted (listeners : List Listener) (sock : ServerSocket) : Prop :=
  ∀ listener ∈ listeners, listener.toEndpoint ≠ sock.openedFor

instance (listeners : List Listener) (sock : ServerSocket) : Decidable (Unlisted listeners sock) :=
  inferInstanceAs (Decidable (∀ listener ∈ listeners, _))

/-- The entry that is returned has the port and the address of the socket, and nothing is returned
only if there is no such entry. -/
def IsListenerOf (listeners : List Listener) (sock : ServerSocket) : Option (Option Listener) → Prop
  | some (some listener) => listener.toEndpoint = sock.openedFor
  | some none => Unlisted listeners sock
  | none => False

instance (listeners : List Listener) (sock : ServerSocket) :
    ∀ result, Decidable (IsListenerOf listeners sock result)
  | some (some _) => inferInstanceAs (Decidable (_ = _))
  | some none => inferInstanceAs (Decidable (Unlisted _ _))
  | none => .isFalse id

/-- A connection is given the listener that it came in by. -/
def Mapped (server : Server) (con : Con) : Prop :=
  IsListenerOf server.listenSock con.serversock (configGetListenSock server con)

instance (server : Server) (con : Con) : Decidable (Mapped server con) :=
  inferInstanceAs (Decidable (IsListenerOf _ _ _))

/-- Every open socket has its listener at its own position, or stands behind the end of a list that
does not have it. -/
def Fits (all : List Listener) : List (Option ServerSocket) → List Listener → Prop
  | [], _ => True
  | none :: slots, listeners => Fits all slots listeners.tail
  | some sock :: slots, [] => Unlisted all sock ∧ Fits all slots []
  | some sock :: slots, listener :: listeners =>
    listener.toEndpoint = sock.openedFor ∧ Fits all slots listeners

instance Fits.decidable (all : List Listener) :
    ∀ slots listeners, Decidable (Fits all slots listeners)
  | [], _ => .isTrue trivial
  | none :: slots, listeners => Fits.decidable all slots listeners.tail
  | some _ :: slots, [] =>
    have := Fits.decidable all slots []
    inferInstanceAs (Decidable (_ ∧ _))
  | some _ :: slots, _ :: listeners =>
    have := Fits.decidable all slots listeners
    inferInstanceAs (Decidable (_ ∧ _))

/-- A connection whose socket is in none of the slots is not looked for in the list. -/
def Forgotten (listeners : List Listener) (slots : List (Option ServerSocket))
    (connections : List Con) : Prop :=
  ∀ con ∈ connections, some con.serversock ∉ slots → Unlisted listeners con.serversock

instance (listeners : List Listener) (slots : List (Option ServerSocket))
    (connections : List Con) : Decidable (Forgotten listeners slots connections) :=
  inferInstanceAs (Decidable (∀ con ∈ connections, _))

/-- The condition on a step. The sockets are set up while no connection is there; what is removed
from the array stands at its end and has no connections that are still in the list; a list that is
read again has the same positions. -/
def KeepsPositions (server : Server) : Event → Prop
  | .setup _ => server.connections = []
  | .accept ret revents _ =>
    0 < ret → ∀ slots ∈ server.serversock,
      Forgotten server.listenSock (checkSockets revents slots 0).1 server.connections ∧
      ((checkSockets revents slots 0).2 = none →
        (checkSockets revents slots 0).1.Pairwise fun slot behind ↦ slot = none → behind = none)
  | .reread parsed =>
    ∀ listeners ∈ parsed, ∀ slots ∈ server.serversock,
      Fits listeners slots listeners ∧ Forgotten listeners slots server.connections
  | .close _ => True

instance (server : Server) : ∀ event, Decidable (KeepsPositions server event)
  | .setup _ => inferInstanceAs (Decidable (server.connections = []))
  | .accept _ _ _ => inferInstanceAs (Decidable (_ → ∀ slots ∈ server.serversock, _))
  | .reread _ => inferInstanceAs (Decidable (∀ listeners ∈ _, ∀ slots ∈ server.serversock, _))
  | .close _ => .isTrue trivial

/-! ## Lookups by position -/

/-- Both lists walked in step. -/
def lookup (fd : ℕ) : List (Option ServerSocket) → List Listener → Option Listener
  | slot :: slots, listener :: listeners =>
    if slot.map ServerSocket.fd = some fd then some listener else lookup fd slots listeners
  | _, _ => none

def descriptors (slots : List (Option ServerSocket)) : List ℕ :=
  slots.filterMap (Option.map ServerSocket.fd)

variable {server : Server} {all listeners : List Listener} {sock : ServerSocket}
  {slots slots' : List (Option ServerSocket)}

theorem findListener_eq_lookup (con : Con) (hslots : server.serversock = some slots)
    (hsize : server.serverSockets = slots.length) (listeners : List Listener) (i : ℕ) :
    findListener server con listeners i =
      some (lookup con.serversock.fd (slots.drop i) listeners) := by
  induction listeners generalizing i with
  | nil => cases slots.drop i <;> rfl
  | cons listener listeners ih =>
    rw [findListener, hsize]
    split
    · rename_i hend
      rw [List.drop_of_length_le hend]
      rfl
    · rename_i hmore
      rw [not_le] at hmore
      rw [List.drop_eq_getElem_cons hmore, lookup, hslots]
      simp only [List.getElem?_eq_getElem hmore, Option.join_some, ih]
      split <;> rfl

theorem configGetListenSock_eq (con : Con) (hslots : server.serversock = some slots)
    (hsize : server.serverSockets = slots.length) :
    configGetListenSock server con =
      some (lookup con.serversock.fd slots server.listenSock) :=
  findListener_eq_lookup con hslots hsize server.listenSock 0

theorem lookup_nil_right (fd : ℕ) (slots : List (Option ServerSocket)) :
    lookup fd slots [] = none := by
  cases slots <;> rfl

theorem mem_descriptors (h : some sock ∈ slots) : sock.fd ∈ descriptors slots :=
  List.mem_filterMap.mpr ⟨some sock, h, rfl⟩

theorem lookup_of_not_mem {fd : ℕ} (h : fd ∉ descriptors slots) (listeners : List Listener) :
    lookup fd slots listeners = none := by
  induction slots generalizing listeners with
  | nil => rfl
  | cons slot slots ih =>
    cases listeners with
    | nil => rfl
    | cons listener listeners =>
      cases slot with
      | none =>
        rw [lookup, if_neg (by simp)]
        exact ih h listeners
      | some sock =>
        simp only [descriptors, List.filterMap_cons, Option.map_some, List.mem_cons, not_or] at h
        rw [lookup, if_neg (by simpa using Ne.symm h.1)]
        exact ih h.2 listeners

/-- Where positions fit, a socket in the array leads to its own listener. -/
theorem Fits.isListenerOf (fits : Fits all slots listeners) (hnodup : (descriptors slots).Nodup)
    (hmem : some sock ∈ slots) : IsListenerOf all sock (some (lookup sock.fd slots listeners)) := by
  induction slots generalizing listeners with
  | nil => cases hmem
  | cons slot slots ih =>
    cases slot with
    | none =>
      have hrest : some sock ∈ slots := by simpa using hmem
      have hfound := ih fits hnodup hrest
      cases listeners with
      | nil => simpa [lookup, lookup_nil_right] using hfound
      | cons listener listeners =>
        rw [lookup, if_neg (by simp)]
        exact hfound
    | some first =>
      simp only [descriptors, List.filterMap_cons, Option.map_some, List.nodup_cons] at hnodup
      rcases List.mem_cons.mp hmem with hfirst | hrest
      · obtain rfl : sock = first := by simpa using hfirst
        cases listeners with
        | nil => exact fits.1
        | cons listener listeners =>
          rw [lookup, if_pos (by simp)]
          exact fits.1
      · have hne : first.fd ≠ sock.fd := fun h ↦ hnodup.1 (h ▸ mem_descriptors hrest)
        cases listeners with
        | nil => simpa [lookup, lookup_nil_right] using ih fits.2 hnodup.2 hrest
        | cons listener listeners =>
          rw [lookup, if_neg (by simpa using hne)]
          exact ih fits.2 hnodup.2 hrest

/-! ## Opening sockets -/

theorem fits_openSockets (outcomes : SocketOutcomes) (all listeners : List Listener) (i : ℕ) :
    Fits all ((openSockets outcomes listeners i).map fun entry ↦ some entry.2)
      ((openSockets outcomes listeners i).map Prod.fst) := by
  induction listeners generalizing i with
  | nil => trivial
  | cons listener listeners ih =>
    rw [openSockets]
    split
    · exact ih (i + 1)
    · exact ⟨rfl, ih (i + 1)⟩

/-- The descriptors are those of the positions from `i` on. -/
theorem mem_openSockets (outcomes : SocketOutcomes) (listeners : List Listener) (i fd : ℕ)
    (h : fd ∈ descriptors ((openSockets outcomes listeners i).map fun entry ↦ some entry.2)) :
    ∃ j, i ≤ j ∧ outcomes.fd j = some fd := by
  induction listeners generalizing i with
  | nil => cases h
  | cons listener listeners ih =>
    rw [openSockets] at h
    split at h
    · obtain ⟨j, hj, hfd⟩ := ih (i + 1) h
      exact ⟨j, by omega, hfd⟩
    · rename_i first hfirst
      rcases List.mem_cons.mp h with rfl | hrest
      · exact ⟨i, le_rfl, hfirst⟩
      · obtain ⟨j, hj, hfd⟩ := ih (i + 1) hrest
        exact ⟨j, by omega, hfd⟩

theorem nodup_openSockets (outcomes : SocketOutcomes) (listeners : List Listener) (i : ℕ) :
    (descriptors ((openSockets outcomes listeners i).map fun entry ↦ some entry.2)).Nodup := by
  induction listeners generalizing i with
  | nil => exact List.nodup_nil
  | cons listener listeners ih =>
    rw [openSockets]
    split
    · exact ih (i + 1)
    · rename_i first hfirst
      refine List.nodup_cons.mpr ⟨fun hmem ↦ ?_, ih (i + 1)⟩
      obtain ⟨j, hj, hfd⟩ := mem_openSockets outcomes listeners (i + 1) first hmem
      have := outcomes.injective i j first hfirst hfd
      omega

/-! ## Removing sockets -/

/-- The second array has lost some of the sockets of the first and moved none. -/
def Cleared (slots slots' : List (Option ServerSocket)) : Prop :=
  List.Forall₂ (fun slot slot' ↦ slot' = slot ∨ slot' = none) slots slots'

theorem cleared_refl (slots : List (Option ServerSocket)) : Cleared slots slots :=
  List.forall₂_same.mpr fun _ _ ↦ Or.inl rfl

theorem cleared_checkSockets (revents : ℕ → Revents) (slots : List (Option ServerSocket)) (i : ℕ) :
    Cleared slots (checkSockets revents slots i).1 := by
  induction slots generalizing i with
  | nil => exact List.Forall₂.nil
  | cons slot slots ih =>
    cases slot with
    | none => exact List.Forall₂.cons (Or.inl rfl) (ih (i + 1))
    | some sock =>
      rw [checkSockets]
      split
      · exact cleared_refl _
      · refine List.Forall₂.cons ?_ (ih (i + 1))
        split
        · exact Or.inr rfl
        · exact Or.inl rfl

theorem found_mem_checkSockets (revents : ℕ → Revents) {slots : List (Option ServerSocket)} {i : ℕ}
    (h : (checkSockets revents slots i).2 = some sock) :
    some sock ∈ (checkSockets revents slots i).1 := by
  induction slots generalizing i with
  | nil => cases h
  | cons slot slots ih =>
    cases slot with
    | none => exact List.mem_cons_of_mem _ (ih h)
    | some first =>
      rw [checkSockets] at h ⊢
      split at h
      · rename_i hpollin
        rw [if_pos hpollin]
        obtain rfl : first = sock := by simpa using h
        exact List.mem_cons_self
      · rename_i hpollin
        rw [if_neg hpollin]
        exact List.mem_cons_of_mem _ (ih h)

theorem Fits.cleared (hcleared : Cleared slots slots') (fits : Fits all slots listeners) :
    Fits all slots' listeners := by
  induction hcleared generalizing listeners with
  | nil => trivial
  | cons hslot _ ih =>
    rename_i slot slot' slots slots' _
    cases slot with
    | none =>
      obtain rfl : slot' = none := by simpa using hslot
      exact ih fits
    | some sock =>
      cases listeners with
      | nil =>
        rcases hslot with rfl | rfl
        · exact ⟨fits.1, ih fits.2⟩
        · exact ih fits.2
      | cons listener listeners =>
        rcases hslot with rfl | rfl
        · exact ⟨fits.1, ih fits.2⟩
        · exact ih fits.2

theorem Cleared.descriptors_sublist (hcleared : Cleared slots slots') :
    (descriptors slots').Sublist (descriptors slots) := by
  induction hcleared with
  | nil => exact List.Sublist.slnil
  | cons hslot _ ih =>
    rename_i slot slot' slots slots' _
    rcases hslot with rfl | rfl
    · cases slot' with
      | none => exact ih
      | some sock => exact ih.cons_cons sock.fd
    · cases slot with
      | none => exact ih
      | some sock => exact ih.cons sock.fd

theorem Cleared.mem (hcleared : Cleared slots slots') (h : some sock ∈ slots') :
    some sock ∈ slots := by
  induction hcleared with
  | nil => exact h
  | cons hslot _ ih =>
    rcases List.mem_cons.mp h with rfl | hrest
    · rcases hslot with rfl | hnone
      · exact List.mem_cons_self
      · cases hnone
    · exact List.mem_cons_of_mem _ (ih hrest)

theorem eq_of_fd_eq {other : ServerSocket} (hnodup : (descriptors slots).Nodup)
    (hsock : some sock ∈ slots) (hother : some other ∈ slots) (hfd : sock.fd = other.fd) :
    sock = other := by
  induction slots with
  | nil => cases hsock
  | cons slot slots ih =>
    cases slot with
    | none => exact ih hnodup (by simpa using hsock) (by simpa using hother)
    | some first =>
      obtain ⟨hfirst, hrest⟩ := List.nodup_cons.mp hnodup
      simp only [List.mem_cons, Option.some.injEq] at hsock hother
      rcases hsock with rfl | hsock
      · rcases hother with rfl | hother
        · rfl
        · exact absurd (hfd ▸ mem_descriptors hother) hfirst
      · rcases hother with rfl | hother
        · exact absurd (hfd ▸ mem_descriptors hsock) hfirst
        · exact ih hrest hsock hother

/-- A socket that has been cleared has no descriptor left in the array. -/
theorem Cleared.not_mem_descriptors (hcleared : Cleared slots slots')
    (hnodup : (descriptors slots).Nodup) (hmem : some sock ∈ slots) (hgone : some sock ∉ slots') :
    sock.fd ∉ descriptors slots' := by
  intro hfd
  obtain ⟨slot, hslot, hother⟩ := List.mem_filterMap.mp hfd
  cases slot with
  | none => cases hother
  | some other =>
    have hsame : sock = other :=
      eq_of_fd_eq hnodup hmem (hcleared.mem hslot) (by simpa using hother.symm)
    exact hgone (hsame ▸ hslot)

theorem descriptors_filter_isSome (slots : List (Option ServerSocket)) :
    descriptors (slots.filter Option.isSome) = descriptors slots := by
  induction slots with
  | nil => rfl
  | cons slot slots ih =>
    cases slot with
    | none => exact ih
    | some sock => exact congrArg (sock.fd :: ·) ih

/-- The removal moves nothing if the empty slots are the last ones. -/
theorem Fits.filter_isSome (fits : Fits all slots listeners)
    (hlast : slots.Pairwise fun slot behind ↦ slot = none → behind = none) :
    Fits all (slots.filter Option.isSome) listeners := by
  induction slots generalizing listeners with
  | nil => trivial
  | cons slot slots ih =>
    obtain ⟨hslot, hrest⟩ := List.pairwise_cons.mp hlast
    cases slot with
    | none =>
      have hempty : (none :: slots).filter Option.isSome = ([] : List (Option ServerSocket)) := by
        rw [List.filter_eq_nil_iff]
        intro behind hbehind
        rcases List.mem_cons.mp hbehind with rfl | hbehind
        · simp
        · simp [hslot behind hbehind rfl]
      rw [hempty]
      trivial
    | some sock =>
      cases listeners with
      | nil => exact ⟨fits.1, ih fits.2 hrest⟩
      | cons listener listeners => exact ⟨fits.1, ih fits.2 hrest⟩

/-! ## Runs -/

/-- The array and the list as they have to be for the lookups. A connection whose socket is gone is
not found by its descriptor either. -/
structure Aligned (server : Server) (slots : List (Option ServerSocket)) : Prop where
  size : server.serverSockets = slots.length
  nodup : (descriptors slots).Nodup
  fits : Fits server.listenSock slots server.listenSock
  placed : ∀ con ∈ server.connections, some con.serversock ∈ slots ∨
    con.serversock.fd ∉ descriptors slots ∧ Unlisted server.listenSock con.serversock

/-- As long as there is no array there are no connections. -/
def Inv (server : Server) : Prop :=
  (server.serversock = none → server.connections = []) ∧
  ∀ slots, server.serversock = some slots → Aligned server slots

theorem Aligned.mapped (aligned : Aligned server slots) (hslots : server.serversock = some slots)
    {con : Con} (hcon : con ∈ server.connections) : Mapped server con := by
  unfold Mapped
  rw [configGetListenSock_eq con hslots aligned.size]
  rcases aligned.placed con hcon with hmem | ⟨hgone, hunlisted⟩
  · exact aligned.fits.isListenerOf aligned.nodup hmem
  · rw [lookup_of_not_mem hgone]
    exact hunlisted

theorem Inv.mapped (inv : Inv server) {con : Con} (hcon : con ∈ server.connections) :
    Mapped server con := by
  cases hslots : server.serversock with
  | none =>
    rw [inv.1 hslots] at hcon
    cases hcon
  | some slots => exact (inv.2 slots hslots).mapped hslots hcon

theorem inv_start (listeners : List Listener) : Inv (start listeners) :=
  ⟨fun _ ↦ rfl, fun _ h ↦ nomatch h⟩

theorem inv_setup (outcomes : Option SocketOutcomes)
    (hnone : server.connections = []) : Inv (connectionSetupSockets server outcomes) := by
  cases outcomes with
  | none => exact ⟨fun _ ↦ hnone, fun _ h ↦ nomatch h⟩
  | some outcomes =>
    refine ⟨(fun h ↦ nomatch h), fun slots hslots ↦ ?_⟩
    obtain rfl := Option.some.inj hslots
    refine ⟨by simp [connectionSetupSockets], nodup_openSockets outcomes server.listenSock 0,
      fits_openSockets outcomes _ server.listenSock 0, fun con hcon ↦ ?_⟩
    simp [connectionSetupSockets, hnone] at hcon

/-- Sockets are cleared without moving one. -/
theorem Aligned.cleared (aligned : Aligned server slots) (hcleared : Cleared slots slots')
    (hforgotten : Forgotten server.listenSock slots' server.connections) :
    Aligned { server with serversock := some slots' } slots' := by
  refine ⟨aligned.size.trans hcleared.length_eq, aligned.nodup.sublist hcleared.descriptors_sublist,
    aligned.fits.cleared hcleared, fun con hcon ↦ ?_⟩
  by_cases hmem : some con.serversock ∈ slots'
  · exact Or.inl hmem
  · refine Or.inr ⟨?_, hforgotten con hcon hmem⟩
    rcases aligned.placed con hcon with hbefore | ⟨hgone, -⟩
    · exact hcleared.not_mem_descriptors aligned.nodup hbefore hmem
    · exact fun h ↦ hgone (hcleared.descriptors_sublist.subset h)

/-- The empty slots at the end of the array are removed. -/
theorem Aligned.compact (aligned : Aligned server slots)
    (hlast : slots.Pairwise fun slot behind ↦ slot = none → behind = none) :
    Aligned { server with
      serversock := some (slots.filter Option.isSome)
      serverSockets := (slots.filter Option.isSome).length } (slots.filter Option.isSome) := by
  refine ⟨rfl, ?_, aligned.fits.filter_isSome hlast, fun con hcon ↦ ?_⟩
  · rw [descriptors_filter_isSome]
    exact aligned.nodup
  · rw [descriptors_filter_isSome]
    rcases aligned.placed con hcon with hmem | hgone
    · exact Or.inl (List.mem_filter.mpr ⟨hmem, rfl⟩)
    · exact Or.inr hgone

/-- What `wait_for_serversock` leaves behind, and where the socket is that it returns. -/
theorem Inv.waitForServersock (inv : Inv server) {ret : ℤ} {revents : ℕ → Revents}
    {accepted : Bool} (hguard : KeepsPositions server (.accept ret revents accepted)) :
    Inv (Connection.waitForServersock server ret revents).1 ∧
      ∀ sock, (Connection.waitForServersock server ret revents).2 = some sock →
        ∃ slots, (Connection.waitForServersock server ret revents).1.serversock = some slots ∧
          some sock ∈ slots := by
  unfold Connection.waitForServersock
  cases hslots : server.serversock with
  | none => exact ⟨inv, by simp⟩
  | some slots =>
    simp only
    split
    · exact ⟨inv, by simp⟩
    · rename_i hret
      obtain ⟨hforgotten, hlast⟩ := hguard (by omega) slots hslots
      have aligned := (inv.2 slots hslots).cleared (cleared_checkSockets revents slots 0) hforgotten
      have hfound : ∀ sock, (checkSockets revents slots 0).2 = some sock →
          some sock ∈ (checkSockets revents slots 0).1 :=
        fun _ ↦ found_mem_checkSockets revents
      rcases hcheck : checkSockets revents slots 0 with ⟨checked, found⟩
      rw [hcheck] at aligned hlast hfound
      cases found with
      | some sock =>
        refine ⟨⟨(fun h ↦ nomatch h), fun slots' hslots' ↦ ?_⟩, fun sock' hsock' ↦ ?_⟩
        · obtain rfl := Option.some.inj hslots'
          exact aligned
        · exact ⟨checked, rfl, hfound sock' hsock'⟩
      | none =>
        refine ⟨⟨(fun h ↦ nomatch h), fun slots' hslots' ↦ ?_⟩, by simp⟩
        obtain rfl := Option.some.inj hslots'
        exact aligned.compact (hlast rfl)

theorem Inv.accept (inv : Inv server) {ret : ℤ} {revents : ℕ → Revents} {accepted : Bool}
    (hguard : KeepsPositions server (.accept ret revents accepted)) :
    Inv (acceptConnection server ret revents accepted) := by
  obtain ⟨inv', hfound⟩ := inv.waitForServersock hguard
  unfold acceptConnection
  rcases hwait : Connection.waitForServersock server ret revents with ⟨server', found⟩
  rw [hwait] at inv' hfound
  cases found with
  | none => exact inv'
  | some sock =>
    cases accepted with
    | false => exact inv'
    | true =>
      obtain ⟨slots, hslots, hmem⟩ := hfound sock rfl
      have aligned := inv'.2 slots hslots
      refine ⟨fun hnone ↦ absurd (hslots.symm.trans hnone) (by simp), fun slots' hslots' ↦ ?_⟩
      obtain rfl := Option.some.inj (hslots.symm.trans hslots')
      refine ⟨aligned.size, aligned.nodup, aligned.fits, fun con hcon ↦ ?_⟩
      rcases List.mem_append.mp hcon with hcon | hcon
      · exact aligned.placed con hcon
      · obtain rfl := List.mem_singleton.mp hcon
        exact Or.inl hmem

theorem Inv.reread (inv : Inv server) {parsed : Option (List Listener)}
    (hguard : KeepsPositions server (.reread parsed)) : Inv (configRereadConfig server parsed) := by
  cases parsed with
  | none => exact inv
  | some listeners =>
    refine ⟨inv.1, fun slots hslots ↦ ?_⟩
    have aligned := inv.2 slots hslots
    obtain ⟨hfits, hforgotten⟩ := hguard listeners rfl slots hslots
    refine ⟨aligned.size, aligned.nodup, hfits, fun con hcon ↦ ?_⟩
    by_cases hmem : some con.serversock ∈ slots
    · exact Or.inl hmem
    · rcases aligned.placed con hcon with h | ⟨hgone, -⟩
      · exact absurd h hmem
      · exact Or.inr ⟨hgone, hforgotten con hcon hmem⟩

theorem Inv.close (inv : Inv server) (id : ℕ) : Inv (step server (.close id)) := by
  refine ⟨fun hnone ↦ ?_, fun slots hslots ↦ ?_⟩
  · simp [step, inv.1 hnone]
  · have aligned := inv.2 slots hslots
    exact ⟨aligned.size, aligned.nodup, aligned.fits,
      fun con hcon ↦ aligned.placed con (List.mem_filter.mp hcon).1⟩

theorem Inv.step (inv : Inv server) (event : Event) (hguard : KeepsPositions server event) :
    Inv (Connection.step server event) := by
  cases event with
  | setup outcomes => exact inv_setup outcomes hguard
  | accept ret revents accepted => exact inv.accept hguard
  | reread parsed => exact inv.reread hguard
  | close id => exact inv.close id

theorem mem_of_lookup {fd : ℕ} {listener : Listener}
    (h : lookup fd slots listeners = some listener) : listener ∈ listeners := by
  induction slots generalizing listeners with
  | nil => cases h
  | cons slot slots ih =>
    cases listeners with
    | nil => cases h
    | cons first listeners =>
      rw [lookup] at h
      split at h
      · rw [Option.some.inj h]
        exact List.mem_cons_self
      · exact List.mem_cons_of_mem _ (ih h)

/-- The settings that the request queue gets are those of an entry with the port and the address
of the connection's socket, or the defaults if there is none. -/
theorem Inv.createClientNode (inv : Inv server) {con : Con} (hcon : con ∈ server.connections) :
    (∃ listener ∈ server.listenSock, listener.toEndpoint = con.serversock.openedFor ∧
      Connection.createClientNode server con =
        some ⟨listener.shoutcastCompat, listener.shoutcastMount, listener.tls⟩) ∨
    (Unlisted server.listenSock con.serversock ∧
      Connection.createClientNode server con = some ⟨false, none, .auto⟩) := by
  have hmapped := inv.mapped hcon
  cases hslots : server.serversock with
  | none =>
    rw [inv.1 hslots] at hcon
    cases hcon
  | some slots =>
    unfold Mapped at hmapped
    unfold Connection.createClientNode
    rw [configGetListenSock_eq con hslots (inv.2 slots hslots).size] at hmapped ⊢
    cases hlookup : lookup con.serversock.fd slots server.listenSock with
    | none =>
      rw [hlookup] at hmapped
      exact Or.inr ⟨hmapped, rfl⟩
    | some listener =>
      rw [hlookup] at hmapped
      exact Or.inl ⟨listener, mem_of_lookup hlookup, hmapped, rfl⟩

/-- In every run whose steps keep the positions, every accepted connection is given the listener
that it came in by. -/
theorem listen_sock_mapped (listeners : List Listener) (events : List Event)
    (hguard : Guarded step KeepsPositions (start listeners) events) :
    ∀ con ∈ (run step (start listeners) events).connections,
      Mapped (run step (start listeners) events) con := by
  have inv := run_invariant_of_guarded step Inv (fun _ event inv hguard ↦ inv.step event hguard)
    events (inv_start listeners) hguard
  exact fun con hcon ↦ inv.mapped hcon

/-- A plain listener and one for TLS. -/
def exampleListeners : List Listener :=
  [⟨⟨8000, none⟩, false, none, .disabled⟩, ⟨⟨8443, none⟩, false, none, .rfc2818⟩]

/-- The first `failed` listeners cannot be bound. -/
def bindFrom (failed : ℕ) : SocketOutcomes where
  fd i := if i < failed then none else some (i + 3)
  injective := by
    intro i j n hi hj
    split at hi
    · cases hi
    · split at hj
      · cases hj
      · rw [← hj, Option.some.injEq] at hi
        omega

def readable : Revents := ⟨true, false, false, false⟩

/-- The socket at this position has been hung up. -/
def brokenAt (position : ℕ) (i : ℕ) : Revents := ⟨false, i = position, false, false⟩

/-- The first socket accepts a connection, the file is read again, and the second socket breaks. -/
def exampleRun : List Event :=
  [.setup (some (bindFrom 0)), .accept 1 (fun _ ↦ readable) true, .reread exampleListeners,
    .accept 1 (brokenAt 1) true]

theorem listen_sock_mapped_example :
    ⟨0, ⟨3, ⟨8000, none⟩⟩⟩ ∈ (run step (start exampleListeners) exampleRun).connections ∧
      Mapped (run step (start exampleListeners) exampleRun) ⟨0, ⟨3, ⟨8000, none⟩⟩⟩ :=
  ⟨by decide, listen_sock_mapped exampleListeners exampleRun (by decide) _ (by decide)⟩

/-- The first listener cannot be bound and its entry is dropped; reading the same file again brings
the entry back, and a connection to the second listener is given the first one. -/
theorem listen_sock_shifted :
    ¬∀ (listeners : List Listener) (events : List Event),
      ∀ con ∈ (run step (start listeners) events).connections,
        Mapped (run step (start listeners) events) con := by
  intro h
  have hcon := h exampleListeners
    [.setup (some (bindFrom 1)), .accept 1 (fun _ ↦ readable) true, .reread exampleListeners]
  revert hcon
  decide

/-- The removal of a broken socket shifts the others too. -/
example : (run step (start exampleListeners)
    [.setup (some (bindFrom 0)), .accept 1 (brokenAt 0) true,
      .accept 1 (fun _ ↦ readable) true]).connections = [⟨0, ⟨4, ⟨8443, none⟩⟩⟩] ∧
    configGetListenSock (run step (start exampleListeners)
      [.setup (some (bindFrom 0)), .accept 1 (brokenAt 0) true, .accept 1 (fun _ ↦ readable) true])
      ⟨0, ⟨4, ⟨8443, none⟩⟩⟩ = some exampleListeners.head? := by
  decide

end Icecast.Connection
