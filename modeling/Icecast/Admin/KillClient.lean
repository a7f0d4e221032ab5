import Icecast.Lib.Decimal
import Icecast.Lib.Machine
import Mathlib.Data.List.Nodup

/-!
# Killing a listener by its number

The admin command `listclients` shows the number of every listener of a source, and `killclient` takes
such a number and marks the listener for removal (`admin.c`). The numbers are those of the connections:
an `unsigned long` that counts up for every connection that is accepted (`connection.c`). On their way
back they go through `atoi` and an `int` (`source.c`), so of the numbers that can be shown only the
first `2 ^ 31` and the very last one lead to the listener that they were shown for.
-/

namespace Icecast.Admin.KillClient

open Lib.Decimal Lib.Machine

/-! ## Connections -/

/-- A connection with its client. Connections are told apart by `serial`, which is not part of the
program: the number of connections before. `mount` is the source in whose `client_tree` it is. -/
structure Connection where
  serial : ℕ
  id : ℕ
  mount : Option String
  error : Bool
  deriving DecidableEq

structure State where
  currentId : ℕ
  accepted : ℕ
  connections : List Connection

def start : State := ⟨0, 0, []⟩

/-- `_next_connection_id` for a connection that is then created. -/
def accept (s : State) : State where
  currentId := (s.currentId + 1) % 2 ^ 64
  accepted := s.accepted + 1
  connections := s.connections ++ [⟨s.accepted, s.currentId, none, false⟩]

/-- The clients in the `client_tree` of a source. -/
def clientTree (s : State) (mount : String) : List Connection :=
  s.connections.filter (·.mount = some mount)

/-! ## The commands -/

/-- The number of a listener as `__add_listener` prints it into a buffer of 22 bytes. -/
def printId (id : ℕ) : String := String.ofList (id.repr.toList.take 20)

section Commands

variable (find : List Connection → ℕ → Option Connection)

/-- What is known of `avl_get_by_key`: it finds a client of the number if and only if there is one. -/
structure Lookup : Prop where
  found : ∀ {tree id client}, find tree id = some client → client ∈ tree ∧ client.id = id
  missing : ∀ {tree id}, find tree id = none → ∀ client ∈ tree, client.id ≠ id

/-- `source_find_client`; the `int` is converted to `unsigned long`. -/
def sourceFindClient (tree : List Connection) (id : ℤ) : Option Connection :=
  find tree (id % 2 ^ 64).toNat

/-- The listener that `command_kill_client` selects. -/
def selected (s : State) (mount idtext : String) : Option Connection :=
  sourceFindClient find (clientTree s mount) (atoi idtext)

def commandKillClient (s : State) (mount idtext : String) : State :=
  match selected find s mount idtext with
  | none => s
  | some client =>
    { s with
      connections := s.connections.map fun other ↦
        if other.serial = client.serial then { other with error := true } else other }

/-- What happens to connections: they are accepted, begin to listen to a source, are moved with all
others to another source, are killed, or go. -/
inductive Event where
  | accept
  | listen (serial : ℕ) (mount : String)
  | move (mount dest : String)
  | killClient (mount idtext : String)
  | leave (serial : ℕ)

def step (s : State) : Event → State
  | .accept => accept s
  | .listen serial mount =>
    { s with
      connections := s.connections.map fun other ↦
        if other.serial = serial ∧ other.mount = none then { other with mount := some mount }
        else other }
  | .move mount dest =>
    { s with
      connections := s.connections.map fun other ↦
        if other.mount = some mount then { other with mount := some dest } else other }
  | .killClient mount idtext => commandKillClient find s mount idtext
  | .leave serial => { s with connections := s.connections.filter (·.serial ≠ serial) }

/-- Every number that `listclients` shows leads `killclient` to the listener it is shown for. -/
def KillsExactly (s : State) : Prop :=
  ∀ mount, ∀ client ∈ clientTree s mount,
    selected find s mount (printId client.id) = some client

end Commands

/-! ## Numbers -/

theorem printId_of_lt {id : ℕ} (h : id < 2 ^ 64) : printId id = id.repr := by
  have hlength : id.repr.length ≤ 20 := by
    rw [Nat.length_repr_le_iff (by decide)]
    exact h.trans (by decide)
  rw [printId, List.take_of_length_le (by rwa [String.length_toList]), String.ofList_toList]

/-- What becomes of a number that is printed, read and looked up. -/
theorem atoi_printId {id : ℕ} (h : id < 2 ^ 64) :
    (atoi (printId id) % 2 ^ 64).toNat = id ↔ id < 2 ^ 31 ∨ id = 2 ^ 64 - 1 := by
  rw [printId_of_lt h, atoi, atoll, readNumber_natRepr, toInt, Int.bmod_def]
  split <;> omega

/-! ## Runs -/

/-- The counter has wrapped around as often as the number of connections says. -/
structure Inv (s : State) : Prop where
  counter : s.currentId = s.accepted % 2 ^ 64
  ids : ∀ client ∈ s.connections, client.serial < s.accepted ∧ client.id = client.serial % 2 ^ 64
  serials : (s.connections.map Connection.serial).Nodup

/-- Nothing but the source and the mark of a connection changes. -/
theorem Inv.map {s : State} (inv : Inv s) {f : Connection → Connection}
    (hf : ∀ client, (f client).serial = client.serial ∧ (f client).id = client.id) :
    Inv { s with connections := s.connections.map f } where
  counter := inv.counter
  ids := by
    intro client hclient
    obtain ⟨before, hbefore, rfl⟩ := List.mem_map.mp hclient
    rw [(hf before).1, (hf before).2]
    exact inv.ids before hbefore
  serials := by
    have hserial : Connection.serial ∘ f = Connection.serial := funext fun client ↦ (hf client).1
    rw [List.map_map, hserial]
    exact inv.serials

theorem Inv.accept {s : State} (inv : Inv s) : Inv (accept s) where
  counter := by
    rw [KillClient.accept, inv.counter, Nat.mod_add_mod]
  ids := by
    intro client hclient
    rcases List.mem_append.mp hclient with hold | hnew
    · exact ⟨(inv.ids client hold).1.trans (Nat.lt_succ_self _), (inv.ids client hold).2⟩
    · rw [List.mem_singleton.mp hnew]
      exact ⟨Nat.lt_succ_self _, inv.counter⟩
  serials := by
    rw [KillClient.accept, List.map_append, List.map_singleton, List.nodup_append]
    refine ⟨inv.serials, List.nodup_singleton _, ?_⟩
    intro serial hserial other hother
    obtain ⟨client, hclient, rfl⟩ := List.mem_map.mp hserial
    rw [List.mem_singleton.mp hother]
    exact (inv.ids client hclient).1.ne

theorem Inv.step {s : State} (inv : Inv s) (find : List Connection → ℕ → Option Connection)
    (event : Event) : Inv (step find s event) := by
  cases event with
  | accept => exact inv.accept
  | listen serial mount =>
    apply inv.map
    intro client
    split <;> exact ⟨rfl, rfl⟩
  | move mount dest =>
    apply inv.map
    intro client
    split <;> exact ⟨rfl, rfl⟩
  | killClient mount idtext =>
    unfold KillClient.step commandKillClient
    dsimp only
    split
    · exact inv
    · apply inv.map
      intro client
      split <;> exact ⟨rfl, rfl⟩
  | leave serial =>
    refine ⟨inv.counter, ?_, ?_⟩
    · intro client hclient
      exact inv.ids client (List.mem_of_mem_filter hclient)
    · exact inv.serials.sublist (List.filter_sublist.map _)

theorem inv_run (find : List Connection → ℕ → Option Connection) (events : List Event) :
    Inv (run (step find) start events) :=
  run_invariant (step find) Inv (fun _ event inv ↦ inv.step find event) events
    ⟨rfl, nofun, List.nodup_nil⟩

/-- Numbers are given out twice only after all of them have been given out. -/
theorem Inv.nodup_ids {s : State} (inv : Inv s) (h : s.accepted ≤ 2 ^ 64) (mount : String) :
    ((clientTree s mount).map Connection.id).Nodup := by
  have hids : (clientTree s mount).map Connection.id = (clientTree s mount).map Connection.serial := by
    apply List.map_congr_left
    intro client hclient
    obtain ⟨hserial, hid⟩ := inv.ids client (List.mem_of_mem_filter hclient)
    rw [hid, Nat.mod_eq_of_lt (hserial.trans_le h)]
  rw [hids]
  exact inv.serials.sublist (List.filter_sublist.map _)

/-! ## Which numbers work -/

/-- A number that is one of the first `2 ^ 31` or the last one. -/
def Selectable (id : ℕ) : Prop := id < 2 ^ 31 ∨ id = 2 ^ 64 - 1

theorem Inv.killsExactly_iff {s : State} (inv : Inv s)
    {find : List Connection → ℕ → Option Connection} (hfind : Lookup find) :
    KillsExactly find s ↔ ∀ mount, (∀ client ∈ clientTree s mount, Selectable client.id) ∧
      ((clientTree s mount).map Connection.id).Nodup := by
  have hlt : ∀ mount, ∀ client ∈ clientTree s mount, client.id < 2 ^ 64 := by
    intro mount client hclient
    rw [(inv.ids client (List.mem_of_mem_filter hclient)).2]
    exact Nat.mod_lt _ (by decide)
  constructor
  · intro hkills mount
    constructor
    · intro client hclient
      have hid := (hfind.found (hkills mount client hclient)).2
      exact (atoi_printId (hlt mount client hclient)).mp hid.symm
    · have hnodup : (clientTree s mount).Nodup := (inv.serials.of_map _).filter _
      apply hnodup.map_on
      intro client hclient other hother hsame
      have hfirst := hkills mount client hclient
      rw [hsame, hkills mount other hother] at hfirst
      exact (Option.some.inj hfirst).symm
  · intro hall mount client hclient
    obtain ⟨hselectable, hnodup⟩ := hall mount
    have hid := (atoi_printId (hlt mount client hclient)).mpr (hselectable client hclient)
    rw [selected, sourceFindClient, hid]
    cases hfound : find (clientTree s mount) client.id with
    | none => exact absurd rfl (hfind.missing hfound client hclient)
    | some other =>
      obtain ⟨hother, hsame⟩ := hfind.found hfound
      rw [List.inj_on_of_nodup_map hnodup hother hclient hsame]

/-- After any run, all numbers that are shown lead to their listeners if and only if they are all among
the first `2 ^ 31` or the last one, and no listeners of a source share one. Before the counter has
wrapped around they never share one. -/
theorem kill_client_exact_iff {find : List Connection → ℕ → Option Connection} (hfind : Lookup find)
    (events : List Event) :
    let s := run (step find) start events
    (KillsExactly find s ↔ ∀ mount, (∀ client ∈ clientTree s mount, Selectable client.id) ∧
      ((clientTree s mount).map Connection.id).Nodup) ∧
    (s.accepted ≤ 2 ^ 64 → ∀ mount, ((clientTree s mount).map Connection.id).Nodup) := by
  intro s
  have inv := inv_run find events
  exact ⟨inv.killsExactly_iff hfind, inv.nodup_ids⟩

/-- A lookup that goes through the clients of a tree. -/
def exampleFind (tree : List Connection) (id : ℕ) : Option Connection := tree.find? (·.id = id)

theorem lookup_exampleFind : Lookup exampleFind where
  found := by
    intro tree id client hfound
    exact ⟨List.mem_of_find?_eq_some hfound, by simpa using List.find?_some hfound⟩
  missing := by
    intro tree id hmissing client hclient
    simpa using List.find?_eq_none.mp hmissing client hclient

theorem kill_client_exact_iff_two :
    let s := run (step exampleFind) start [.accept, .accept, .listen 1 "/stream"]
    (KillsExactly exampleFind s ↔ ∀ mount, (∀ client ∈ clientTree s mount, Selectable client.id) ∧
      ((clientTree s mount).map Connection.id).Nodup) ∧
    (s.accepted ≤ 2 ^ 64 → ∀ mount, ((clientTree s mount).map Connection.id).Nodup) := by
  exact kill_client_exact_iff lookup_exampleFind [.accept, .accept, .listen 1 "/stream"]

theorem run_replicate_accept (find : List Connection → ℕ → Option Connection) (n : ℕ) :
    run (step find) start (List.replicate n .accept) =
      ⟨n % 2 ^ 64, n, (List.range n).map fun k ↦ ⟨k, k % 2 ^ 64, none, false⟩⟩ := by
  induction n with
  | zero => rfl
  | succ n ih =>
    rw [List.replicate_succ', run_append, ih, List.range_succ, List.map_append]
    simp [step, accept]

/-- The only listener of a source, after many connections. -/
theorem mem_clientTree_listen {n serial : ℕ} (h : serial < n)
    (find : List Connection → ℕ → Option Connection) (mount : String) (client : Connection) :
    client ∈ clientTree
        (run (step find) start (List.replicate n .accept ++ [.listen serial mount])) mount ↔
      client = ⟨serial, serial % 2 ^ 64, some mount, false⟩ := by
  rw [run_append, run_replicate_accept, run_cons, run_nil, clientTree, step, List.mem_filter,
    List.map_map, List.mem_map]
  constructor
  · rintro ⟨⟨k, -, rfl⟩, hmount⟩
    by_cases hk : k = serial
    · simp [hk]
    · simp [hk] at hmount
  · rintro rfl
    exact ⟨⟨serial, List.mem_range.mpr h, by simp⟩, by simp⟩

/-- The listener with the number `2 ^ 31` cannot be killed. -/
theorem large_id_not_selected :
    let s := run (step exampleFind) start
      (List.replicate (2 ^ 31 + 1) .accept ++ [.listen (2 ^ 31) "/stream"])
    (⟨2 ^ 31, 2 ^ 31, some "/stream", false⟩ : Connection) ∈ clientTree s "/stream" ∧
      selected exampleFind s "/stream" (printId (2 ^ 31)) = none ∧ ¬ KillsExactly exampleFind s := by
  intro s
  have hmem : ∀ client, client ∈ clientTree s "/stream" ↔
      client = ⟨2 ^ 31, 2 ^ 31, some "/stream", false⟩ :=
    mem_clientTree_listen (Nat.lt_succ_self (2 ^ 31)) exampleFind "/stream"
  have hkey : (atoi (printId (2 ^ 31)) % 2 ^ 64).toNat ≠ 2 ^ 31 := by
    rw [ne_eq, atoi_printId (by decide)]
    decide
  have hnone : selected exampleFind s "/stream" (printId (2 ^ 31)) = none := by
    rw [selected, sourceFindClient, exampleFind, List.find?_eq_none]
    intro client hclient
    rw [(hmem client).mp hclient]
    simpa using hkey.symm
  refine ⟨(hmem _).mpr rfl, hnone, ?_⟩
  intro hkills
  have hfound := hkills "/stream" _ ((hmem _).mpr rfl)
  rw [hnone] at hfound
  exact absurd hfound nofun

end Icecast.Admin.KillClient
