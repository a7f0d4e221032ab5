import Icecast.Lib.Heap
import Icecast.Lib.LinkedList

/-!
# The list of relays

When the configuration or the list of the master server is read again, `update_relays` goes through
the new entries. For each of them it takes a relay with the same settings out of the current list, or
makes a new one, and links it into a new list; what is left of the current list is shut down. The
objects of both lists are relinked in place.
-/

namespace Icecast.Slave

open Lib Lib.LinkedList

structure RelayServer where
  server : String
  port : ℤ
  mount : String
  username : Option String
  password : Option String
  localmount : String
  bind : Option String
  source : Option ℕ
  mp3metadata : ℤ
  onDemand : ℤ
  running : Bool
  cleanup : Bool
  start : ℕ
  thread : Option ℕ
  next : Option ℕ
  deriving DecidableEq

/-- The address that is bound for the connection is not copied. -/
def relayCopy (r : RelayServer) : RelayServer where
  server := r.server
  port := r.port
  mount := r.mount
  username := r.username
  password := r.password
  localmount := r.localmount
  bind := none
  source := none
  mp3metadata := r.mp3metadata
  onDemand := r.onDemand
  running := false
  cleanup := false
  start := 0
  thread := none
  next := none

/-- Whether the relay has to be restarted, and the old one afterwards. -/
def relayHasChanged (new old : RelayServer) : Bool × RelayServer :=
  if new.mount ≠ old.mount then (true, old)
  else if new.server ≠ old.server then (true, old)
  else if new.port ≠ old.port then (true, old)
  else if new.mp3metadata ≠ old.mp3metadata then (true, old)
  else if new.onDemand ≠ old.onDemand then (false, { old with onDemand := new.onDemand })
  else (false, old)

/-- A `relay_server **`: the variable of the current list, or the field of an object. -/
inductive Link where
  | current
  | next (id : ℕ)
  deriving DecidableEq

structure Lists where
  heap : Heap RelayServer
  current : Option ℕ
  newList : Option ℕ

def Lists.modify (s : Lists) (id : ℕ) (f : RelayServer → RelayServer) : Lists :=
  { s with heap := s.heap.modify id f }

def Lists.assign (s : Lists) (value : Option ℕ) : Link → Lists
  | .current => { s with current := value }
  | .next id => s.modify id ({ · with next := value })

def nextOf (heap : Heap RelayServer) (id : ℕ) : Option ℕ := (heap.objects id).bind (·.next)

/-- The inner loop: `existing_p` and `existing_relay` at its end. There is no result if an object is
gone or the list has no end. -/
def findExisting (relay : RelayServer) :
    ℕ → Heap RelayServer → Link → Option ℕ → Option (Heap RelayServer × Link × Option ℕ)
  | 0, _, _, _ => none
  | _ + 1, heap, existingP, none => some (heap, existingP, none)
  | fuel + 1, heap, existingP, some id =>
    match heap.objects id with
    | none => none
    | some existing =>
      if relay.localmount = existing.localmount then
        match relayHasChanged relay existing with
        | (false, existing) => some (heap.modify id fun _ ↦ existing, existingP, some id)
        | (true, _) => findExisting relay fuel heap (.next id) existing.next
      else findExisting relay fuel heap (.next id) existing.next

/-- What is done for an entry of the new configuration. -/
def updateRelay (relay : RelayServer) (s : Lists) : Option Lists :=
  match findExisting relay (s.heap.next + 1) s.heap .current s.current with
  | none => none
  | some (heap, _, none) =>
    let s := { s with heap := heap.alloc (relayCopy relay) }
    some { s.modify heap.next ({ · with next := s.newList }) with newList := some heap.next }
  | some (heap, existingP, some id) =>
    let s := { s with heap }.assign (nextOf heap id) existingP
    some { s.modify id ({ · with next := s.newList }) with newList := some id }

def updateRelaySet : ℕ → Option ℕ → Lists → Option Lists
  | 0, _, _ => none
  | _ + 1, none, s => some s
  | fuel + 1, some id, s =>
    match s.heap.objects id with
    | none => none
    | some relay =>
      match updateRelay relay s with
      | none => none
      | some s => updateRelaySet fuel (nextOf s.heap id) s

/-- The new list of relays and the relays to clean up. Lists cannot be longer than the number of
objects there are. -/
def updateRelays (heap : Heap RelayServer) (relayList newRelayList : Option ℕ) :
    Option (Heap RelayServer × Option ℕ × Option ℕ) :=
  match updateRelaySet (heap.next + 1) newRelayList ⟨heap, relayList, none⟩ with
  | none => none
  | some s => some (s.heap, s.newList, s.current)

/-! ## The search -/

/-- A relay does what an entry of the configuration says. -/
structure Follows (relay entry : RelayServer) : Prop where
  localmount : relay.localmount = entry.localmount
  mount : relay.mount = entry.mount
  server : relay.server = entry.server
  port : relay.port = entry.port
  mp3metadata : relay.mp3metadata = entry.mp3metadata
  onDemand : relay.onDemand = entry.onDemand

theorem relayHasChanged_follows {new old existing : RelayServer}
    (hlocal : new.localmount = old.localmount) (h : relayHasChanged new old = (false, existing)) :
    existing = { old with onDemand := new.onDemand } ∧ Follows existing new := by
  unfold relayHasChanged at h
  split_ifs at h with hmount hserver hport hmp3 hdemand
  iterate 4 · cases h
  · obtain rfl := (Prod.mk.inj h).2
    exact ⟨rfl, hlocal.symm, (not_not.mp hmount).symm, (not_not.mp hserver).symm,
      (not_not.mp hport).symm, (not_not.mp hmp3).symm, rfl⟩
  · obtain rfl := (Prod.mk.inj h).2
    exact ⟨by rw [not_not.mp hdemand], hlocal.symm, (not_not.mp hmount).symm,
      (not_not.mp hserver).symm, (not_not.mp hport).symm, (not_not.mp hmp3).symm,
      (not_not.mp hdemand).symm⟩

/-- The link behind a part of a list. -/
def linkBehind (link : Link) (front : List ℕ) : Link := front.getLast?.elim link .next

/-- The search ends at the end of the list, or at an object that follows the entry. -/
inductive Found (relay : RelayServer) (heap : Heap RelayServer) (link : Link) (nodes : List ℕ) :
    Heap RelayServer × Link × Option ℕ → Prop
  | none (existingP : Link) : Found relay heap link nodes (heap, existingP, none)
  | some (front : List ℕ) (id : ℕ) (back : List ℕ) (old : RelayServer)
    (hnodes : nodes = front ++ id :: back) (hold : heap.objects id = some old)
    (hfollows : Follows { old with onDemand := relay.onDemand } relay) :
    Found relay heap link nodes (heap.modify id fun _ ↦ { old with onDemand := relay.onDemand },
      linkBehind link front, some id)

theorem Found.behind {relay : RelayServer} {heap : Heap RelayServer} {link : Link} {id : ℕ}
    {nodes : List ℕ} {result : Heap RelayServer × Link × Option ℕ}
    (h : Found relay heap (.next id) nodes result) : Found relay heap link (id :: nodes) result := by
  cases h with
  | none existingP => exact .none existingP
  | some front other back old hnodes hold hfollows =>
    have hlink : linkBehind (.next id) front = linkBehind link (id :: front) := by
      unfold linkBehind
      rw [List.getLast?_cons]
      cases front.getLast? <;> rfl
    rw [hlink]
    exact .some (id :: front) other back old (by rw [hnodes, List.cons_append]) hold hfollows

theorem findExisting_found (relay : RelayServer) {heap : Heap RelayServer} {start : Option ℕ}
    {nodes : List ℕ} (hchain : Chain (nextOf heap) start nodes)
    (hlive : ∀ id ∈ nodes, (heap.objects id).isSome) {fuel : ℕ} (hfuel : nodes.length < fuel)
    (link : Link) :
    ∃ result, findExisting relay fuel heap link start = some result ∧
      Found relay heap link nodes result := by
  induction nodes generalizing start fuel link with
  | nil =>
    obtain ⟨fuel, rfl⟩ := Nat.exists_eq_add_of_lt hfuel
    rw [chain_nil.mp hchain, List.length_nil, Nat.zero_add]
    exact ⟨_, rfl, .none link⟩
  | cons id nodes ih =>
    obtain ⟨fuel, rfl⟩ : ∃ n, fuel = n + 1 := ⟨fuel - 1, by omega⟩
    obtain ⟨existing, hexisting⟩ := Option.isSome_iff_exists.mp (hlive id List.mem_cons_self)
    have hnext : existing.next = nextOf heap id := by rw [nextOf, hexisting, Option.bind_some]
    -- the search goes on behind this object
    have hbehind : ∃ result, findExisting relay fuel heap (.next id) existing.next = some result ∧
        Found relay heap link (id :: nodes) result := by
      rw [hnext]
      obtain ⟨result, hresult, hfound⟩ := ih hchain.2
        (fun other hother ↦ hlive other (List.mem_cons_of_mem id hother))
        (Nat.lt_of_succ_lt_succ hfuel) (.next id)
      exact ⟨result, hresult, hfound.behind⟩
    rw [hchain.1]
    simp only [findExisting, hexisting]
    split
    · rename_i hlocal
      cases hchanged : relayHasChanged relay existing with
      | mk changed existing' =>
        cases changed with
        | true => exact hbehind
        | false =>
          obtain ⟨rfl, hfollows⟩ := relayHasChanged_follows hlocal hchanged
          exact ⟨_, rfl, .some [] id nodes existing rfl hexisting hfollows⟩
    · exact hbehind

/-! ## One entry -/

/-- An object as it was, but for its link. -/
def Relinked (relay relay' : RelayServer) : Prop := relay' = { relay with next := relay'.next }

/-- What is done for an entry: a new object or one from the current list comes into the new list. -/
inductive Turned (relay : RelayServer) (s : Lists) (actives rest : List ℕ) (s' : Lists) :
    List ℕ → List ℕ → Prop
  | new (hnext : s'.heap.next = s.heap.next + 1)
    (hnew : s'.heap.objects s.heap.next = some { relayCopy relay with next := s.newList })
    (hothers : ∀ other, other ≠ s.heap.next → s'.heap.objects other = s.heap.objects other)
    (hactives : Chain (nextOf s'.heap) s'.newList (s.heap.next :: actives))
    (hrest : Chain (nextOf s'.heap) s'.current rest) :
    Turned relay s actives rest s' (s.heap.next :: actives) rest
  | kept (front : List ℕ) (id : ℕ) (back : List ℕ) (old : RelayServer)
    (hsplit : rest = front ++ id :: back) (hold : s.heap.objects id = some old)
    (hfollows : Follows { old with onDemand := relay.onDemand } relay)
    (hnext : s'.heap.next = s.heap.next)
    (hid : s'.heap.objects id = some { old with onDemand := relay.onDemand, next := s.newList })
    (hothers : ∀ other, other ∉ rest → s'.heap.objects other = s.heap.objects other)
    (hlinks : ∀ other ∈ front ++ back, ∀ found, s.heap.objects other = some found →
      ∃ found', s'.heap.objects other = some found' ∧ Relinked found found')
    (hactives : Chain (nextOf s'.heap) s'.newList (id :: actives))
    (hrest : Chain (nextOf s'.heap) s'.current (front ++ back)) :
    Turned relay s actives rest s' (id :: actives) (front ++ back)

theorem nextOf_congr {heap heap' : Heap RelayServer} {id : ℕ}
    (h : heap'.objects id = heap.objects id) : nextOf heap' id = nextOf heap id := by
  rw [nextOf, h, nextOf]

section Turn

variable {s : Lists} {actives rest : List ℕ}

theorem updateRelay_new (relay : RelayServer) (hcurrent : Chain (nextOf s.heap) s.current rest)
    (hnew : Chain (nextOf s.heap) s.newList actives)
    (hlive : ∀ id ∈ actives ++ rest, (s.heap.objects id).isSome) {link : Link}
    (hfind : findExisting relay (s.heap.next + 1) s.heap .current s.current =
      some (s.heap, link, none)) :
    ∃ s', updateRelay relay s = some s' ∧
      Turned relay s actives rest s' (s.heap.next :: actives) rest := by
  let heap' := (s.heap.alloc (relayCopy relay)).modify s.heap.next ({ · with next := s.newList })
  have hself : heap'.objects s.heap.next = some { relayCopy relay with next := s.newList } := by
    rw [Heap.objects_modify_self, Heap.objects_alloc_self, Option.map_some]
  have hothers (other : ℕ) (hother : other ≠ s.heap.next) :
      heap'.objects other = s.heap.objects other := by
    rw [Heap.objects_modify_of_ne _ _ hother, Heap.objects_alloc_of_ne _ _ hother]
  have hsame (other : ℕ) (hother : other ∈ actives ++ rest) :=
    nextOf_congr (hothers other (Heap.ne_next_of_isSome (hlive other hother)))
  refine ⟨{ s with heap := heap', newList := some s.heap.next }, by rw [updateRelay, hfind]; rfl, ?_⟩
  refine .new rfl hself hothers ?_ ?_
  · refine hnew.push ?_ fun other hother ↦ hsame other (List.mem_append_left _ hother)
    rw [nextOf, hself, Option.bind_some]
  · exact hcurrent.congr fun other hother ↦ hsame other (List.mem_append_right _ hother)

/-- The first relay of the current list is taken out. -/
theorem updateRelay_first (relay : RelayServer) {id : ℕ} {back : List ℕ} {old : RelayServer}
    (hcurrent : Chain (nextOf s.heap) s.current (id :: back))
    (hnew : Chain (nextOf s.heap) s.newList actives) (hnodup : (actives ++ id :: back).Nodup)
    (hold : s.heap.objects id = some old)
    (hfollows : Follows { old with onDemand := relay.onDemand } relay)
    (hfind : findExisting relay (s.heap.next + 1) s.heap .current s.current =
      some (s.heap.modify id fun _ ↦ { old with onDemand := relay.onDemand }, .current, some id)) :
    ∃ s', updateRelay relay s = some s' ∧
      Turned relay s actives (id :: back) s' (id :: actives) back := by
  let found := s.heap.modify id fun _ ↦ { old with onDemand := relay.onDemand }
  let heap' := found.modify id ({ · with next := s.newList })
  have hself : heap'.objects id =
      some { old with onDemand := relay.onDemand, next := s.newList } := by
    rw [Heap.objects_modify_self, Heap.objects_modify_self, hold, Option.map_some, Option.map_some]
  have hothers (other : ℕ) (hother : other ≠ id) :
      heap'.objects other = s.heap.objects other := by
    rw [Heap.objects_modify_of_ne _ _ hother, Heap.objects_modify_of_ne _ _ hother]
  have hsecond : nextOf found id = nextOf s.heap id := by
    rw [nextOf, Heap.objects_modify_self, nextOf, hold]
    rfl
  have hne (other : ℕ) (hother : other ∈ actives ++ back) : other ≠ id := by
    rintro rfl
    exact (List.nodup_cons.mp (List.perm_middle.nodup hnodup)).1 hother
  refine ⟨{ s with heap := heap', current := nextOf found id, newList := some id },
    by rw [updateRelay, hfind]; rfl, ?_⟩
  refine .kept [] id back old rfl hold hfollows rfl hself ?_ ?_ ?_ ?_
  · exact fun other hother ↦ hothers other fun heq ↦ hother (heq ▸ List.mem_cons_self)
  · intro other hother relay' hrelay'
    exact ⟨relay', (hothers other (hne other (List.mem_append_right _ hother))).trans hrelay', rfl⟩
  · refine hnew.push ?_ fun other hother ↦
      nextOf_congr (hothers other (hne other (List.mem_append_left _ hother)))
    rw [nextOf, hself, Option.bind_some]
  · rw [List.nil_append, hsecond]
    exact hcurrent.2.congr fun other hother ↦
      nextOf_congr (hothers other (hne other (List.mem_append_right _ hother)))

/-- Two neighbours in one list are different from each other and from everything else. -/
theorem apart_of_nodup {actives front back : List ℕ} {last id : ℕ}
    (h : (actives ++ (front ++ last :: id :: back)).Nodup) :
    id ≠ last ∧ id ∉ actives ++ (front ++ back) ∧ last ∉ actives ++ (front ++ back) := by
  have hperm : (id :: last :: (actives ++ (front ++ back))).Nodup := by
    refine List.Perm.nodup ?_ h
    calc (actives ++ (front ++ last :: id :: back)).Perm
          (actives ++ last :: id :: (front ++ back)) :=
          List.Perm.append_left actives
            (List.perm_middle.trans (List.Perm.cons last List.perm_middle))
      _ |>.Perm (last :: id :: (actives ++ (front ++ back))) :=
          List.perm_middle.trans (List.Perm.cons last List.perm_middle)
      _ |>.Perm (id :: last :: (actives ++ (front ++ back))) := List.Perm.swap _ _ _
  simp only [List.nodup_cons, List.mem_cons, not_or] at hperm
  exact ⟨hperm.1.1, hperm.1.2, hperm.2.1⟩

/-- A relay behind another one is taken out of the current list. -/
theorem updateRelay_behind (relay : RelayServer) {front back : List ℕ} {last id : ℕ}
    {old : RelayServer} (hcurrent : Chain (nextOf s.heap) s.current (front ++ last :: id :: back))
    (hnew : Chain (nextOf s.heap) s.newList actives)
    (hnodup : (actives ++ (front ++ last :: id :: back)).Nodup)
    (hlast : (s.heap.objects last).isSome) (hold : s.heap.objects id = some old)
    (hfollows : Follows { old with onDemand := relay.onDemand } relay)
    (hfind : findExisting relay (s.heap.next + 1) s.heap .current s.current =
      some (s.heap.modify id fun _ ↦ { old with onDemand := relay.onDemand }, .next last, some id)) :
    ∃ s', updateRelay relay s = some s' ∧
      Turned relay s actives (front ++ last :: id :: back) s' (id :: actives)
        (front ++ last :: back) := by
  obtain ⟨before, hbefore⟩ := Option.isSome_iff_exists.mp hlast
  obtain ⟨hidlast, hid, hlastothers⟩ := apart_of_nodup hnodup
  let found := s.heap.modify id fun _ ↦ { old with onDemand := relay.onDemand }
  let heap' := (found.modify last ({ · with next := nextOf found id })).modify id
    ({ · with next := s.newList })
  have hself : heap'.objects id =
      some { old with onDemand := relay.onDemand, next := s.newList } := by
    rw [Heap.objects_modify_self, Heap.objects_modify_of_ne _ _ hidlast,
      Heap.objects_modify_self, hold, Option.map_some, Option.map_some]
  have hlink : heap'.objects last = some { before with next := nextOf s.heap id } := by
    rw [Heap.objects_modify_of_ne _ _ (Ne.symm hidlast), Heap.objects_modify_self,
      Heap.objects_modify_of_ne _ _ (Ne.symm hidlast), hbefore, nextOf, Heap.objects_modify_self,
      nextOf, hold]
    rfl
  have hothers (other : ℕ) (hother : other ≠ id) (hother' : other ≠ last) :
      heap'.objects other = s.heap.objects other := by
    rw [Heap.objects_modify_of_ne _ _ hother, Heap.objects_modify_of_ne _ _ hother',
      Heap.objects_modify_of_ne _ _ hother]
  have hapart (other : ℕ) (hother : other ∈ actives ++ (front ++ back)) :
      heap'.objects other = s.heap.objects other :=
    hothers other (fun heq ↦ hid (heq ▸ hother)) fun heq ↦ hlastothers (heq ▸ hother)
  refine ⟨{ s with heap := heap', newList := some id }, by rw [updateRelay, hfind]; rfl, ?_⟩
  have hsplit : front ++ last :: id :: back = front ++ [last] ++ id :: back := by simp
  have hrest : front ++ last :: back = front ++ [last] ++ back := by simp
  rw [hrest]
  refine .kept (front ++ [last]) id back old hsplit hold hfollows rfl hself ?_ ?_ ?_ ?_
  · intro other hother
    exact hothers other (fun heq ↦ hother (by simp [heq])) fun heq ↦ hother (by simp [heq])
  · intro other hother relay' hrelay'
    by_cases heq : other = last
    · subst heq
      rw [Option.some.inj (hrelay'.symm.trans hbefore)]
      exact ⟨_, hlink, rfl⟩
    · have hmem : other ∈ actives ++ (front ++ back) := by
        refine List.mem_append_right _ ?_
        simpa [heq] using hother
      exact ⟨relay', (hapart other hmem).trans hrelay', rfl⟩
  · refine hnew.push ?_ fun other hother ↦
      nextOf_congr (hapart other (List.mem_append_left _ hother))
    rw [nextOf, hself, Option.bind_some]
  · rw [← hrest]
    refine hcurrent.unlink ?_ fun other hother ↦
      nextOf_congr (hapart other (List.mem_append_right _ hother))
    rw [nextOf, hlink, Option.bind_some]

theorem updateRelay_turned (relay : RelayServer) (hcurrent : Chain (nextOf s.heap) s.current rest)
    (hnew : Chain (nextOf s.heap) s.newList actives) (hnodup : (actives ++ rest).Nodup)
    (hlive : ∀ id ∈ actives ++ rest, (s.heap.objects id).isSome) :
    ∃ s' actives' rest', updateRelay relay s = some s' ∧
      Turned relay s actives rest s' actives' rest' := by
  have hrest (id : ℕ) (hid : id ∈ rest) := hlive id (List.mem_append_right _ hid)
  have hlength := Heap.length_le_next hcurrent.nodup hrest
  obtain ⟨result, hfind, hfound⟩ := findExisting_found relay hcurrent hrest
    (Nat.lt_succ_of_le hlength) .current
  cases hfound with
  | none existingP =>
    obtain ⟨s', hs', hturned⟩ := updateRelay_new relay hcurrent hnew hlive hfind
    exact ⟨s', _, _, hs', hturned⟩
  | some front id back old hnodes hold hfollows =>
    subst hnodes
    rcases List.eq_nil_or_concat front with rfl | ⟨front, last, rfl⟩
    · obtain ⟨s', hs', hturned⟩ :=
        updateRelay_first relay hcurrent hnew hnodup hold hfollows hfind
      exact ⟨s', _, _, hs', hturned⟩
    · have hlink : linkBehind .current (front.concat last) = .next last := by simp [linkBehind]
      rw [hlink] at hfind
      simp only [List.concat_eq_append, List.append_assoc, List.singleton_append] at *
      obtain ⟨s', hs', hturned⟩ := updateRelay_behind relay hcurrent hnew hnodup
        (hrest last (by simp)) hold hfollows hfind
      exact ⟨s', _, _, hs', hturned⟩

end Turn

/-! ## All entries -/

/-- The object of a relay that is kept. Its source, its thread and its state stay as they are. -/
def Kept (old relay : RelayServer) : Prop :=
  relay = { old with onDemand := relay.onDemand, next := relay.next }

/-- What has become of the current list: every object of it is among the relays that go on or among
those to clean up, and no object is there twice. The relays that go on follow the entries of the
configuration one by one; those that are not kept are new objects. -/
structure Partitioned (heap heap' : Heap RelayServer) (olds actives cleanups : List ℕ)
    (entries : List RelayServer) : Prop where
  nodup : (actives ++ cleanups).Nodup
  split : ∀ id ∈ olds, id ∈ actives ∨ id ∈ cleanups
  cleanup : ∀ id ∈ cleanups, id ∈ olds
  follows : ∃ relays : List RelayServer, actives.map heap'.objects = relays.map some ∧
    List.Forall₂ Follows relays entries
  kept : ∀ id ∈ olds, ∀ old, heap.objects id = some old →
    ∃ relay, heap'.objects id = some relay ∧ Kept old relay
  unchanged : ∀ id ∈ cleanups, ∀ old, heap.objects id = some old →
    ∃ relay, heap'.objects id = some relay ∧ Relinked old relay
  fresh : ∀ id ∈ actives, id ∉ olds → heap.next ≤ id ∧ ∃ relay, heap'.objects id = some relay ∧
    relay.source = none ∧ relay.thread = none ∧ relay.running = false
  others : ∀ id, id < heap.next → id ∉ olds → heap'.objects id = heap.objects id

theorem relayCopy_follows (entry : RelayServer) (next : Option ℕ) :
    Follows { relayCopy entry with next } entry := ⟨rfl, rfl, rfl, rfl, rfl, rfl⟩

theorem Relinked.kept {old relay : RelayServer} (h : Relinked old relay) : Kept old relay := by
  have hdemand : relay.onDemand = old.onDemand := by rw [h]
  rw [Kept, hdemand]
  exact h

theorem Kept.relinked {old relay relay' : RelayServer} (h : Kept old relay)
    (h' : Relinked relay relay') : Kept old relay' := by
  have hdemand : relay'.onDemand = relay.onDemand := by rw [h']
  rw [Kept, hdemand]
  exact Eq.trans h' (by rw [h])

theorem Relinked.trans {old relay relay' : RelayServer} (h : Relinked old relay)
    (h' : Relinked relay relay') : Relinked old relay' := Eq.trans h' (by rw [h])

section Loop

variable {heap : Heap RelayServer} {olds : List ℕ} {s s' : Lists} {actives rest : List ℕ}
  {entries : List RelayServer}

theorem Partitioned.live (h : Partitioned heap s.heap olds actives rest entries)
    (holds : ∀ id ∈ olds, (heap.objects id).isSome) :
    ∀ id ∈ actives ++ rest, (s.heap.objects id).isSome := by
  have hkept (id : ℕ) (hid : id ∈ olds) : (s.heap.objects id).isSome := by
    obtain ⟨old, hold⟩ := Option.isSome_iff_exists.mp (holds id hid)
    obtain ⟨relay, hrelay, -⟩ := h.kept id hid old hold
    rw [hrelay, Option.isSome_some]
  intro id hid
  cases List.mem_append.mp hid with
  | inl hactive =>
    by_cases hold : id ∈ olds
    · exact hkept id hold
    · obtain ⟨-, relay, hrelay, -⟩ := h.fresh id hactive hold
      rw [hrelay, Option.isSome_some]
  | inr hrest => exact hkept id (h.cleanup id hrest)

theorem Partitioned.new (h : Partitioned heap s.heap olds actives rest entries)
    (holds : ∀ id ∈ olds, (heap.objects id).isSome) (hnext : heap.next ≤ s.heap.next)
    {entry : RelayServer} {next : Option ℕ}
    (hnew : s'.heap.objects s.heap.next = some { relayCopy entry with next })
    (hothers : ∀ other, other ≠ s.heap.next → s'.heap.objects other = s.heap.objects other) :
    Partitioned heap s'.heap olds (s.heap.next :: actives) rest (entry :: entries) := by
  have hlive := h.live holds
  have hsame (id : ℕ) (hid : id < heap.next) : s'.heap.objects id = s.heap.objects id :=
    hothers id (by omega)
  have hold (id : ℕ) (hid : id ∈ olds) : s'.heap.objects id = s.heap.objects id := by
    obtain ⟨old, hold⟩ := Option.isSome_iff_exists.mp (holds id hid)
    exact hsame id (Heap.lt_next_of_objects hold)
  refine ⟨?_, ?_, h.cleanup, ?_, ?_, ?_, ?_, ?_⟩
  · refine List.nodup_cons.mpr ⟨fun hmem ↦ ?_, h.nodup⟩
    exact Heap.ne_next_of_isSome (hlive _ hmem) rfl
  · exact fun id hid ↦ (h.split id hid).imp_left (List.mem_cons_of_mem _)
  · obtain ⟨relays, hrelays, hfollows⟩ := h.follows
    refine ⟨_ :: relays, ?_, .cons (relayCopy_follows entry next) hfollows⟩
    rw [List.map_cons, List.map_cons, hnew, ← hrelays]
    congr 1
    apply List.map_congr_left
    intro id hid
    exact hothers id (Heap.ne_next_of_isSome (hlive id (List.mem_append_left _ hid)))
  · intro id hid old hobject
    rw [hold id hid]
    exact h.kept id hid old hobject
  · intro id hid old hobject
    rw [hold id (h.cleanup id hid)]
    exact h.unchanged id hid old hobject
  · intro id hid hnot
    cases List.mem_cons.mp hid with
    | inl heq =>
      rw [heq]
      exact ⟨hnext, _, hnew, rfl, rfl, rfl⟩
    | inr hactive =>
      rw [hothers id (Heap.ne_next_of_isSome (hlive id (List.mem_append_left _ hactive)))]
      exact h.fresh id hactive hnot
  · intro id hid hnot
    rw [hsame id hid]
    exact h.others id hid hnot

theorem Partitioned.take {front back : List ℕ} {id : ℕ}
    (h : Partitioned heap s.heap olds actives (front ++ id :: back) entries)
    {entry old : RelayServer} {next : Option ℕ} (hold : s.heap.objects id = some old)
    (hfollows : Follows { old with onDemand := entry.onDemand } entry)
    (hid : s'.heap.objects id = some { old with onDemand := entry.onDemand, next })
    (hothers : ∀ other, other ∉ front ++ id :: back → s'.heap.objects other = s.heap.objects other)
    (hlinks : ∀ other ∈ front ++ back, ∀ found, s.heap.objects other = some found →
      ∃ found', s'.heap.objects other = some found' ∧ Relinked found found') :
    Partitioned heap s'.heap olds (id :: actives) (front ++ back) (entry :: entries) := by
  have hidold : id ∈ olds := h.cleanup id (by simp)
  have hrest (other : ℕ) (hother : other ∈ front ++ back) : other ∈ front ++ id :: back := by
    rw [List.mem_append, List.mem_cons]
    exact (List.mem_append.mp hother).imp_right Or.inr
  have hactive (other : ℕ) (hother : other ∈ actives) :
      s'.heap.objects other = s.heap.objects other :=
    hothers other fun hmem ↦ List.disjoint_of_nodup_append h.nodup hother hmem
  refine ⟨?_, ?_, fun other hother ↦ h.cleanup other (hrest other hother), ?_, ?_, ?_, ?_, ?_⟩
  · refine List.Perm.nodup ?_ h.nodup
    exact (List.Perm.append_left actives List.perm_middle).trans List.perm_middle
  · intro other hother
    rcases h.split other hother with hmem | hmem
    · exact Or.inl (List.mem_cons_of_mem _ hmem)
    · rw [List.mem_append, List.mem_cons] at hmem
      rw [List.mem_cons, List.mem_append]
      tauto
  · obtain ⟨relays, hrelays, hall⟩ := h.follows
    refine ⟨_ :: relays, ?_, .cons (a := { old with onDemand := entry.onDemand, next }) ?_ hall⟩
    · rw [List.map_cons, List.map_cons, hid, ← hrelays, List.map_congr_left hactive]
    · exact ⟨hfollows.localmount, hfollows.mount, hfollows.server, hfollows.port,
        hfollows.mp3metadata, hfollows.onDemand⟩
  · intro other hother before hbefore
    obtain ⟨relay, hrelay, hkept⟩ := h.kept other hother before hbefore
    by_cases heq : other = id
    · subst heq
      obtain rfl := Option.some.inj (hrelay.symm.trans hold)
      exact ⟨_, hid, by rw [Kept, hkept]⟩
    · by_cases hmem : other ∈ front ++ back
      · obtain ⟨relay', hrelay', hrelinked⟩ := hlinks other hmem relay hrelay
        exact ⟨relay', hrelay', hkept.relinked hrelinked⟩
      · have hnot : other ∉ front ++ id :: back := by
          rw [List.mem_append] at hmem
          rw [List.mem_append, List.mem_cons]
          tauto
        exact ⟨relay, (hothers other hnot).trans hrelay, hkept⟩
  · intro other hother before hbefore
    obtain ⟨relay, hrelay, hsame⟩ := h.unchanged other (hrest other hother) before hbefore
    obtain ⟨relay', hrelay', hrelinked⟩ := hlinks other hother relay hrelay
    exact ⟨relay', hrelay', hsame.trans hrelinked⟩
  · intro other hother hnot
    cases List.mem_cons.mp hother with
    | inl heq => exact absurd (heq ▸ hidold) hnot
    | inr hmem =>
      rw [hactive other hmem]
      exact h.fresh other hmem hnot
  · intro other hlt hnot
    rw [hothers other fun hmem ↦ hnot (h.cleanup other hmem)]
    exact h.others other hlt hnot

/-- The state of the outer loop. -/
structure Inv (heap : Heap RelayServer) (olds : List ℕ) (entries : List RelayServer) (s : Lists)
    (actives rest : List ℕ) : Prop where
  current : Chain (nextOf s.heap) s.current rest
  newList : Chain (nextOf s.heap) s.newList actives
  next : heap.next ≤ s.heap.next
  partitioned : Partitioned heap s.heap olds actives rest entries

theorem Inv.turned {actives' rest' : List ℕ} {entry : RelayServer}
    (h : Inv heap olds entries s actives rest) (holds : ∀ id ∈ olds, (heap.objects id).isSome)
    (hturned : Turned entry s actives rest s' actives' rest') :
    Inv heap olds (entry :: entries) s' actives' rest' := by
  cases hturned with
  | new hnext hnew hothers hactives hrest =>
    exact ⟨hrest, hactives, by rw [hnext]; exact Nat.le_succ_of_le h.next,
      h.partitioned.new holds h.next hnew hothers⟩
  | kept front id back old hsplit hold hfollows hnext hid hothers hlinks hactives hrest =>
    subst hsplit
    exact ⟨hrest, hactives, by rw [hnext]; exact h.next,
      h.partitioned.take hold hfollows hid hothers hlinks⟩

theorem Inv.turn (h : Inv heap olds entries s actives rest)
    (holds : ∀ id ∈ olds, (heap.objects id).isSome) (entry : RelayServer) :
    ∃ s' actives' rest', updateRelay entry s = some s' ∧
      Inv heap olds (entry :: entries) s' actives' rest' := by
  obtain ⟨s', actives', rest', hs', hturned⟩ := updateRelay_turned entry h.current h.newList
    h.partitioned.nodup (h.partitioned.live holds)
  exact ⟨s', actives', rest', hs', h.turned holds hturned⟩

/-- The induction rule for the outer loop. The objects of the configuration are not touched. -/
theorem updateRelaySet_loop {P : List RelayServer → Lists → List ℕ → List ℕ → Prop} {news : List ℕ}
    (hstep : ∀ {entries s actives rest} entry, P entries s actives rest →
      ∃ s' actives' rest', updateRelay entry s = some s' ∧ P (entry :: entries) s' actives' rest')
    (hsame : ∀ {entries s actives rest}, P entries s actives rest →
      ∀ id ∈ news, s.heap.objects id = heap.objects id)
    {updated : Option ℕ} (hupdated : Chain (nextOf heap) updated news)
    (hnews : ∀ id ∈ news, (heap.objects id).isSome) (h : P entries s actives rest) {fuel : ℕ}
    (hfuel : news.length < fuel) :
    ∃ s' actives' rest', updateRelaySet fuel updated s = some s' ∧
      P ((news.filterMap heap.objects).reverse ++ entries) s' actives' rest' := by
  induction news generalizing updated s actives rest entries fuel with
  | nil =>
    obtain ⟨fuel, rfl⟩ : ∃ n, fuel = n + 1 := ⟨fuel - 1, by omega⟩
    rw [chain_nil.mp hupdated]
    exact ⟨s, actives, rest, rfl, h⟩
  | cons id news ih =>
    obtain ⟨fuel, rfl⟩ : ∃ n, fuel = n + 1 := ⟨fuel - 1, by omega⟩
    obtain ⟨entry, hentry⟩ := Option.isSome_iff_exists.mp (hnews id List.mem_cons_self)
    obtain ⟨s', actives', rest', hs', h'⟩ := hstep entry h
    have hnext : nextOf s'.heap id = nextOf heap id := nextOf_congr (hsame h' id List.mem_cons_self)
    obtain ⟨s'', actives'', rest'', hs'', h''⟩ := ih
      (fun h other hother ↦ hsame h other (List.mem_cons_of_mem id hother)) hupdated.2
      (fun other hother ↦ hnews other (List.mem_cons_of_mem id hother)) h'
      (Nat.lt_of_succ_lt_succ hfuel)
    refine ⟨s'', actives'', rest'', ?_, ?_⟩
    · rw [hupdated.1, updateRelaySet, hsame h id List.mem_cons_self, hentry]
      dsimp only
      rw [hs']
      dsimp only
      rw [hnext, hs'']
    · rw [List.filterMap_cons_some hentry, List.reverse_cons, List.append_assoc]
      exact h''

theorem Inv.start {relayList : Option ℕ} (holds : Chain (nextOf heap) relayList olds) :
    Inv heap olds [] ⟨heap, relayList, none⟩ [] olds := by
  refine ⟨holds, rfl, Nat.le_refl _, ?_⟩
  refine ⟨holds.nodup, fun id hid ↦ Or.inr hid, fun id hid ↦ hid, ⟨[], rfl, .nil⟩, ?_, ?_, nofun, ?_⟩
  · exact fun id hid old hobject ↦ ⟨old, hobject, rfl⟩
  · exact fun id hid old hobject ↦ ⟨old, hobject, rfl⟩
  · exact fun id hlt hnot ↦ rfl

/-- The entries of the configuration are as they were. -/
theorem Inv.same {news : List ℕ} (h : Inv heap olds entries s actives rest)
    (hnews : ∀ id ∈ news, (heap.objects id).isSome) (hdisjoint : olds.Disjoint news) :
    ∀ id ∈ news, s.heap.objects id = heap.objects id := by
  intro id hid
  obtain ⟨entry, hentry⟩ := Option.isSome_iff_exists.mp (hnews id hid)
  exact h.partitioned.others id (Heap.lt_next_of_objects hentry) fun hold ↦ hdisjoint hold hid

end Loop

/-! ## The result -/

/-- `update_relays` ends, and every relay of the old list either goes on or is cleaned up. -/
theorem update_relays_partitions (heap : Heap RelayServer) (relayList newRelayList : Option ℕ)
    (olds news : List ℕ) (holds : Chain (nextOf heap) relayList olds)
    (hnews : Chain (nextOf heap) newRelayList news)
    (hlive : ∀ id ∈ olds ++ news, (heap.objects id).isSome) (hdisjoint : olds.Disjoint news) :
    ∃ heap' relays cleanup actives cleanups,
      updateRelays heap relayList newRelayList = some (heap', relays, cleanup) ∧
      Chain (nextOf heap') relays actives ∧ Chain (nextOf heap') cleanup cleanups ∧
      Partitioned heap heap' olds actives cleanups (news.filterMap heap.objects).reverse := by
  have hold (id : ℕ) (hid : id ∈ olds) := hlive id (List.mem_append_left _ hid)
  have hnew (id : ℕ) (hid : id ∈ news) := hlive id (List.mem_append_right _ hid)
  have hlength := Heap.length_le_next hnews.nodup hnew
  obtain ⟨s, actives, cleanups, hs, hinv⟩ := updateRelaySet_loop (fun entry h ↦ h.turn hold entry)
    (fun h ↦ h.same hnew hdisjoint) hnews hnew (Inv.start holds) (Nat.lt_succ_of_le hlength)
  rw [List.append_nil] at hinv
  refine ⟨s.heap, s.newList, s.current, actives, cleanups, ?_, hinv.newList, hinv.current,
    hinv.partitioned⟩
  rw [updateRelays, hs]

def exampleRelay (localmount : String) (onDemand : ℤ) (source next : Option ℕ) : RelayServer where
  server := "localhost"
  port := 8000
  mount := "/stream"
  username := none
  password := none
  localmount
  bind := none
  source
  mp3metadata := 1
  onDemand
  running := source.isSome
  cleanup := false
  start := 0
  thread := source
  next

/-- Two running relays, and a configuration that has the second one and a new one. -/
def exampleRelays : Heap RelayServer :=
  (((Heap.empty.alloc (exampleRelay "/first" 0 (some 7) (some 1))).alloc
    (exampleRelay "/second" 0 (some 8) none)).alloc
      (exampleRelay "/second" 1 none (some 3))).alloc (exampleRelay "/third" 0 none none)

theorem update_relays_partitions_example :
    (updateRelays exampleRelays (some 0) (some 2)).map (fun result ↦ result.2) =
        some (some 4, some 0) ∧
      ∃ heap' relays cleanup actives cleanups,
        updateRelays exampleRelays (some 0) (some 2) = some (heap', relays, cleanup) ∧
        Chain (nextOf heap') relays actives ∧ Chain (nextOf heap') cleanup cleanups ∧
        Partitioned exampleRelays heap' [0, 1] actives cleanups
          ([2, 3].filterMap exampleRelays.objects).reverse :=
  ⟨by decide, update_relays_partitions exampleRelays (some 0) (some 2) [0, 1] [2, 3]
    ⟨rfl, rfl, rfl⟩ ⟨rfl, rfl, rfl⟩ (by decide) (by simp)⟩

end Icecast.Slave
