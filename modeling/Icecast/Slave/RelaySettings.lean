import Icecast.Auth.AccessControl
import Icecast.Slave.Relays

/-!
# Whether relays have the settings of their entries

Three functions have to agree on what the settings of a relay are: the parser of the configuration
(`cfgfile.c`), the copy that is made for a new relay and the test for changes (`slave.c`). The parser
knows all of them. The copy leaves out the address to bind, and the test does not look at the
address, the user name or the password, so that a relay that goes on keeps those it has.

What `update_relays` makes of the two lists is said first without pointers: `relaysFor` are the relays
of the new list (`updateRelaySet_values`).
-/

namespace Icecast.Slave

open Auth (utilStrToBool)
open Lib Lib.Decimal Lib.LinkedList

/-! ## The parser -/

/-- The texts of an entry while `_parse_relay` reads it; an element without a text gives `none`. -/
structure RelayEntry where
  server : Option String
  port : ℤ
  mount : Option String
  localmount : Option String
  username : Option String
  password : Option String
  bind : Option String
  mp3metadata : ℤ
  onDemand : ℤ

def readInt (text : Option String) (value : ℤ) : ℤ :=
  match text with
  | none => value
  | some text => if text = "" then value else atoi text

def boolValue (text : Option String) : ℤ := if text.any utilStrToBool then 1 else 0

def parseRelayNode (relay : RelayEntry) (node : String × Option String) : RelayEntry :=
  if node.1 = "server" then { relay with server := node.2 }
  else if node.1 = "port" then { relay with port := readInt node.2 relay.port }
  else if node.1 = "mount" then { relay with mount := node.2 }
  else if node.1 = "local-mount" then { relay with localmount := node.2 }
  else if node.1 = "relay-shoutcast-metadata" then { relay with mp3metadata := boolValue node.2 }
  else if node.1 = "username" then { relay with username := node.2 }
  else if node.1 = "password" then { relay with password := node.2 }
  else if node.1 = "on-demand" then { relay with onDemand := boolValue node.2 }
  else if node.1 = "bind" then { relay with bind := node.2 }
  else relay

/-- `_parse_relay`. There is no entry to compare with anything if the server or the mount is `NULL`. -/
def parseRelay (onDemand : ℤ) (nodes : List (String × Option String)) : Option RelayServer :=
  let start : RelayEntry := ⟨some "127.0.0.1", 0, some "/", none, none, none, none, 1, onDemand⟩
  let relay := nodes.foldl parseRelayNode start
  match relay.server, relay.mount with
  | some server, some mount => some {
      server
      port := relay.port
      mount
      username := relay.username
      password := relay.password
      localmount := relay.localmount.getD mount
      bind := relay.bind
      source := none
      mp3metadata := relay.mp3metadata
      onDemand := relay.onDemand
      running := false
      cleanup := false
      start := 0
      thread := none
      next := none }
  | _, _ => none

/-! ## The new list without pointers -/

/-- The relay is kept for the entry. -/
def serves (entry relay : RelayServer) : Bool :=
  entry.localmount = relay.localmount && entry.mount = relay.mount && entry.server = relay.server &&
    entry.port = relay.port && entry.mp3metadata = relay.mp3metadata

/-- For each entry the first relay that is left and serves it, or else a copy. -/
def relaysFor : List RelayServer → List RelayServer → List RelayServer
  | _, [] => []
  | current, entry :: entries =>
    match current.find? (serves entry) with
    | some old =>
      { old with onDemand := entry.onDemand } :: relaysFor (current.eraseP (serves entry)) entries
    | none => relayCopy entry :: relaysFor current entries

def RelayServer.unlinked (relay : RelayServer) : RelayServer := { relay with next := none }

/-- The objects of a list, but for their links. -/
def valuesOf (heap : Heap RelayServer) (ids : List ℕ) : List RelayServer :=
  ids.filterMap fun id ↦ (heap.objects id).map RelayServer.unlinked

@[simp] theorem serves_unlinked (entry relay : RelayServer) :
    serves entry relay.unlinked = serves entry relay := rfl

theorem relayHasChanged_fst {entry relay : RelayServer}
    (hlocal : entry.localmount = relay.localmount) :
    (relayHasChanged entry relay).1 = !serves entry relay := by
  unfold relayHasChanged serves
  split_ifs <;> simp_all

theorem valuesOf_cons {heap : Heap RelayServer} {id : ℕ} {relay : RelayServer}
    (h : heap.objects id = some relay) (ids : List ℕ) :
    valuesOf heap (id :: ids) = relay.unlinked :: valuesOf heap ids := by
  simp [valuesOf, h]

theorem valuesOf_append (heap : Heap RelayServer) (front back : List ℕ) :
    valuesOf heap (front ++ back) = valuesOf heap front ++ valuesOf heap back := by
  exact List.filterMap_append

theorem valuesOf_congr {heap heap' : Heap RelayServer} {ids : List ℕ}
    (h : ∀ id ∈ ids, heap'.objects id = heap.objects id) : valuesOf heap' ids = valuesOf heap ids := by
  apply List.filterMap_congr
  intro id hid
  rw [h id hid]

/-- Relinking does not change the values. -/
theorem valuesOf_relinked {heap heap' : Heap RelayServer} {ids : List ℕ}
    (hlive : ∀ id ∈ ids, (heap.objects id).isSome)
    (h : ∀ id ∈ ids, ∀ found, heap.objects id = some found →
      ∃ found', heap'.objects id = some found' ∧ Relinked found found') :
    valuesOf heap' ids = valuesOf heap ids := by
  apply List.filterMap_congr
  intro id hid
  obtain ⟨found, hfound⟩ := Option.isSome_iff_exists.mp (hlive id hid)
  obtain ⟨found', hfound', hrelinked⟩ := h id hid found hfound
  rw [hfound, hfound', Option.map_some, Option.map_some, hrelinked]
  rfl

/-! ## The search -/

/-- The object is kept for the entry. -/
def servesAt (entry : RelayServer) (heap : Heap RelayServer) (id : ℕ) : Bool :=
  (heap.objects id).any (serves entry)

/-- The search finds the first object that serves the entry. -/
theorem findExisting_find (entry : RelayServer) {heap : Heap RelayServer} {start : Option ℕ}
    {nodes : List ℕ} (hchain : Chain (nextOf heap) start nodes)
    (hlive : ∀ id ∈ nodes, (heap.objects id).isSome) {fuel : ℕ} (hfuel : nodes.length < fuel)
    (link : Link) :
    ∃ heap' link', heap'.next = heap.next ∧ findExisting entry fuel heap link start =
      some (heap', link', nodes.find? (servesAt entry heap)) := by
  induction nodes generalizing start fuel link with
  | nil =>
    obtain ⟨fuel, rfl⟩ : ∃ n, fuel = n + 1 := ⟨fuel - 1, by omega⟩
    rw [chain_nil.mp hchain]
    exact ⟨heap, link, rfl, rfl⟩
  | cons id nodes ih =>
    obtain ⟨fuel, rfl⟩ : ∃ n, fuel = n + 1 := ⟨fuel - 1, by omega⟩
    obtain ⟨existing, hexisting⟩ := Option.isSome_iff_exists.mp (hlive id List.mem_cons_self)
    have hnext : existing.next = nextOf heap id := by rw [nextOf, hexisting, Option.bind_some]
    have hserves : servesAt entry heap id = serves entry existing := by
      rw [servesAt, hexisting, Option.any_some]
    have hbehind := ih hchain.2 (fun other hother ↦ hlive other (List.mem_cons_of_mem id hother))
      (Nat.lt_of_succ_lt_succ hfuel) (.next id)
    rw [hchain.1, List.find?_cons, hserves]
    simp only [findExisting, hexisting]
    by_cases hlocal : entry.localmount = existing.localmount
    · rw [if_pos hlocal]
      have hchanged := relayHasChanged_fst hlocal
      cases hresult : relayHasChanged entry existing with
      | mk changed existing' =>
        rw [hresult] at hchanged
        cases hkept : serves entry existing with
        | true =>
          simp only [hkept, Bool.not_true] at hchanged
          subst hchanged
          exact ⟨heap.modify id fun _ ↦ existing', link, rfl, rfl⟩
        | false =>
          simp only [hkept, Bool.not_false] at hchanged
          subst hchanged
          rw [hnext]
          exact hbehind
    · have hkept : serves entry existing = false := by simp [serves, hlocal]
      rw [if_neg hlocal, hkept, hnext]
      exact hbehind

theorem find?_valuesOf (entry : RelayServer) (heap : Heap RelayServer) (ids : List ℕ) :
    (valuesOf heap ids).find? (serves entry) =
      (ids.find? (servesAt entry heap)).bind fun id ↦
        (heap.objects id).map RelayServer.unlinked := by
  induction ids with
  | nil => rfl
  | cons id ids ih =>
    unfold valuesOf servesAt at *
    cases hobject : heap.objects id with
    | none => simp [hobject, ih]
    | some relay =>
      cases hserves : serves entry relay with
      | true => simp [hobject, hserves]
      | false => simp [hobject, hserves, ih]

/-! ## One entry -/

section Turn

variable {entry : RelayServer} {s s' : Lists} {actives rest actives' rest' : List ℕ}

/-- The object that comes into the new list is the one that was found, if there was one. -/
theorem updateRelay_newList (hcurrent : Chain (nextOf s.heap) s.current rest)
    (hlive : ∀ id ∈ rest, (s.heap.objects id).isSome) (hs' : updateRelay entry s = some s') :
    s'.newList = some ((rest.find? (servesAt entry s.heap)).getD s.heap.next) := by
  have hlength := Heap.length_le_next hcurrent.nodup hlive
  obtain ⟨heap', link', hnext, hfind⟩ := findExisting_find entry hcurrent hlive
    (Nat.lt_succ_of_le hlength) .current
  unfold updateRelay at hs'
  rw [hfind] at hs'
  cases hfound : rest.find? (servesAt entry s.heap) with
  | none =>
    rw [hfound] at hs'
    obtain rfl := Option.some.inj hs'
    simp [hnext]
  | some id =>
    rw [hfound] at hs'
    obtain rfl := Option.some.inj hs'
    rfl

/-- The entry gets a copy: no relay that was left serves it. -/
theorem find?_of_new (hcurrent : Chain (nextOf s.heap) s.current rest)
    (hlive : ∀ id ∈ rest, (s.heap.objects id).isSome) (hs' : updateRelay entry s = some s')
    (hnew : s'.newList = some s.heap.next) : rest.find? (servesAt entry s.heap) = none := by
  cases hfound : rest.find? (servesAt entry s.heap) with
  | none => rfl
  | some id =>
    have hlist := updateRelay_newList hcurrent hlive hs'
    rw [hnew, hfound] at hlist
    have heq : s.heap.next = id := Option.some.inj hlist
    exact absurd heq.symm (Heap.ne_next_of_isSome (hlive id (List.mem_of_find?_eq_some hfound)))

/-- The relay that is kept is the first one that serves the entry. -/
theorem find?_of_kept {front back : List ℕ} {id : ℕ}
    (hcurrent : Chain (nextOf s.heap) s.current (front ++ id :: back))
    (hlive : ∀ other ∈ front ++ id :: back, (s.heap.objects other).isSome)
    (hs' : updateRelay entry s = some s') (hkept : s'.newList = some id) :
    servesAt entry s.heap id = true ∧ ∀ other ∈ front, servesAt entry s.heap other = false := by
  have hlist := updateRelay_newList hcurrent hlive hs'
  rw [hkept] at hlist
  cases hfound : (front ++ id :: back).find? (servesAt entry s.heap) with
  | none =>
    rw [hfound] at hlist
    have heq : id = s.heap.next := Option.some.inj hlist
    exact absurd heq (Heap.ne_next_of_isSome (hlive id (by simp)))
  | some found =>
    rw [hfound] at hlist
    obtain rfl : id = found := Option.some.inj hlist
    obtain ⟨hserves, earlier, later, hsplit, hearlier⟩ := List.find?_eq_some_iff_append.mp hfound
    have hnodup := hcurrent.nodup
    have hfront : front = earlier := by
      have hnotfront : id ∉ front := fun hmem ↦
        List.disjoint_of_nodup_append hnodup hmem List.mem_cons_self
      have hnotback : id ∉ back := (List.nodup_cons.mp hnodup.of_append_right).1
      exact (List.append_cons_inj_of_notMem hnotfront hnotback |>.mp hsplit).1
    refine ⟨hserves, fun other hother ↦ ?_⟩
    simpa using hearlier other (hfront ▸ hother)

/-- One turn of the loop does one step of `relaysFor`. -/
theorem Turned.values (hturned : Turned entry s actives rest s' actives' rest')
    (hcurrent : Chain (nextOf s.heap) s.current rest) (hnodup : (actives ++ rest).Nodup)
    (hlive : ∀ id ∈ actives ++ rest, (s.heap.objects id).isSome)
    (hs' : updateRelay entry s = some s') :
    ∃ relay, valuesOf s'.heap actives' = relay :: valuesOf s.heap actives ∧ ∀ entries,
      relaysFor (valuesOf s.heap rest) (entry :: entries) =
        relay :: relaysFor (valuesOf s'.heap rest') entries := by
  have hrestlive (id : ℕ) (hid : id ∈ rest) := hlive id (List.mem_append_right _ hid)
  cases hturned with
  | new hnext hnew hothers hactives hrest =>
    have hsame (id : ℕ) (hid : id ∈ actives ++ rest) :=
      hothers id (Heap.ne_next_of_isSome (hlive id hid))
    have hnone := find?_of_new hcurrent hrestlive hs' hactives.1
    refine ⟨relayCopy entry, ?_, ?_⟩
    · rw [valuesOf_cons hnew,
        valuesOf_congr fun id hid ↦ hsame id (List.mem_append_left _ hid)]
      rfl
    · intro entries
      rw [valuesOf_congr fun id hid ↦ hsame id (List.mem_append_right _ hid), relaysFor,
        find?_valuesOf, hnone]
      rfl
  | kept front id back old hsplit hold hfollows hnext hid hothers hlinks hactives hrest =>
    subst hsplit
    obtain ⟨hserves, hfront⟩ := find?_of_kept hcurrent hrestlive hs' hactives.1
    have hactive (other : ℕ) (hother : other ∈ actives) :
        s'.heap.objects other = s.heap.objects other :=
      hothers other fun hmem ↦ List.disjoint_of_nodup_append hnodup hother hmem
    have hkeptlive (other : ℕ) (hother : other ∈ front ++ back) :
        (s.heap.objects other).isSome := by
      apply hrestlive
      rw [List.mem_append, List.mem_cons]
      exact (List.mem_append.mp hother).imp_right Or.inr
    have hold' : serves entry old.unlinked = true := by
      rw [servesAt, hold, Option.any_some] at hserves
      exact hserves
    have hvalues : valuesOf s.heap (front ++ id :: back) =
        valuesOf s.heap front ++ old.unlinked :: valuesOf s.heap back := by
      rw [valuesOf_append, valuesOf_cons hold]
    have hfrontvalues : ∀ relay ∈ valuesOf s.heap front, serves entry relay = false := by
      intro relay hrelay
      obtain ⟨other, hother, hobject⟩ := List.mem_filterMap.mp hrelay
      obtain ⟨found, hfound, rfl⟩ := Option.map_eq_some_iff.mp hobject
      have hnot := hfront other hother
      rw [servesAt, hfound, Option.any_some] at hnot
      exact hnot
    refine ⟨{ old.unlinked with onDemand := entry.onDemand }, ?_, ?_⟩
    · rw [valuesOf_cons hid, valuesOf_congr hactive]
      rfl
    · intro entries
      have hfind : (valuesOf s.heap (front ++ id :: back)).find? (serves entry) =
          some old.unlinked := by
        rw [hvalues, List.find?_append, List.find?_eq_none.mpr (by simpa using hfrontvalues),
          List.find?_cons, hold']
        rfl
      have herase : (valuesOf s.heap (front ++ id :: back)).eraseP (serves entry) =
          valuesOf s'.heap (front ++ back) := by
        rw [valuesOf_relinked hkeptlive hlinks, hvalues, valuesOf_append,
          List.eraseP_append_right _ (by simpa using hfrontvalues), List.eraseP_cons_of_pos hold']
      rw [relaysFor, hfind]
      dsimp only
      rw [herase]

end Turn

/-! ## All entries -/

section Loop

variable {heap : Heap RelayServer} {olds : List ℕ} {s : Lists} {actives rest : List ℕ}
  {entries : List RelayServer}

/-- The state of the outer loop, with the values: the relays of the new list are the ones for the
entries so far, the last one first. -/
structure ValuesInv (heap : Heap RelayServer) (olds : List ℕ) (entries : List RelayServer)
    (s : Lists) (actives rest : List ℕ) : Prop extends Inv heap olds entries s actives rest where
  values : ∀ later, relaysFor (valuesOf heap olds) (entries.reverse ++ later) =
    (valuesOf s.heap actives).reverse ++ relaysFor (valuesOf s.heap rest) later

theorem ValuesInv.turn (h : ValuesInv heap olds entries s actives rest)
    (holds : ∀ id ∈ olds, (heap.objects id).isSome) (entry : RelayServer) :
    ∃ s' actives' rest', updateRelay entry s = some s' ∧
      ValuesInv heap olds (entry :: entries) s' actives' rest' := by
  have hlive := h.partitioned.live holds
  obtain ⟨s', actives', rest', hs', hturned⟩ := updateRelay_turned entry h.current h.newList
    h.partitioned.nodup hlive
  obtain ⟨relay, hactives, hstep⟩ := hturned.values h.current h.partitioned.nodup hlive hs'
  refine ⟨s', actives', rest', hs', h.toInv.turned holds hturned, ?_⟩
  intro later
  calc relaysFor (valuesOf heap olds) ((entry :: entries).reverse ++ later)
    _ = relaysFor (valuesOf heap olds) (entries.reverse ++ entry :: later) := by simp
    _ = (valuesOf s.heap actives).reverse ++ relay :: relaysFor (valuesOf s'.heap rest') later := by
      rw [h.values, hstep]
    _ = (valuesOf s'.heap actives').reverse ++ relaysFor (valuesOf s'.heap rest') later := by
      rw [hactives]
      simp

end Loop

/-- `update_relays` without pointers. -/
theorem updateRelays_values (heap : Heap RelayServer) (relayList newRelayList : Option ℕ)
    (olds news : List ℕ) (holds : Chain (nextOf heap) relayList olds)
    (hnews : Chain (nextOf heap) newRelayList news)
    (hlive : ∀ id ∈ olds ++ news, (heap.objects id).isSome) (hdisjoint : olds.Disjoint news) :
    ∃ heap' relays cleanup actives, updateRelays heap relayList newRelayList =
        some (heap', relays, cleanup) ∧ Chain (nextOf heap') relays actives ∧
      (∀ id ∈ actives, (heap'.objects id).isSome) ∧
      (valuesOf heap' actives).reverse =
        relaysFor (valuesOf heap olds) (news.filterMap heap.objects) := by
  have hold (id : ℕ) (hid : id ∈ olds) := hlive id (List.mem_append_left _ hid)
  have hnew (id : ℕ) (hid : id ∈ news) := hlive id (List.mem_append_right _ hid)
  have hlength := Heap.length_le_next hnews.nodup hnew
  have hstart : ValuesInv heap olds [] ⟨heap, relayList, none⟩ [] olds :=
    ⟨Inv.start holds, fun later ↦ rfl⟩
  obtain ⟨s, actives, cleanups, hs, hinv⟩ := updateRelaySet_loop (fun entry h ↦ h.turn hold entry)
    (fun h ↦ h.toInv.same hnew hdisjoint) hnews hnew hstart (Nat.lt_succ_of_le hlength)
  refine ⟨s.heap, s.newList, s.current, actives, ?_, hinv.newList, ?_, ?_⟩
  · rw [updateRelays, hs]
  · intro id hid
    exact hinv.partitioned.live hold id (List.mem_append_left _ hid)
  · have hvalues := hinv.values []
    simpa [relaysFor] using hvalues.symm

/-! ## Settings -/

/-- The relay has the settings of the entry. -/
structure SameSettings (relay entry : RelayServer) : Prop where
  localmount : relay.localmount = entry.localmount
  server : relay.server = entry.server
  port : relay.port = entry.port
  mount : relay.mount = entry.mount
  mp3metadata : relay.mp3metadata = entry.mp3metadata
  onDemand : relay.onDemand = entry.onDemand
  username : relay.username = entry.username
  password : relay.password = entry.password
  bind : relay.bind = entry.bind

/-- A relay that goes on has the user name, the password and the address of the entry it goes on for,
and an entry that gets a new relay has no address. -/
def SettingsKept : List RelayServer → List RelayServer → Prop
  | _, [] => True
  | current, entry :: entries =>
    match current.find? (serves entry) with
    | some old =>
      (old.username = entry.username ∧ old.password = entry.password ∧ old.bind = entry.bind) ∧
        SettingsKept (current.eraseP (serves entry)) entries
    | none => entry.bind = none ∧ SettingsKept current entries

theorem sameSettings_kept_iff {old entry : RelayServer} (h : serves entry old = true) :
    SameSettings { old with onDemand := entry.onDemand } entry ↔
      old.username = entry.username ∧ old.password = entry.password ∧ old.bind = entry.bind := by
  simp only [serves, Bool.and_eq_true, decide_eq_true_eq] at h
  obtain ⟨⟨⟨⟨hlocal, hmount⟩, hserver⟩, hport⟩, hmp3⟩ := h
  constructor
  · intro hsame
    exact ⟨hsame.username, hsame.password, hsame.bind⟩
  · rintro ⟨husername, hpassword, hbind⟩
    exact ⟨hlocal.symm, hserver.symm, hport.symm, hmount.symm, hmp3.symm, rfl, husername, hpassword,
      hbind⟩

theorem sameSettings_relayCopy_iff (entry : RelayServer) :
    SameSettings (relayCopy entry) entry ↔ entry.bind = none := by
  constructor
  · intro hsame
    exact hsame.bind.symm
  · intro hbind
    exact ⟨rfl, rfl, rfl, rfl, rfl, rfl, rfl, rfl, hbind.symm⟩

theorem forall₂_relaysFor_iff (current entries : List RelayServer) :
    List.Forall₂ SameSettings (relaysFor current entries) entries ↔ SettingsKept current entries := by
  induction entries generalizing current with
  | nil => simp [relaysFor, SettingsKept]
  | cons entry entries ih =>
    unfold relaysFor SettingsKept
    cases hfound : current.find? (serves entry) with
    | none =>
      dsimp only
      rw [List.forall₂_cons, sameSettings_relayCopy_iff, ih]
    | some old =>
      dsimp only
      rw [List.forall₂_cons, sameSettings_kept_iff (List.find?_some hfound), ih]

/-- The relays of the active list have the settings of their entries if and only if nothing was to be
changed that the test for changes does not look at, and nothing was to be copied that the copy
leaves out. -/
theorem relays_follow_configuration_iff (heap : Heap RelayServer)
    (relayList newRelayList : Option ℕ) (olds news : List ℕ)
    (holds : Chain (nextOf heap) relayList olds) (hnews : Chain (nextOf heap) newRelayList news)
    (hlive : ∀ id ∈ olds ++ news, (heap.objects id).isSome) (hdisjoint : olds.Disjoint news) :
    ∃ heap' relays cleanup actives, updateRelays heap relayList newRelayList =
        some (heap', relays, cleanup) ∧ Chain (nextOf heap') relays actives ∧
      (∀ id ∈ actives, (heap'.objects id).isSome) ∧
      (List.Forall₂ SameSettings (valuesOf heap' actives).reverse (news.filterMap heap.objects) ↔
        SettingsKept (valuesOf heap olds) (news.filterMap heap.objects)) := by
  obtain ⟨heap', relays, cleanup, actives, hresult, hchain, hactives, hvalues⟩ :=
    updateRelays_values heap relayList newRelayList olds news holds hnews hlive hdisjoint
  refine ⟨heap', relays, cleanup, actives, hresult, hchain, hactives, ?_⟩
  rw [hvalues]
  exact forall₂_relaysFor_iff _ _

theorem relays_follow_configuration_iff_example :
    ∃ heap' relays cleanup actives, updateRelays exampleRelays (some 0) (some 2) =
        some (heap', relays, cleanup) ∧ Chain (nextOf heap') relays actives ∧
      (∀ id ∈ actives, (heap'.objects id).isSome) ∧
      (List.Forall₂ SameSettings (valuesOf heap' actives).reverse
          ([2, 3].filterMap exampleRelays.objects) ↔
        SettingsKept (valuesOf exampleRelays [0, 1]) ([2, 3].filterMap exampleRelays.objects)) :=
  relays_follow_configuration_iff exampleRelays (some 0) (some 2) [0, 1] [2, 3] ⟨rfl, rfl, rfl⟩
    ⟨rfl, rfl, rfl⟩ (by decide) (by simp)

/-- The entry of a relay with a password. -/
def passwordEntry (password : String) : RelayServer :=
  (parseRelay 0 [("server", some "master"), ("port", some "8000"), ("mount", some "/stream"),
    ("username", some "relay"), ("password", some password)]).getD (exampleRelay "/" 0 none none)

/-- A relay on the current list, and an entry with another password. -/
def changedPassword : Heap RelayServer :=
  (Heap.empty.alloc (relayCopy (passwordEntry "old"))).alloc (passwordEntry "new")

theorem changed_password_has_no_effect :
    ¬ ∀ (heap : Heap RelayServer) (relayList newRelayList : Option ℕ) (olds news : List ℕ),
      Chain (nextOf heap) relayList olds → Chain (nextOf heap) newRelayList news →
      (∀ id ∈ olds ++ news, (heap.objects id).isSome) → olds.Disjoint news →
      ∀ heap' relays cleanup actives, updateRelays heap relayList newRelayList =
          some (heap', relays, cleanup) → Chain (nextOf heap') relays actives →
        List.Forall₂ SameSettings (valuesOf heap' actives).reverse
          (news.filterMap heap.objects) := by
  intro h
  obtain ⟨heap', relays, cleanup, actives, hresult, hchain, -, hvalues⟩ :=
    updateRelays_values changedPassword (some 0) (some 1) [0] [1] ⟨rfl, rfl⟩ ⟨rfl, rfl⟩ (by decide)
      (by simp)
  have hsame := h changedPassword (some 0) (some 1) [0] [1] ⟨rfl, rfl⟩ ⟨rfl, rfl⟩ (by decide)
    (by simp) heap' relays cleanup actives hresult hchain
  rw [hvalues, forall₂_relaysFor_iff] at hsame
  have hentry : changedPassword.objects 1 = some (passwordEntry "new") := by decide
  have hkept : (valuesOf changedPassword [0]).find? (serves (passwordEntry "new")) =
      some (relayCopy (passwordEntry "old")) := by decide
  simp only [List.filterMap_cons, hentry, List.filterMap_nil, SettingsKept, hkept] at hsame
  exact absurd hsame.1.2.1 (by decide)

end Icecast.Slave
