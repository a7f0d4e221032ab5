import Icecast.Lib.Machine
import Icecast.Yp.Directory
import Mathlib.Data.List.Count

/-!
# Which streams are announced

How many entries of a stream a server has that are not marked for release or removal: none after the
stream was withdrawn, at least one after it was announced, and never two. The update thread keeps
these numbers, whatever the directory answers; they change when `yp_add` and `yp_remove` are called
and when a new server is filled. Both calls look at `mounts` only.
-/

namespace Icecast.Yp

open Lib Lib.Machine

def marked (yp : Ypdata) : Bool := yp.release || yp.remove

def Server.entries (server : Server) : List Ypdata := server.mounts ++ server.pendingMounts

/-- The number of entries of a mount that are not marked. -/
def live (mount : String) (server : Server) : ℕ :=
  server.entries.countP fun yp ↦ yp.mount = mount && !marked yp

/-! ## Marks -/

/-- Only an entry that is to be released is removed. -/
structure Marks (yp : Ypdata) : Prop where
  remove : yp.remove = true → yp.release = true
  process : yp.process = .remove → yp.release = true

theorem Marks.marked_eq {yp : Ypdata} (h : Marks yp) : marked yp = yp.release := by
  unfold marked
  cases hremove : yp.remove with
  | false => rw [Bool.or_false]
  | true => rw [h.remove hremove, Bool.or_true]

theorem Marks.directed {yp : Ypdata} (h : Marks yp) (hremove : directed yp = .remove) :
    yp.release = true := by
  unfold Yp.directed at hremove
  split at hremove
  · assumption
  · exact h.process hremove

/-- What the update thread does to the entry at hand. -/
structure Visited (visit visit' : Visit) : Prop where
  mount : visit'.yp.mount = visit.yp.mount
  release : visit'.yp.release = visit.yp.release
  marks : Marks visit'.yp
  sender : ∀ sender, visit'.phase = .waiting sender → visit'.yp.process = sender

section Visit

variable {site : Site} {visit : Visit}

theorem Marks.turned {yp yp' : Ypdata} (h : Marks yp) {outcome : Outcome}
    (hturned : Turned yp yp' outcome) :
    yp'.mount = yp.mount ∧ yp'.release = yp.release ∧ Marks yp' := by
  have hkept (hkeeps : Keeps yp yp') (hprocess : yp'.process = Yp.directed yp) : Marks yp' := by
    refine ⟨?_, ?_⟩
    · rw [hkeeps.remove, hkeeps.release]
      exact h.remove
    · rw [hkeeps.release]
      exact fun hremove ↦ h.directed (hprocess.symm.trans hremove)
  cases hturned with
  | more _ hkeeps hprocess => exact ⟨hkeeps.mount, hkeeps.release, hkept hkeeps hprocess⟩
  | sent _ hkeeps hprocess => exact ⟨hkeeps.mount, hkeeps.release, hkept hkeeps hprocess⟩
  | removed hmount hrelease _ _ _ hprocess hdirected =>
    refine ⟨hmount, hrelease, fun _ ↦ hrelease.trans (h.directed hdirected), ?_⟩
    exact fun hremove ↦ nomatch hprocess.symm.trans hremove

theorem attempt_visited (stats : Stats) (len : ℕ) (h : Marks visit.yp) :
    Visited visit (attempt site stats len visit).1 := by
  have hturned := processTurn_turned site stats len visit.yp
  unfold attempt
  cases hresult : processTurn site stats len visit.yp with
  | mk yp' outcome =>
    rw [hresult] at hturned
    obtain ⟨hmount, hrelease, hmarks⟩ := h.turned hturned
    cases outcome with
    | returned ret => exact ⟨hmount, hrelease, hmarks, nofun⟩
    | more len => exact ⟨hmount, hrelease, hmarks, nofun⟩
    | sent request =>
      refine ⟨hmount, hrelease, hmarks, ?_⟩
      intro sender hsender
      rw [← Phase.waiting.inj hsender]
      cases hturned with
      | sent _ _ hprocess hrequest => exact hprocess.trans hrequest.symm

theorem handleReturnedHeader_visited (h : Marks visit.yp)
    (hsender : ∀ sender, visit.phase = .waiting sender → visit.yp.process = sender)
    (header : Header) :
    Visited visit { visit with yp := handleReturnedHeader visit.yp header } := by
  obtain ⟨hrelease, hprocess, hmount, hremove⟩ := handleReturnedHeader_fields visit.yp header
  refine ⟨hmount, hrelease, ⟨?_, ?_⟩, ?_⟩
  · rw [hremove, hrelease]
    exact h.remove
  · rw [hprocess, hrelease]
    exact h.process
  · exact fun sender hphase ↦ hprocess.trans (hsender sender hphase)

theorem finish_visited (h : Marks visit.yp) {sender : Process} (hprocess : visit.yp.process = sender)
    (clock : ℕ) (failed : Bool) :
    Visited visit { visit with
      yp := (finish visit.now clock failed sender visit.yp).2, phase := .idle } := by
  obtain ⟨hrelease, hmount, hremove, hback⟩ :=
    finish_fields visit.now clock failed sender visit.yp
  refine ⟨hmount, hrelease, ⟨?_, ?_⟩, nofun⟩
  · intro hremoved
    refine hrelease.trans ?_
    by_cases hsender : sender = .remove
    · exact h.process (hprocess.trans hsender)
    · exact h.remove ((hremove hsender).symm.trans hremoved)
  · exact fun hnew ↦ hrelease.trans (h.process (hback hnew))

theorem processYpdata_visited (h : Marks visit.yp)
    (hsender : ∀ sender, visit.phase = .waiting sender → visit.yp.process = sender) (act : Act) :
    Visited visit (processYpdata site visit act).1 := by
  unfold processYpdata
  split
  · split
    · exact ⟨rfl, rfl, h, hsender⟩
    · rename_i now stats _ _
      have hvisited : Visited { visit with now }
          (attempt site stats 1024 { visit with now }).1 := attempt_visited stats 1024 h
      exact ⟨hvisited.mount, hvisited.release, hvisited.marks, hvisited.sender⟩
  · exact attempt_visited _ _ h
  · exact ⟨rfl, rfl, h, hsender⟩
  · exact ⟨rfl, rfl, h, nofun⟩
  · exact handleReturnedHeader_visited h hsender _
  · rename_i hphase
    exact finish_visited h (hsender _ hphase) _ _
  · exact ⟨rfl, rfl, h, hsender⟩

end Visit

theorem skip_marks {yp : Ypdata} (h : Marks yp) : Marks (skip yp) := ⟨h.remove, nofun⟩

theorem markRelease_fields (yp : Ypdata) :
    (markRelease yp).mount = yp.mount ∧ (markRelease yp).process = yp.process := by
  unfold markRelease
  split <;> exact ⟨rfl, rfl⟩

theorem markRelease_marked (yp : Ypdata) : marked (markRelease yp) = true := by
  unfold markRelease marked
  split
  · rename_i hmarked
    simpa using hmarked
  · rfl

theorem markRelease_marks {yp : Ypdata} (h : Marks yp) : Marks (markRelease yp) := by
  unfold markRelease
  split
  · exact h
  · exact ⟨fun _ ↦ rfl, fun _ ↦ rfl⟩

theorem createYpEntry_fields (site : Site) (mount : String) :
    (createYpEntry site mount).mount = mount ∧ (createYpEntry site mount).release = false ∧
      (createYpEntry site mount).remove = false ∧ (createYpEntry site mount).process = .add := by
  unfold createYpEntry addYpInfo
  cases site.clusterPassword mount <;> exact ⟨rfl, rfl, rfl, rfl⟩

theorem createYpEntry_marks (site : Site) (mount : String) {yp : Ypdata}
    (hremove : yp.remove = (createYpEntry site mount).remove)
    (hprocess : yp.process = (createYpEntry site mount).process) : Marks yp := by
  obtain ⟨-, -, hremove', hprocess'⟩ := createYpEntry_fields site mount
  constructor
  · exact fun hremoved ↦ nomatch (hremove.trans hremove').symm.trans hremoved
  · exact fun hremoved ↦ nomatch (hprocess.trans hprocess').symm.trans hremoved

/-! ## The lists -/

/-- The entry at which the update thread stands. -/
def entryAt (s : State) (server entry : ℕ) : Option Ypdata :=
  s.activeYps[server]?.bind (·.mounts[entry]?)

structure Tidy (s : State) : Prop where
  mounts : ∀ server ∈ s.activeYps, ∀ yp ∈ server.mounts, Marks yp
  pending : ∀ server ∈ s.activeYps, ∀ yp ∈ server.pendingMounts, Marks yp ∧ yp.release = false
  fresh : ∀ server ∈ s.pendingYps, server.mounts = [] ∧ server.pendingMounts = []
  sender : ∀ server entry sender dead, s.location = .processing server entry (.waiting sender) dead →
    ∀ yp, entryAt s server entry = some yp → yp.process = sender

/-- Every server has as many entries that are not marked as some server had before. -/
def Inherits (s s' : State) : Prop :=
  ∀ server' ∈ s'.activeYps, ∃ server ∈ s.activeYps, ∀ mount, live mount server' = live mount server

section Lists

variable {s : State}

theorem Tidy.entries (h : Tidy s) {server : Server} (hserver : server ∈ s.activeYps) {yp : Ypdata}
    (hyp : yp ∈ server.entries) : Marks yp := by
  cases List.mem_append.mp hyp with
  | inl hmounts => exact h.mounts server hserver yp hmounts
  | inr hpending => exact (h.pending server hserver yp hpending).1

theorem tidy_start (site : Site) : Tidy (start site) := ⟨nofun, nofun, nofun, nofun⟩

theorem Tidy.ypAdd (h : Tidy s) (mount : String) (time : ℕ) : Tidy (ypAdd mount time s) := by
  have hmounts (server : Server) : (addMount s.site mount time server).mounts = server.mounts := by
    unfold addMount
    split <;> rfl
  refine ⟨?_, ?_, h.fresh, ?_⟩
  · intro server' hserver' yp hyp
    obtain ⟨server, hserver, rfl⟩ := List.mem_map.mp hserver'
    rw [hmounts] at hyp
    exact h.mounts server hserver yp hyp
  · intro server' hserver' yp hyp
    obtain ⟨server, hserver, rfl⟩ := List.mem_map.mp hserver'
    unfold addMount at hyp
    split at hyp
    · exact h.pending server hserver yp hyp
    · cases List.mem_cons.mp hyp with
      | inl hnew =>
        rw [hnew]
        exact ⟨createYpEntry_marks s.site mount rfl rfl,
          (createYpEntry_fields s.site mount).2.1⟩
      | inr hold => exact h.pending server hserver yp hold
  · intro server entry sender dead hlocation yp hyp
    refine h.sender server entry sender dead hlocation yp ?_
    rw [← hyp]
    simp only [entryAt, Yp.ypAdd, List.getElem?_map, Option.bind_map, Function.comp_def, hmounts]

theorem Tidy.ypRemove (h : Tidy s) (mount : String) : Tidy (ypRemove mount s) := by
  refine ⟨?_, ?_, h.fresh, ?_⟩
  · intro server' hserver' yp hyp
    obtain ⟨server, hserver, rfl⟩ := List.mem_map.mp hserver'
    obtain ⟨old, hold, rfl⟩ := List.mem_map.mp hyp
    split
    · exact markRelease_marks (h.mounts server hserver old hold)
    · exact h.mounts server hserver old hold
  · intro server' hserver' yp hyp
    obtain ⟨server, hserver, rfl⟩ := List.mem_map.mp hserver'
    exact h.pending server hserver yp hyp
  · intro server entry sender dead hlocation yp hyp
    obtain ⟨found, hfound, hentry⟩ := Option.bind_eq_some_iff.mp hyp
    rw [Yp.ypRemove, List.getElem?_map] at hfound
    obtain ⟨old, hold, rfl⟩ := Option.map_eq_some_iff.mp hfound
    rw [removeMount, List.getElem?_map] at hentry
    obtain ⟨yp', hyp', rfl⟩ := Option.map_eq_some_iff.mp hentry
    have hprocess := h.sender server entry sender dead hlocation yp'
      (Option.bind_eq_some_iff.mpr ⟨old, hold, hyp'⟩)
    split
    · exact (markRelease_fields yp').2.trans hprocess
    · exact hprocess

/-! ### A new configuration -/

/-- The entries of the servers, without anything else. -/
def lists (servers : List Server) : List (List Ypdata × List Ypdata) :=
  servers.map fun server ↦ (server.mounts, server.pendingMounts)

theorem lists_keepServer (url : String) (servers : List Server) :
    lists (keepServer url servers) = lists servers := by
  induction servers with
  | nil => rfl
  | cons server servers ih =>
    unfold keepServer
    split
    · rfl
    · exact congrArg ((server.mounts, server.pendingMounts) :: ·) ih

theorem exists_of_lists {servers servers' : List Server} (h : lists servers' = lists servers)
    {server' : Server} (hserver' : server' ∈ servers') :
    ∃ server ∈ servers, server'.mounts = server.mounts ∧
      server'.pendingMounts = server.pendingMounts := by
  have hmem : (server'.mounts, server'.pendingMounts) ∈ lists servers :=
    h ▸ List.mem_map_of_mem hserver'
  obtain ⟨server, hserver, hsame⟩ := List.mem_map.mp hmem
  exact ⟨server, hserver, (congrArg Prod.fst hsame).symm, (congrArg Prod.snd hsame).symm⟩

theorem recheckYps_spec (yps : List YpConfig) {s : State}
    (hfresh : ∀ server ∈ s.pendingYps, server.mounts = [] ∧ server.pendingMounts = []) :
    lists (recheckYps yps s).activeYps = lists s.activeYps ∧
      (recheckYps yps s).location = s.location ∧
      ∀ server ∈ (recheckYps yps s).pendingYps, server.mounts = [] ∧ server.pendingMounts = [] := by
  induction yps generalizing s with
  | nil => exact ⟨rfl, rfl, hfresh⟩
  | cons yp yps ih =>
    unfold recheckYps
    split_ifs
    · obtain ⟨hlists, hrest⟩ := ih (s := { s with activeYps := keepServer yp.url s.activeYps }) hfresh
      exact ⟨hlists.trans (lists_keepServer yp.url s.activeYps), hrest⟩
    · apply ih (s := { s with pendingYps := keepServer yp.url s.pendingYps })
      intro server' hserver'
      obtain ⟨server, hserver, hmounts, hpending⟩ :=
        exists_of_lists (lists_keepServer yp.url s.pendingYps) hserver'
      rw [hmounts, hpending]
      exact hfresh server hserver
    · refine ih (s := { s with pendingYps := _ :: s.pendingYps }) ?_
      intro server hserver
      cases List.mem_cons.mp hserver with
      | inl hnew => rw [hnew]; exact ⟨rfl, rfl⟩
      | inr hold => exact hfresh server hold
    · exact ⟨rfl, rfl, hfresh⟩

theorem entryAt_of_lists {s' : State} (h : lists s'.activeYps = lists s.activeYps)
    (server entry : ℕ) : entryAt s' server entry = entryAt s server entry := by
  have hlists (s : State) :
      entryAt s server entry = (lists s.activeYps)[server]?.bind (·.1[entry]?) := by
    simp only [entryAt, lists, List.getElem?_map, Option.bind_map, Function.comp_def]
  rw [hlists, hlists, h]

theorem live_of_lists {server server' : Server} (hmounts : server'.mounts = server.mounts)
    (hpending : server'.pendingMounts = server.pendingMounts) (mount : String) :
    live mount server' = live mount server := by
  rw [live, Server.entries, hmounts, hpending, live, Server.entries]

/-- Steps that change nothing about the entries. -/
theorem Tidy.of_lists (h : Tidy s) {s' : State} (hlists : lists s'.activeYps = lists s.activeYps)
    (hfresh : ∀ server ∈ s'.pendingYps, server.mounts = [] ∧ server.pendingMounts = [])
    (hlocation : ∀ server entry sender dead,
      s'.location = .processing server entry (.waiting sender) dead →
        s.location = .processing server entry (.waiting sender) dead) :
    Tidy s' ∧ Inherits s s' := by
  refine ⟨⟨?_, ?_, hfresh, ?_⟩, ?_⟩
  · intro server' hserver' yp hyp
    obtain ⟨server, hserver, hmounts, -⟩ := exists_of_lists hlists hserver'
    exact h.mounts server hserver yp (hmounts ▸ hyp)
  · intro server' hserver' yp hyp
    obtain ⟨server, hserver, -, hpending⟩ := exists_of_lists hlists hserver'
    exact h.pending server hserver yp (hpending ▸ hyp)
  · intro server entry sender dead hat yp hyp
    rw [entryAt_of_lists hlists] at hyp
    exact h.sender server entry sender dead (hlocation server entry sender dead hat) yp hyp
  · intro server' hserver'
    obtain ⟨server, hserver, hmounts, hpending⟩ := exists_of_lists hlists hserver'
    exact ⟨server, hserver, live_of_lists hmounts hpending⟩

theorem Tidy.ypRecheckConfig (h : Tidy s) (site : Site) (yps : List YpConfig) :
    Tidy (ypRecheckConfig site yps s) ∧ Inherits s (ypRecheckConfig site yps s) := by
  obtain ⟨hlists, hlocation, hfresh⟩ := recheckYps_spec yps (s := { s with
    site, activeYps := s.activeYps.map fun server ↦ { server with remove := true } }) h.fresh
  refine h.of_lists (hlists.trans ?_) hfresh fun server entry sender dead hat ↦ ?_
  · simp only [lists, List.map_map, Function.comp_def]
  · exact hlocation.symm.trans hat

/-! ### The update thread -/

/-- One entry changes; its mark stays as it is. -/
theorem Tidy.setEntry (h : Tidy s) {server entry : ℕ} {yp yp' : Ypdata}
    (hyp : entryAt s server entry = some yp) (hmount : yp'.mount = yp.mount)
    (hrelease : yp'.release = yp.release) (hmarks : Marks yp') :
    (∀ found ∈ (setEntry server entry yp' s).activeYps, ∀ other ∈ found.mounts, Marks other) ∧
      (∀ found ∈ (setEntry server entry yp' s).activeYps, ∀ other ∈ found.pendingMounts,
        Marks other ∧ other.release = false) ∧
      Inherits s (setEntry server entry yp' s) := by
  obtain ⟨found, hfound, hentry⟩ := Option.bind_eq_some_iff.mp hyp
  have hin : found ∈ s.activeYps := List.mem_of_getElem? hfound
  obtain ⟨hlt, hget⟩ := List.getElem?_eq_some_iff.mp hentry
  have hmodified (other : Server) (hother : other ∈ (Yp.setEntry server entry yp' s).activeYps) :
      other ∈ s.activeYps ∨ other = { found with mounts := found.mounts.set entry yp' } := by
    obtain ⟨i, hi⟩ := List.mem_iff_getElem?.mp hother
    rw [Yp.setEntry] at hi
    by_cases hserver : server = i
    · rw [← hserver, List.getElem?_modify_eq, hfound] at hi
      exact Or.inr (Option.some.inj hi).symm
    · rw [List.getElem?_modify_ne _ _ hserver] at hi
      exact Or.inl (List.mem_of_getElem? hi)
  refine ⟨?_, ?_, ?_⟩
  · intro other hother old hold
    rcases hmodified other hother with hsame | rfl
    · exact h.mounts other hsame old hold
    · rcases List.mem_or_eq_of_mem_set hold with hsame | rfl
      · exact h.mounts found hin old hsame
      · exact hmarks
  · intro other hother old hold
    rcases hmodified other hother with hsame | rfl
    · exact h.pending other hsame old hold
    · exact h.pending found hin old hold
  · intro other hother
    rcases hmodified other hother with hsame | rfl
    · exact ⟨other, hsame, fun mount ↦ rfl⟩
    · refine ⟨found, hin, fun mount ↦ ?_⟩
      have hold : Marks yp := h.mounts found hin yp (List.mem_of_getElem? hentry)
      have hlive : (yp'.mount = mount && !marked yp') = (yp.mount = mount && !marked yp) := by
        rw [hmarks.marked_eq, hold.marked_eq, hmount, hrelease]
      simp only [live, Server.entries, List.countP_append, List.countP_set hlt, hget, hlive]
      have hpos : (if (yp.mount = mount && !marked yp) = true then 1 else 0) ≤
          found.mounts.countP fun yp ↦ yp.mount = mount && !marked yp := by
        split
        · rename_i hp
          exact List.countP_pos_iff.mpr ⟨yp, List.mem_of_getElem? hentry, hp⟩
        · exact Nat.zero_le _
      omega

theorem entryAt_setEntry {server entry : ℕ} {yp : Ypdata} (hyp : entryAt s server entry = some yp)
    (yp' : Ypdata) : entryAt (setEntry server entry yp' s) server entry = some yp' := by
  obtain ⟨found, hfound, hentry⟩ := Option.bind_eq_some_iff.mp hyp
  obtain ⟨hlt, -⟩ := List.getElem?_eq_some_iff.mp hentry
  simp [entryAt, setEntry, hfound, hlt]

theorem Tidy.processStep (h : Tidy s) {server entry : ℕ} {phase : Phase} {dead : Bool}
    (hlocation : s.location = .processing server entry phase dead) (act : Act) :
    Tidy (processStep act server entry phase dead s) ∧
      Inherits s (processStep act server entry phase dead s) := by
  unfold Yp.processStep
  split
  · refine h.of_lists rfl h.fresh ?_
    intro server entry sender dead hat
    split at hat <;> cases hat
  · rename_i found hfound
    split
    · exact h.of_lists rfl h.fresh nofun
    · rename_i yp hentry
      have hyp : entryAt s server entry = some yp :=
        Option.bind_eq_some_iff.mpr ⟨found, hfound, hentry⟩
      have hmarks := h.mounts found (List.mem_of_getElem? hfound) yp (List.mem_of_getElem? hentry)
      split
      · obtain ⟨hmounts, hpending, hinherits⟩ :=
          h.setEntry hyp (rfl : (skip yp).mount = yp.mount) rfl (skip_marks hmarks)
        exact ⟨⟨hmounts, hpending, h.fresh, nofun⟩, hinherits⟩
      · have hvisited : Visited ⟨yp, phase, s.now⟩
            (processYpdata s.site ⟨yp, phase, s.now⟩ act).1 := by
          refine processYpdata_visited hmarks ?_ act
          rintro sender rfl
          exact h.sender server entry sender dead hlocation yp hyp
        obtain ⟨hmounts, hpending, hinherits⟩ :=
          h.setEntry hyp hvisited.mount hvisited.release hvisited.marks
        refine ⟨⟨hmounts, hpending, h.fresh, ?_⟩, hinherits⟩
        -- the thread is still at this entry if it waits for the directory
        intro server' entry' sender dead' hat yp' hyp'
        dsimp only at hat
        split at hat
        · cases hat
        · obtain ⟨rfl, rfl, hphase, -⟩ := Location.processing.inj hat
          have hsame : some (processYpdata s.site ⟨yp, phase, s.now⟩ act).1.yp = some yp' :=
            (entryAt_setEntry hyp _).symm.trans hyp'
          rw [← Option.some.inj hsame]
          exact hvisited.sender sender hphase

/-- Taking over the pending entries and deleting the marked ones. -/
theorem live_deleteMarkedYp {server : Server} (h : ∀ yp ∈ server.entries, Marks yp)
    (mount : String) : live mount (deleteMarkedYp (addPendingYp server)) = live mount server := by
  have hfilter (list : List Ypdata) (hlist : ∀ yp ∈ list, Marks yp) :
      (list.filter (!·.remove)).countP (fun yp ↦ yp.mount = mount && !marked yp) =
        list.countP fun yp ↦ yp.mount = mount && !marked yp := by
    rw [List.countP_filter]
    apply List.countP_congr
    intro yp hyp
    rw [(hlist yp hyp).marked_eq]
    cases hremove : yp.remove with
    | false => simp
    | true => simp [(hlist yp hyp).remove hremove]
  have hall : ∀ yp ∈ server.pendingMounts ++ server.mounts, Marks yp := fun yp hyp ↦
    h yp (List.mem_append.mpr (List.mem_append.mp hyp).symm)
  rw [live, Server.entries, deleteMarkedYp, addPendingYp, List.append_nil, hfilter _ hall,
    live, Server.entries, List.countP_append, List.countP_append, Nat.add_comm]

/-- There are no two sources of the same name in the tree. -/
theorem live_populate (site : Site) (sources : OrderedMap String Bool) {server : Server}
    (hmounts : server.mounts = []) (hpending : server.pendingMounts = []) (mount : String) :
    live mount (populate site sources server) ≤ 1 := by
  have hnodup : (sources.entries.map (·.1)).Nodup :=
    List.pairwise_map.mpr (sources.sorted.imp fun hlt ↦ hlt.ne)
  have hentries : (populate site sources server).entries =
      ((sources.entries.filter (·.2)).map fun source ↦
        { createYpEntry site source.1 with touchInterval := server.touchInterval }).reverse := by
    simp only [Server.entries, populate, hmounts, hpending, List.append_nil]
  calc live mount (populate site sources server)
      = (sources.entries.filter (·.2)).countP ((fun yp ↦ yp.mount = mount && !marked yp) ∘
          fun source ↦ { createYpEntry site source.1 with touchInterval := server.touchInterval }) := by
        rw [live, hentries, List.countP_reverse, List.countP_map]
    _ ≤ (sources.entries.filter (·.2)).countP fun source ↦ source.1 = mount := by
        apply List.countP_mono_left
        intro source _ hlive
        simp only [Function.comp_apply, Bool.and_eq_true, decide_eq_true_eq] at hlive ⊢
        exact (createYpEntry_fields site source.1).1.symm.trans hlive.1
    _ ≤ sources.entries.countP fun source ↦ source.1 = mount := List.filter_sublist.countP_le
    _ = (sources.entries.map (·.1)).count mount := by
        rw [List.count_eq_countP, List.countP_map]
        rfl
    _ ≤ 1 := List.nodup_iff_count.mp hnodup mount

/-- The servers after an update are the old ones that are kept, and new ones with one entry a mount
at most. -/
theorem updateLists_servers (h : Tidy s) (sources : OrderedMap String Bool) {server' : Server}
    (hserver' : server' ∈ (updateLists sources s).activeYps) :
    (∀ yp ∈ server'.mounts, Marks yp) ∧ server'.pendingMounts = [] ∧
      ((∃ server ∈ s.activeYps, ∀ mount, live mount server' = live mount server) ∨
        s.pendingYps ≠ [] ∧ ∀ mount, live mount server' ≤ 1) := by
  obtain ⟨server, hserver, rfl⟩ := List.mem_map.mp hserver'
  have hentries (hmarks : ∀ yp ∈ server.entries, Marks yp) :
      ∀ yp ∈ (deleteMarkedYp (addPendingYp server)).mounts, Marks yp := fun yp hyp ↦
    hmarks yp (List.mem_append.mpr (List.mem_append.mp (List.mem_filter.mp hyp).1).symm)
  cases List.mem_append.mp hserver with
  | inl hnew =>
    obtain ⟨pending, hpending, rfl⟩ := List.mem_map.mp (List.mem_reverse.mp hnew)
    obtain ⟨hmounts, hlist⟩ := h.fresh pending hpending
    have hmarks : ∀ yp ∈ (populate s.site sources pending).entries, Marks yp := by
      intro yp hyp
      simp only [Server.entries, populate, hmounts, hlist, List.append_nil, List.mem_reverse,
        List.mem_map] at hyp
      obtain ⟨source, -, rfl⟩ := hyp
      exact createYpEntry_marks s.site source.1 rfl rfl
    refine ⟨hentries hmarks, rfl, Or.inr ⟨List.ne_nil_of_mem hpending, fun mount ↦ ?_⟩⟩
    rw [live_deleteMarkedYp hmarks]
    exact live_populate s.site sources hmounts hlist mount
  | inr hold =>
    have hin := (List.mem_filter.mp hold).1
    have hmarks : ∀ yp ∈ server.entries, Marks yp := fun yp hyp ↦ h.entries hin hyp
    exact ⟨hentries hmarks, rfl, Or.inl ⟨server, hin, live_deleteMarkedYp hmarks⟩⟩

theorem Tidy.updateLists (h : Tidy s) (sources : OrderedMap String Bool) :
    Tidy (updateLists sources s) := by
  refine ⟨fun server hserver ↦ (updateLists_servers h sources hserver).1, ?_, nofun, nofun⟩
  intro server hserver yp hyp
  rw [(updateLists_servers h sources hserver).2.1] at hyp
  cases hyp

theorem Tidy.next (h : Tidy s) (call : Call) : Tidy (next s call) := by
  cases call with
  | add mount time => exact h.ypAdd mount time
  | remove mount => exact h.ypRemove mount
  | recheck site yps => exact (h.ypRecheckConfig site yps).1
  | thread act sources =>
    rw [Yp.next, threadStep]
    split
    · exact ⟨h.mounts, h.pending, h.fresh, nofun⟩
    · rename_i hlocation
      exact (h.processStep hlocation act).1
    · exact h.updateLists sources

/-- The update thread keeps the numbers of unmarked entries, unless it fills new servers. -/
theorem Tidy.threadStep (h : Tidy s) (act : Act) (sources : OrderedMap String Bool)
    {server' : Server} (hserver' : server' ∈ (threadStep act sources s).activeYps) :
    (∃ server ∈ s.activeYps, ∀ mount, live mount server' = live mount server) ∨
      s.location = .updating ∧ s.pendingYps ≠ [] ∧ ∀ mount, live mount server' ≤ 1 := by
  unfold Yp.threadStep at hserver'
  split at hserver'
  · exact Or.inl ⟨server', hserver', fun mount ↦ rfl⟩
  · rename_i hlocation
    exact Or.inl ((h.processStep hlocation act).2 server' hserver')
  · rename_i hlocation
    exact (updateLists_servers h sources hserver').2.2.imp_right fun hnew ↦ ⟨hlocation, hnew⟩

end Lists

theorem tidy_run (site : Site) (calls : List Call) : Tidy (run next (start site) calls) :=
  run_invariant next Tidy (fun _ call h ↦ h.next call) calls (tidy_start site)

/-! ## The calls -/

theorem live_addMount (site : Site) (other : String) (time : ℕ) (server : Server) (mount : String) :
    live mount (addMount site other time server) = live mount server +
      if other = mount ∧ ∀ yp ∈ server.mounts, yp.mount ≠ other then 1 else 0 := by
  obtain ⟨hmount, hrelease, hremove, -⟩ := createYpEntry_fields site other
  unfold addMount
  split
  · rename_i hany
    obtain ⟨yp, hyp, hfound⟩ := List.any_eq_true.mp hany
    rw [if_neg fun hnone ↦ hnone.2 yp hyp (by simpa using hfound), Nat.add_zero]
  · rename_i hany
    have hnone : ∀ yp ∈ server.mounts, yp.mount ≠ other := by simpa using hany
    by_cases hother : other = mount
    · subst hother
      rw [if_pos ⟨rfl, hnone⟩]
      simp [live, Server.entries, marked, hmount, hrelease, hremove, Nat.add_assoc]
    · rw [if_neg fun hboth ↦ hother hboth.1]
      simp [live, Server.entries, marked, hmount, hother]

theorem live_removeMount_of_ne {other mount : String} (h : other ≠ mount) (server : Server) :
    live mount (removeMount other server) = live mount server := by
  have hcongr (yp : Ypdata) (hyp : yp ∈ server.mounts) :
      ((fun yp ↦ yp.mount = mount && !marked yp) ∘
        fun yp ↦ if yp.mount = other then markRelease yp else yp) yp = true ↔
        (yp.mount = mount && !marked yp) = true := by
    simp only [Function.comp_apply]
    split
    · rename_i hmount
      simp [(markRelease_fields yp).1, hmount, h]
    · rfl
  rw [live, Server.entries, removeMount, List.countP_append, List.countP_map,
    List.countP_congr hcongr, live, Server.entries, List.countP_append]

/-- Entries that are still pending are not marked. -/
theorem live_removeMount (mount : String) (server : Server) :
    live mount (removeMount mount server) =
      server.pendingMounts.countP fun yp ↦ yp.mount = mount && !marked yp := by
  have hzero : (server.mounts.map fun yp ↦ if yp.mount = mount then markRelease yp else yp).countP
      (fun yp ↦ yp.mount = mount && !marked yp) = 0 := by
    apply List.countP_eq_zero.mpr
    intro yp' hyp'
    obtain ⟨yp, -, rfl⟩ := List.mem_map.mp hyp'
    split
    · simp [markRelease_marked]
    · rename_i hne
      simp [hne]
  rw [live, Server.entries, removeMount, List.countP_append, hzero, Nat.zero_add]

/-! ## After the last call -/

/-- Every entry of the mount is marked, and no request is sent for it but for its removal. -/
def Withdrawn (mount : String) (s : State) : Prop :=
  ∀ server ∈ s.activeYps, ∀ yp ∈ server.entries, yp.mount = mount →
    marked yp = true ∧ ∀ site stats len request,
      (processTurn site stats len yp).2 = .sent request → request.process = .remove

/-- Every server has an entry of the mount that is not marked. -/
def Announced (mount : String) (s : State) : Prop :=
  ∀ server ∈ s.activeYps, ∃ yp ∈ server.entries, yp.mount = mount ∧ marked yp = false

/-- Steps that do not concern the mount. The update thread finds no new servers. -/
def Quiet (mount : String) (s : State) : Call → Prop
  | .add other _ => other ≠ mount
  | .remove other => other ≠ mount
  | .recheck _ _ => True
  | .thread _ _ => s.location = .updating → s.pendingYps = []

section Quiet

variable {s : State} {mount : String}

theorem withdrawn_iff (h : Tidy s) :
    Withdrawn mount s ↔ ∀ server ∈ s.activeYps, live mount server = 0 := by
  constructor
  · intro hwithdrawn server hserver
    apply List.countP_eq_zero.mpr
    intro yp hyp hlive
    simp only [Bool.and_eq_true, decide_eq_true_eq, Bool.not_eq_true'] at hlive
    have hmarked := (hwithdrawn server hserver yp hyp hlive.1).1
    exact nomatch hmarked.symm.trans hlive.2
  · intro hzero server hserver yp hyp hmount
    have hnot := List.countP_eq_zero.mp (hzero server hserver) yp hyp
    have hmarked : marked yp = true := by simpa [hmount] using hnot
    refine ⟨hmarked, ?_⟩
    intro site stats len request hsent
    have hturned := processTurn_turned site stats len yp
    rw [hsent] at hturned
    cases hturned with
    | sent _ _ _ hrequest =>
      rw [hrequest, directed, if_pos ((h.entries hserver hyp).marked_eq.symm.trans hmarked)]

theorem announced_iff :
    Announced mount s ↔ ∀ server ∈ s.activeYps, 0 < live mount server := by
  refine forall₂_congr fun server _ ↦ ?_
  rw [live, List.countP_pos_iff]
  simp

theorem Quiet.inherits (h : Tidy s) {call : Call} (hquiet : Quiet mount s call) {server' : Server}
    (hserver' : server' ∈ (next s call).activeYps) :
    ∃ server ∈ s.activeYps, live mount server' = live mount server := by
  cases call with
  | add other time =>
    obtain ⟨server, hserver, rfl⟩ := List.mem_map.mp hserver'
    refine ⟨server, hserver, ?_⟩
    rw [live_addMount, if_neg fun hboth ↦ hquiet hboth.1, Nat.add_zero]
  | remove other =>
    obtain ⟨server, hserver, rfl⟩ := List.mem_map.mp hserver'
    exact ⟨server, hserver, live_removeMount_of_ne hquiet server⟩
  | recheck site yps =>
    obtain ⟨server, hserver, hlive⟩ := (h.ypRecheckConfig site yps).2 server' hserver'
    exact ⟨server, hserver, hlive mount⟩
  | thread act sources =>
    rcases h.threadStep act sources hserver' with ⟨server, hserver, hlive⟩ | ⟨hat, hnew, -⟩
    · exact ⟨server, hserver, hlive mount⟩
    · exact absurd (hquiet hat) hnew

/-- What holds of the number of unmarked entries on every server keeps to hold. -/
theorem quiet_run (p : ℕ → Prop) (h : Tidy s)
    (hp : ∀ server ∈ s.activeYps, p (live mount server)) (after : List Call)
    (hquiet : Guarded next (Quiet mount) s after) :
    Tidy (run next s after) ∧
      ∀ server ∈ (run next s after).activeYps, p (live mount server) := by
  refine run_invariant_of_guarded next
    (fun s ↦ Tidy s ∧ ∀ server ∈ s.activeYps, p (live mount server)) ?_ after ⟨h, hp⟩ hquiet
  intro s call hinv hcall
  refine ⟨hinv.1.next call, ?_⟩
  intro server' hserver'
  obtain ⟨server, hserver, hlive⟩ := hcall.inherits hinv.1 hserver'
  rw [hlive]
  exact hinv.2 server hserver

end Quiet

/-- After `yp_remove` a stream stays withdrawn if and only if no entry of it was pending. After
`yp_add` it stays announced if and only if no server had only marked entries of it in `mounts` and
nothing else. -/
theorem yp_follows_last_call (site : Site) (before : List Call) (mount : String) (time : ℕ) :
    ((∀ after, Guarded next (Quiet mount) (run next (start site) (before ++ [.remove mount])) after →
        Withdrawn mount (run next (start site) (before ++ [.remove mount] ++ after))) ↔
      ∀ server ∈ (run next (start site) before).activeYps, ∀ yp ∈ server.pendingMounts,
        yp.mount ≠ mount) ∧
    ((∀ after, Guarded next (Quiet mount) (run next (start site) (before ++ [.add mount time])) after →
        Announced mount (run next (start site) (before ++ [.add mount time] ++ after))) ↔
      ∀ server ∈ (run next (start site) before).activeYps, (∃ yp ∈ server.mounts, yp.mount = mount) →
        ∃ yp ∈ server.entries, yp.mount = mount ∧ marked yp = false) := by
  have htidy := tidy_run site before
  simp only [run_append, run_cons, run_nil]
  generalize run next (start site) before = s at htidy ⊢
  constructor
  · have htidy' := htidy.next (.remove mount)
    have hlive : (∀ server ∈ (next s (.remove mount)).activeYps, live mount server = 0) ↔
        ∀ server ∈ s.activeYps, ∀ yp ∈ server.pendingMounts, yp.mount ≠ mount := by
      rw [next, ypRemove, List.forall_mem_map]
      refine forall₂_congr fun server hserver ↦ ?_
      rw [live_removeMount, List.countP_eq_zero]
      refine forall₂_congr fun yp hyp ↦ ?_
      obtain ⟨hmarks, hrelease⟩ := htidy.pending server hserver yp hyp
      simp [hmarks.marked_eq, hrelease]
    constructor
    · intro hall
      exact hlive.mp ((withdrawn_iff htidy').mp (hall [] trivial))
    · intro hnone after hquiet
      have hrun := quiet_run (· = 0) htidy' (hlive.mpr hnone) after hquiet
      exact (withdrawn_iff hrun.1).mpr hrun.2
  · have htidy' := htidy.next (.add mount time)
    have hlive : (∀ server ∈ (next s (.add mount time)).activeYps, 0 < live mount server) ↔
        ∀ server ∈ s.activeYps, (∃ yp ∈ server.mounts, yp.mount = mount) →
          ∃ yp ∈ server.entries, yp.mount = mount ∧ marked yp = false := by
      rw [next, ypAdd, List.forall_mem_map]
      refine forall₂_congr fun server hserver ↦ ?_
      have hold : 0 < live mount server ↔
          ∃ yp ∈ server.entries, yp.mount = mount ∧ marked yp = false := by
        rw [live, List.countP_pos_iff]
        simp
      rw [live_addMount, ← hold]
      by_cases hthere : ∃ yp ∈ server.mounts, yp.mount = mount
      · rw [if_neg fun hboth ↦ ?_]
        · simp [hthere]
        · obtain ⟨yp, hyp, hmount⟩ := hthere
          exact hboth.2 yp hyp hmount
      · rw [if_pos ⟨rfl, fun yp hyp hmount ↦ hthere ⟨yp, hyp, hmount⟩⟩]
        simp [hthere]
    constructor
    · intro hall
      exact hlive.mp (announced_iff.mp (hall [] trivial))
    · intro hsome after hquiet
      exact announced_iff.mpr (quiet_run (0 < ·) htidy' (hlive.mpr hsome) after hquiet).2

/-- The configuration names one directory, which the update thread takes over in its first round. -/
def oneDirectory : List Call :=
  .recheck exampleSite [⟨"http://dir.xiph.org/cgi-bin/yp-cgi", 30, true⟩] ::
    List.replicate 3 (.thread .noMemory .empty)

/-- A further round of the update thread, which takes over a pending entry. -/
def oneRound : List Call := List.replicate 4 (.thread .noMemory .empty)

/-- A stream that ends before the update thread has seen it stays announced, and one that comes back
before the update thread has deleted its old entry is not announced again. -/
theorem yp_last_call_missed :
    (¬∀ (site : Site) (before after : List Call) (mount : String),
      Guarded next (Quiet mount) (run next (start site) (before ++ [.remove mount])) after →
        Withdrawn mount (run next (start site) (before ++ [.remove mount] ++ after))) ∧
    ¬∀ (site : Site) (before after : List Call) (mount : String) (time : ℕ),
      Guarded next (Quiet mount) (run next (start site) (before ++ [.add mount time])) after →
        Announced mount (run next (start site) (before ++ [.add mount time] ++ after)) := by
  constructor
  · intro hall
    have hwithdrawn := hall exampleSite (oneDirectory ++ [.add "/live" 0]) [] "/live" trivial
    have hzero := (withdrawn_iff (tidy_run exampleSite _)).mp hwithdrawn
    exact absurd hzero (by decide +kernel)
  · intro hall
    have hannounced := hall exampleSite
      (oneDirectory ++ [.add "/live" 0] ++ oneRound ++ [.remove "/live"]) [] "/live" 1 trivial
    exact absurd (announced_iff.mp hannounced) (by decide +kernel)

/-! ## At most one entry -/

/-- No server has two entries of a mount that are not marked. -/
def Unique (s : State) : Prop :=
  ∀ server ∈ s.activeYps ++ s.pendingYps, ∀ mount, live mount server ≤ 1

/-- A stream is not added to a server where its entry is still pending. -/
def Single (s : State) : Call → Prop
  | .add mount _ => ∀ server ∈ s.activeYps, (∃ yp ∈ server.mounts, yp.mount = mount) ∨
      ∀ yp ∈ server.pendingMounts, yp.mount ≠ mount
  | _ => True

section Unique

variable {s : State}

theorem unique_iff (h : Tidy s) :
    Unique s ↔ ∀ server ∈ s.activeYps, ∀ mount, live mount server ≤ 1 := by
  refine ⟨fun hall server hserver ↦ hall server (List.mem_append_left _ hserver), ?_⟩
  intro hall server hserver mount
  cases List.mem_append.mp hserver with
  | inl hactive => exact hall server hactive mount
  | inr hpending =>
    obtain ⟨hmounts, hlist⟩ := h.fresh server hpending
    simp [live, Server.entries, hmounts, hlist]

theorem live_eq_zero {server : Server} {mount : String}
    (hmounts : ∀ yp ∈ server.mounts, yp.mount ≠ mount)
    (hpending : ∀ yp ∈ server.pendingMounts, yp.mount ≠ mount) : live mount server = 0 := by
  apply List.countP_eq_zero.mpr
  intro yp hyp
  have hne : yp.mount ≠ mount := by
    cases List.mem_append.mp hyp with
    | inl hold => exact hmounts yp hold
    | inr hnew => exact hpending yp hnew
  simp [hne]

theorem unique_next (h : Tidy s) (hunique : ∀ server ∈ s.activeYps, ∀ mount, live mount server ≤ 1)
    {call : Call} (hsingle : Single s call) :
    ∀ server ∈ (next s call).activeYps, ∀ mount, live mount server ≤ 1 := by
  intro server' hserver' mount
  cases call with
  | add other time =>
    obtain ⟨server, hserver, rfl⟩ := List.mem_map.mp hserver'
    rw [live_addMount]
    split
    · rename_i hadded
      obtain ⟨rfl, hmounts⟩ := hadded
      have hpending := (hsingle server hserver).resolve_left
        fun ⟨yp, hyp, hmount⟩ ↦ hmounts yp hyp hmount
      rw [live_eq_zero hmounts hpending]
    · exact hunique server hserver mount
  | remove other =>
    obtain ⟨server, hserver, rfl⟩ := List.mem_map.mp hserver'
    by_cases hother : other = mount
    · rw [hother, live_removeMount]
      refine (?_ : _ ≤ live mount server).trans (hunique server hserver mount)
      rw [live, Server.entries, List.countP_append]
      exact Nat.le_add_left _ _
    · rw [live_removeMount_of_ne hother]
      exact hunique server hserver mount
  | recheck site yps =>
    obtain ⟨server, hserver, hlive⟩ := (h.ypRecheckConfig site yps).2 server' hserver'
    rw [hlive]
    exact hunique server hserver mount
  | thread act sources =>
    rcases h.threadStep act sources hserver' with ⟨server, hserver, hlive⟩ | ⟨-, -, hnew⟩
    · rw [hlive]
      exact hunique server hserver mount
    · exact hnew mount

theorem not_unique_next (h : Tidy s) {call : Call} (hsingle : ¬Single s call) :
    ¬Unique (next s call) := by
  cases call with
  | add mount time =>
    simp only [Single, not_forall, not_or] at hsingle
    obtain ⟨server, hserver, hmounts, hpending⟩ := hsingle
    push Not at hmounts hpending
    obtain ⟨yp, hyp, hmount⟩ := hpending
    have hpos : 0 < live mount server := by
      obtain ⟨hmarks, hrelease⟩ := h.pending server hserver yp hyp
      refine List.countP_pos_iff.mpr ⟨yp, List.mem_append_right _ hyp, ?_⟩
      simp [hmount, hmarks.marked_eq, hrelease]
    intro hunique
    have hle := hunique (addMount s.site mount time server)
      (List.mem_append_left _ (List.mem_map_of_mem hserver)) mount
    rw [live_addMount, if_pos ⟨rfl, hmounts⟩] at hle
    omega
  | remove mount => exact absurd trivial hsingle
  | recheck site yps => exact absurd trivial hsingle
  | thread act sources => exact absurd trivial hsingle

end Unique

/-- No server ever has two unmarked entries of a mount, if and only if no stream is added while an
entry of it is pending. -/
theorem yp_entries_unique (site : Site) (calls : List Call) :
    (∀ before, before <+: calls → Unique (run next (start site) before)) ↔
      Guarded next Single (start site) calls := by
  refine forall_prefix_iff_guarded next
    (fun s ↦ Tidy s ∧ ∀ server ∈ s.activeYps, ∀ mount, live mount server ≤ 1) Unique ?_ ?_ ?_ calls
    ⟨tidy_start site, nofun⟩
  · exact fun s call hinv hsingle ↦ ⟨hinv.1.next call, unique_next hinv.1 hinv.2 hsingle⟩
  · exact fun s hinv ↦ (unique_iff hinv.1).mpr hinv.2
  · exact fun s call hinv hsingle ↦ not_unique_next hinv.1 hsingle

/-- A stream that ends and comes back before the update thread has seen it is entered twice. -/
theorem yp_entries_duplicate :
    ¬∀ (site : Site) (calls : List Call), Unique (run next (start site) calls) := by
  intro hall
  have hunique := hall exampleSite
    (oneDirectory ++ [.add "/live" 0, .remove "/live", .add "/live" 1])
  have hle := (unique_iff (tidy_run exampleSite _)).mp hunique
  have htwo : ¬∀ server ∈ (run next (start exampleSite)
      (oneDirectory ++ [.add "/live" 0, .remove "/live", .add "/live" 1])).activeYps,
      live "/live" server ≤ 1 := by decide +kernel
  exact htwo fun server hserver ↦ hle server hserver "/live"

end Icecast.Yp
