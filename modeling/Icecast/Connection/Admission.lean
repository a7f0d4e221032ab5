import Icecast.Source.AvlTree
import Icecast.Source.Fallbacks
import Mathlib.Algebra.Group.Int.Defs

/-!
# Admitting a listener

`__add_listener_to_source` (`connection.c`) puts a listener into the tree of pending listeners of a
source. If the source is full it may name another one that takes the listener instead, which may be
full again. Each of these hops is a lookup that may itself follow a chain of fallbacks, and both
kinds of chains may be circular.

The limit of a source is signed and the number of its listeners is not. They are compared after the
limit has been made unsigned, so a negative one is no limit in practice.
-/

namespace Icecast.Connection.Admission

open Lib.SearchTree Source.AvlTree Source.Fallbacks
open Source.Mounts hiding sourceFindMountRaw sourceFindMount

/-! ## Sources and the client -/

/-- What `__add_listener_to_source` reads and writes of a `source_t`. A client stands in a tree under
the number of its connection. -/
structure Details where
  maxListeners : ℤ
  listeners : ℕ
  fallbackWhenFull : Bool
  fallbackMount : Option String
  onDemandReq : Bool
  clientTree : List ℕ
  pendingTree : List ℕ
  deriving DecidableEq

abbrev ListenSource := SourceState Details

/-- The values that the pointers to functions of a `client_t` may have. -/
inductive Callback where
  | formatGenericWriteToClient
  | formatCheckHttpBuffer
  | other (address : ℕ)
  deriving DecidableEq

structure Client where
  id : ℕ
  writeToClient : Callback
  checkBuffer : Callback
  refbufLen : ℕ
  refbufData : List UInt8
  deriving DecidableEq

structure State where
  sources : SourceTree Details
  client : Client

def perClientRefbufSize : ℕ := 4096

/-- Writes through a pointer to the source of that name. -/
def SourceTree.update (tree : SourceTree Details) (mount : String) (change : Details → Details) :
    SourceTree Details :=
  let write source :=
    if source.mount = mount then { source with details := change source.details } else source
  { root := tree.root.map write
    ordered := tree.ordered.map fun source ↦ by simp only [write]; split <;> rfl }

/-! ## The function -/

/-- How a round of the loop ends. -/
inductive Round where
  | leave (source : ListenSource)
  | fail
  | again (loop : ℕ) (source : ListenSource)

def round (config : Config) (sources : SourceTree Details) (loop : ℕ) (source : ListenSource) :
    Round :=
  if source.details.maxListeners = -1 then .leave source
  else if source.details.listeners < source.details.maxListeners % 2 ^ 64 then .leave source
  else if 0 < loop ∧ source.details.fallbackWhenFull ∧ source.details.fallbackMount.isSome then
    match (sourceFindMount config sources source.details.fallbackMount).1 with
    | none => .fail
    | some next => .again (loop - 1) next
  else .fail

/-- The loop, for at most `rounds` rounds. The result is `none` if that is not enough. -/
def roundsFrom (config : Config) (sources : SourceTree Details) :
    ℕ → ℕ → ListenSource → Option (Option ListenSource)
  | 0, _, _ => none
  | rounds + 1, loop, source =>
    match round config sources loop source with
    | .leave source => some (some source)
    | .fail => some none
    | .again loop source => roundsFrom config sources rounds loop source

/-- What is done after the loop has been left by a `break`. -/
def insertClient (source : ListenSource) (state : State) : State where
  client :=
    { state.client with
      writeToClient := .formatGenericWriteToClient
      checkBuffer := .formatCheckHttpBuffer
      refbufLen := perClientRefbufSize
      refbufData := List.replicate perClientRefbufSize 0 }
  sources := SourceTree.update state.sources source.mount fun details ↦
    { details with
      pendingTree := avlInsert (fun id ↦ id) state.client.id details.pendingTree
      onDemandReq := details.onDemandReq || (!source.running && source.onDemand) }

/-- The function returns within `rounds` rounds of its loop, or the result is `none`. -/
def addListenerToSource (config : Config) (rounds : ℕ) (state : State) (source : ListenSource) :
    Option (ℤ × State) :=
  (roundsFrom config state.sources rounds 10 source).map fun
    | none => (-1, state)
    | some source => (0, insertClient source state)

/-! ## Hops -/

section Hops

variable {config : Config} {sources : SourceTree Details}

/-- There is a limit, and it is reached. -/
def Full (source : ListenSource) : Prop :=
  source.details.maxListeners ≠ -1 ∧
    source.details.maxListeners % 2 ^ 64 ≤ source.details.listeners

/-- The second source is where the first one sends listeners that it has no room for. -/
def Hop (config : Config) (sources : SourceTree Details) (source next : ListenSource) : Prop :=
  Full source ∧ source.details.fallbackWhenFull ∧ ∃ mount,
    source.details.fallbackMount = some mount ∧
      (sourceFindMount config sources (some mount)).1 = some next

inductive Hops (config : Config) (sources : SourceTree Details) :
    ℕ → ListenSource → ListenSource → Prop
  | refl (source) : Hops config sources 0 source source
  | head {n source next target} (hop : Hop config sources source next)
      (rest : Hops config sources n next target) : Hops config sources (n + 1) source target

/-- Everything that a round can do. -/
theorem round_cases (config : Config) (sources : SourceTree Details) (loop : ℕ)
    (source : ListenSource) :
    (¬ Full source ∧ round config sources loop source = .leave source) ∨
    (Full source ∧ round config sources loop source = .fail) ∨
    ∃ n next, loop = n + 1 ∧ Hop config sources source next ∧
      round config sources loop source = .again n next := by
  unfold round
  by_cases hunlimited : source.details.maxListeners = -1
  · exact .inl ⟨fun hfull ↦ hfull.1 hunlimited, if_pos hunlimited⟩
  rw [if_neg hunlimited]
  by_cases hroom : source.details.listeners < source.details.maxListeners % 2 ^ 64
  · exact .inl ⟨fun hfull ↦ hfull.2.not_gt hroom, if_pos hroom⟩
  have hfull : Full source := ⟨hunlimited, not_lt.mp hroom⟩
  rw [if_neg hroom]
  split
  · rename_i hgoes
    obtain ⟨mount, hmount⟩ := Option.isSome_iff_exists.mp hgoes.2.2
    rw [hmount]
    cases hfound : (sourceFindMount config sources (some mount)).1 with
    | none => exact .inr (.inl ⟨hfull, rfl⟩)
    | some next =>
      exact .inr (.inr ⟨loop - 1, next, by omega, ⟨hfull, hgoes.2.1, mount, hmount, hfound⟩, rfl⟩)
  · exact .inr (.inl ⟨hfull, rfl⟩)

/-- A round either ends the loop or takes one off `loop`, so `loop + 1` rounds are enough. -/
theorem roundsFrom_spec (loop : ℕ) (source : ListenSource) :
    ∃ result, (∀ rounds > loop, roundsFrom config sources rounds loop source = some result) ∧
      ∀ target, result = some target →
        ¬ Full target ∧ ∃ n ≤ loop, Hops config sources n source target := by
  induction loop using Nat.strong_induction_on generalizing source with
  | _ loop ih =>
    have hunfold : ∀ rounds > loop, ∃ fewer, fewer + 1 = rounds ∧
        roundsFrom config sources rounds loop source =
          match round config sources loop source with
          | .leave source => some (some source)
          | .fail => some none
          | .again loop source => roundsFrom config sources fewer loop source := by
      intro rounds hrounds
      obtain ⟨fewer, rfl⟩ := Nat.exists_eq_add_one_of_ne_zero (Nat.ne_zero_of_lt hrounds)
      exact ⟨fewer, rfl, rfl⟩
    rcases round_cases config sources loop source with
      ⟨hroom, hround⟩ | ⟨-, hround⟩ | ⟨left, next, rfl, hhop, hround⟩
    · refine ⟨some source, ?_, ?_⟩
      · intro rounds hrounds
        obtain ⟨fewer, -, hresult⟩ := hunfold rounds hrounds
        rw [hresult, hround]
      · rintro target ⟨⟩
        exact ⟨hroom, 0, Nat.zero_le loop, .refl source⟩
    · refine ⟨none, ?_, nofun⟩
      intro rounds hrounds
      obtain ⟨fewer, -, hresult⟩ := hunfold rounds hrounds
      rw [hresult, hround]
    · obtain ⟨result, hends, htarget⟩ := ih left (Nat.lt_succ_self left) next
      refine ⟨result, ?_, ?_⟩
      · intro rounds hrounds
        obtain ⟨fewer, rfl, hresult⟩ := hunfold rounds hrounds
        rw [hresult, hround]
        exact hends fewer (Nat.lt_of_succ_lt_succ hrounds)
      · intro target hfound
        obtain ⟨hroom, n, hn, hhops⟩ := htarget target hfound
        exact ⟨hroom, n + 1, Nat.succ_le_succ hn, .head hhop hhops⟩

/-- A lookup only finds what is in the tree. -/
theorem mem_of_sourceFindMount {mount : Option String} {source : ListenSource}
    (h : (sourceFindMount config sources mount).1 = some source) : source ∈ items sources.root := by
  obtain ⟨k, -, havailable, -⟩ := ((fallback_resolution config sources mount).1 source).mp h
  obtain ⟨name, -, hfound⟩ := Option.bind_eq_some_iff.mp (Option.filter_eq_some_iff.mp havailable).1
  exact (sourceFindMountRaw_mem hfound).1

theorem Hops.mem {n : ℕ} {source target : ListenSource} (h : Hops config sources n source target)
    (hsource : source ∈ items sources.root) : target ∈ items sources.root := by
  induction h with
  | refl source => exact hsource
  | head hop rest ih =>
    obtain ⟨-, -, mount, -, hfound⟩ := hop
    exact ih (mem_of_sourceFindMount hfound)

end Hops

/-! ## The trees afterwards -/

/-- The listeners of the source of that name, active and pending. -/
def treesAt (state : State) (mount : String) : Option (List ℕ × List ℕ) :=
  (sourceFindMountRaw state.sources mount).map fun source ↦
    (source.details.clientTree, source.details.pendingTree)

theorem sourceFindMountRaw_of_mem {sources : SourceTree Details} {source : ListenSource}
    (h : source ∈ items sources.root) : sourceFindMountRaw sources source.mount = some source :=
  (find?_eq_some_iff sources.ordered).mpr ⟨h, rfl⟩

theorem sourceFindMountRaw_update (sources : SourceTree Details) (name mount : String)
    (change : Details → Details) :
    sourceFindMountRaw (SourceTree.update sources name change) mount =
      (sourceFindMountRaw sources mount).map fun source ↦
        if mount = name then { source with details := change source.details } else source := by
  have hkey : ∀ source : ListenSource,
      (if source.mount = name then { source with details := change source.details } else source).mount =
        source.mount := by
    intro source
    split <;> rfl
  rw [sourceFindMountRaw, SourceTree.update, find?_map sources.ordered hkey]
  apply Option.map_congr
  intro source hfound
  rw [((find?_eq_some_iff sources.ordered).mp hfound).2]

/-- Only the pending listeners of one source change. -/
theorem treesAt_insertClient {state : State} {target : ListenSource}
    (htarget : target ∈ items state.sources.root) (mount : String) :
    treesAt (insertClient target state) mount =
      if mount = target.mount then
        some (target.details.clientTree, avlInsert (fun id ↦ id) state.client.id target.details.pendingTree)
      else treesAt state mount := by
  rw [treesAt, insertClient, sourceFindMountRaw_update, Option.map_map]
  split
  · rename_i hmount
    rw [hmount, sourceFindMountRaw_of_mem htarget]
    rfl
  · rfl

/-- The function returns. If it returns `0` then the client is one more pending listener of one source,
which has room and is reached by at most ten hops, each from a source without room. If it returns `-1`
then nothing has changed. -/
theorem listener_admission (config : Config) (state : State) (source : ListenSource)
    (hsource : source ∈ items state.sources.root) :
    ∃ ret after,
      (∀ rounds > 10, addListenerToSource config rounds state source = some (ret, after)) ∧
      ((ret = -1 ∧ after = state) ∨
        (ret = 0 ∧ ∃ target ∈ items state.sources.root,
          (target.details.maxListeners = -1 ∨
            target.details.listeners < target.details.maxListeners % 2 ^ 64) ∧
          (∃ n ≤ 10, Hops config state.sources n source target) ∧
          ∃ pending, pending.Perm (state.client.id :: target.details.pendingTree) ∧
            ∀ mount, treesAt after mount =
              if mount = target.mount then some (target.details.clientTree, pending)
              else treesAt state mount)) := by
  obtain ⟨result, hends, htarget⟩ := @roundsFrom_spec config state.sources 10 source
  cases result with
  | none =>
    refine ⟨-1, state, ?_, .inl ⟨rfl, rfl⟩⟩
    intro rounds hrounds
    rw [addListenerToSource, hends rounds hrounds, Option.map_some]
  | some target =>
    obtain ⟨hroom, n, hn, hhops⟩ := htarget target rfl
    refine ⟨0, insertClient target state, ?_, .inr ⟨rfl, target, hhops.mem hsource, ?_, ⟨n, hn, hhops⟩,
      avlInsert (fun id ↦ id) state.client.id target.details.pendingTree, avlInsert_perm _ _ _,
      treesAt_insertClient (hhops.mem hsource)⟩⟩
    · intro rounds hrounds
      rw [addListenerToSource, hends rounds hrounds, Option.map_some]
    · rw [Full, not_and_or, not_ne_iff, not_le] at hroom
      exact hroom

/-- A source that is full and a fallback for it. -/
def exampleState (maxListeners : ℤ) : State where
  client := ⟨7, .other 1, .other 2, 0, []⟩
  sources :=
    { root := .node ⟨"/a", true, false, ⟨1, 1, true, some "/b", false, [3], []⟩⟩ .nil
        (.node ⟨"/b", true, false, ⟨maxListeners, 0, false, none, false, [], []⟩⟩ .nil .nil)
      ordered := by
        simp only [Ordered, items, List.nil_append, List.pairwise_cons, List.mem_singleton,
          forall_eq, String.lt_iff_toList_lt]
        decide }

theorem listener_admission_fallback :
    ∃ ret after,
      (∀ rounds > 10, addListenerToSource ⟨[], fun _ _ ↦ false⟩ rounds (exampleState 5)
        ⟨"/a", true, false, ⟨1, 1, true, some "/b", false, [3], []⟩⟩ = some (ret, after)) ∧
      ((ret = -1 ∧ after = exampleState 5) ∨
        (ret = 0 ∧ ∃ target ∈ items (exampleState 5).sources.root,
          (target.details.maxListeners = -1 ∨
            target.details.listeners < target.details.maxListeners % 2 ^ 64) ∧
          (∃ n ≤ 10, Hops ⟨[], fun _ _ ↦ false⟩ (exampleState 5).sources n
            ⟨"/a", true, false, ⟨1, 1, true, some "/b", false, [3], []⟩⟩ target) ∧
          ∃ pending, pending.Perm (7 :: target.details.pendingTree) ∧
            ∀ mount, treesAt after mount =
              if mount = target.mount then some (target.details.clientTree, pending)
              else treesAt (exampleState 5) mount)) := by
  exact listener_admission ⟨[], fun _ _ ↦ false⟩ (exampleState 5) _ (by decide)

/-- A limit of `-5` is not `-1`, and no number of listeners is below it, but it does not keep anybody
out. -/
theorem negative_limit_admits :
    ∃ after, addListenerToSource ⟨[], fun _ _ ↦ false⟩ 11 (exampleState (-5))
        ⟨"/b", true, false, ⟨-5, 0, false, none, false, [], []⟩⟩ = some (0, after) ∧
      treesAt after "/a" = some ([3], []) ∧ treesAt after "/b" = some ([], [7]) ∧
      (∀ source ∈ items after.sources.root, 7 ∈ source.details.pendingTree →
        ¬ (source.details.maxListeners = -1 ∨
          source.details.listeners < source.details.maxListeners)) := by
  let target : ListenSource := ⟨"/b", true, false, ⟨-5, 0, false, none, false, [], []⟩⟩
  have htarget : target ∈ items (exampleState (-5)).sources.root := by decide
  have hother : ⟨"/a", true, false, ⟨1, 1, true, some "/b", false, [3], []⟩⟩ ∈
      items (exampleState (-5)).sources.root := by decide
  refine ⟨insertClient target (exampleState (-5)), rfl, ?_, ?_, by decide⟩
  · rw [treesAt_insertClient htarget, if_neg (by decide), treesAt, sourceFindMountRaw_of_mem hother]
    rfl
  · rw [treesAt_insertClient htarget, if_pos rfl]
    rfl

end Icecast.Connection.Admission
