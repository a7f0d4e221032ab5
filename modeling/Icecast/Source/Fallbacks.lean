import Icecast.Lib.SearchTree
import Icecast.Source.Mounts
import Mathlib.Data.String.Basic

/-!
# Following fallbacks

`source_find_mount` (`source.c`) looks for a source that listeners can be sent to: the one at the given
mountpoint, else the one at its fallback, and so on. The fallbacks stand in the configuration, where
they may lead in a circle, so the number of mountpoints that are looked at is limited.

The lookups of the module on mountpoints are taken here as the loops that they are: a walk down the
tree of sources, and one along the list of mounts.
-/

namespace Icecast.Source.Fallbacks

open Auth (MountType)
open Lib.SearchTree
open Mounts hiding sourceFindMountRaw sourceFindMount

variable {δ : Type*}

/-! ## The lookups -/

/-- `source_tree` -/
structure SourceTree (δ : Type*) where
  root : BinaryTree (SourceState δ)
  ordered : Ordered SourceState.mount root

def sourceFindMountRaw (tree : SourceTree δ) (mount : String) : Option (SourceState δ) :=
  find? SourceState.mount mount tree.root

/-- The tests in the loop of `config_find_mount`. -/
def isMatch (fnmatch : String → String → Bool) (type : MountType) (mount : Option String)
    (mountinfo : MountInfo) : Bool :=
  if mountinfo.mounttype ≠ type then false
  else if mount = none ∧ mountinfo.mountname = none then true
  else
    match mountinfo.mounttype, mount, mountinfo.mountname with
    | .normal, some mount, some name => name = mount
    | .normal, _, _ => false
    | .default, some mount, some name => fnmatch name mount
    | .default, _, _ => true

/-- The loop of `config_find_mount`. -/
def findOfType (config : Config) (mount : Option String) (type : MountType) : Option MountInfo :=
  config.mounts.find? (isMatch config.fnmatch type mount)

def configFindMount (config : Config) (mount : Option String) (type : MountType) : Option MountInfo :=
  if mount = none ∧ type ≠ .default then none
  else
    match findOfType config mount type with
    | some mountinfo => some mountinfo
    | none => if type = .normal then findOfType config mount .default else none

/-- `source_find_mount`, when `left` more mountpoints may be looked at. The mountpoints that it looks at
are returned, too. -/
def findMountLoop (config : Config) (tree : SourceTree δ) :
    ℕ → Option String → Option (SourceState δ) × List String
  | 0, _ => (none, [])
  | _ + 1, none => (none, [])
  | left + 1, some mount =>
    match (sourceFindMountRaw tree mount).filter fun source ↦ source.running || source.onDemand with
    | some source => (some source, [mount])
    | none =>
      match configFindMount config (some mount) .normal with
      | none => (none, [mount])
      | some mountinfo =>
        let (source, examined) := findMountLoop config tree left mountinfo.fallbackMount
        (source, mount :: examined)

def sourceFindMount (config : Config) (tree : SourceTree δ) (mount : Option String) :
    Option (SourceState δ) × List String :=
  findMountLoop config tree maxFallbackDepth mount

/-! ## Agreement with the lookups in lists -/

theorem sourceFindMountRaw_eq (tree : SourceTree δ) (mount : String) :
    sourceFindMountRaw tree mount = Mounts.sourceFindMountRaw (items tree.root) mount :=
  find?_eq_find?_items tree.ordered mount

theorem configFindMount_eq (config : Config) (mount : String) :
    configFindMount config (some mount) .normal = Mounts.configFindMount config mount := by
  have hnormal : findOfType config (some mount) .normal = config.mounts.find? fun mountinfo ↦
      mountinfo.mounttype = .normal && mountinfo.mountname = some mount := by
    unfold findOfType
    congr 1
    funext ⟨mounttype, mountname, fallbackMount, hidden, maxListeners⟩
    cases mounttype <;> cases mountname <;> simp [isMatch]
  have hdefault : findOfType config (some mount) .default = configFindDefaultMount config mount := by
    unfold findOfType configFindDefaultMount
    congr 1
    funext ⟨mounttype, mountname, fallbackMount, hidden, maxListeners⟩
    cases mounttype <;> cases mountname <;> simp [isMatch]
  rw [configFindMount, if_neg (by simp), hnormal, hdefault, if_pos rfl, Mounts.configFindMount]
  cases config.mounts.find? fun mountinfo ↦
      mountinfo.mounttype = .normal && mountinfo.mountname = some mount with
  | some mountinfo => simp
  | none => simp

/-- One round of the loop, with the lookups in lists. -/
theorem findMountLoop_some (config : Config) (tree : SourceTree δ) (left : ℕ) (mount : String) :
    findMountLoop config tree (left + 1) (some mount) =
      match (Mounts.sourceFindMountRaw (items tree.root) mount).filter SourceState.available with
      | some source => (some source, [mount])
      | none =>
        match Mounts.configFindMount config mount with
        | none => (none, [mount])
        | some mountinfo =>
          ((findMountLoop config tree left mountinfo.fallbackMount).1,
            mount :: (findMountLoop config tree left mountinfo.fallbackMount).2) := by
  rw [findMountLoop, sourceFindMountRaw_eq, configFindMount_eq]
  rfl

/-- The loop does what the recursion over mountpoints does. -/
theorem findMountLoop_eq (config : Config) (tree : SourceTree δ) (left : ℕ) (mount : String) :
    (findMountLoop config tree left (some mount)).1 =
      findAvailable config (items tree.root) left mount := by
  induction left generalizing mount with
  | zero => rfl
  | succ left ih =>
    rw [findMountLoop_some, findAvailable]
    cases (Mounts.sourceFindMountRaw (items tree.root) mount).filter SourceState.available with
    | some source => rfl
    | none =>
      cases Mounts.configFindMount config mount with
      | none => rfl
      | some mountinfo =>
        cases hfallback : mountinfo.fallbackMount with
        | none => cases left <;> simp [hfallback, findMountLoop]
        | some fallback => simp [hfallback, ih]

theorem sourceFindMount_eq (config : Config) (tree : SourceTree δ) (mount : String) :
    (sourceFindMount config tree (some mount)).1 =
      Mounts.sourceFindMount config (items tree.root) mount :=
  findMountLoop_eq config tree maxFallbackDepth mount

/-! ## The chain of fallbacks -/

section Chain

variable {config : Config} {tree : SourceTree δ} {mount : Option String} {left : ℕ}

/-- The mountpoint after the given one: the fallback of the first mount of that name, else of the first
default mount that matches. -/
def nextMount (config : Config) (mount : Option String) : Option String :=
  (mount.bind (Mounts.configFindMount config)).bind (·.fallbackMount)

def fallbackChain (config : Config) (mount : Option String) (k : ℕ) : Option String :=
  (nextMount config)^[k] mount

/-- The source of that name in the tree, if listeners can be sent to it. -/
def availableAt (tree : SourceTree δ) (mount : Option String) : Option (SourceState δ) :=
  (mount.bind (Mounts.sourceFindMountRaw (items tree.root))).filter SourceState.available

theorem fallbackChain_succ (config : Config) (mount : Option String) (k : ℕ) :
    fallbackChain config mount (k + 1) = fallbackChain config (nextMount config mount) k :=
  Function.iterate_succ_apply _ k mount

theorem fallbackChain_none (config : Config) (k : ℕ) : fallbackChain config none k = none := by
  induction k with
  | zero => rfl
  | succ k ih => rw [fallbackChain_succ, show nextMount config none = none from rfl, ih]

theorem range_eq_append {n k : ℕ} (h : k < n) :
    List.range n = List.range k ++ k :: (List.range n).drop (k + 1) := by
  have hlt : k < (List.range n).length := by rwa [List.length_range]
  calc
    List.range n = (List.range n).take k ++ (List.range n).drop k := (List.take_append_drop k _).symm
    _ = List.range k ++ k :: (List.range n).drop (k + 1) := by
      rw [List.take_range, Nat.min_eq_left h.le, List.drop_eq_getElem_cons hlt, List.getElem_range]

theorem findSome?_range_eq_some_iff {α : Type*} {f : ℕ → Option α} {n : ℕ} {value : α} :
    (List.range n).findSome? f = some value ↔
      ∃ k < n, f k = some value ∧ ∀ j < k, f j = none := by
  constructor
  · intro h
    obtain ⟨before, k, after, hrange, hk, hbefore⟩ := List.findSome?_eq_some_iff.mp h
    have hget : (List.range n)[before.length]? = some k := by simp [hrange]
    obtain ⟨hlt, heq⟩ := List.getElem?_eq_some_iff.mp hget
    rw [List.length_range] at hlt
    rw [List.getElem_range] at heq
    subst heq
    have hsame : before = List.range before.length :=
      (List.append_inj (hrange.symm.trans (range_eq_append hlt)) (by rw [List.length_range])).1
    refine ⟨before.length, hlt, hk, ?_⟩
    intro j hj
    exact hbefore j (hsame ▸ List.mem_range.mpr hj)
  · rintro ⟨k, hlt, hk, hbefore⟩
    apply List.findSome?_eq_some_iff.mpr
    refine ⟨List.range k, k, _, range_eq_append hlt, hk, ?_⟩
    intro j hj
    exact hbefore j (List.mem_range.mp hj)

/-- The first mountpoints of the chain, one after the other. -/
theorem findMountLoop_fst (left : ℕ) (mount : Option String) :
    (findMountLoop config tree left mount).1 =
      (List.range left).findSome? fun k ↦ availableAt tree (fallbackChain config mount k) := by
  induction left generalizing mount with
  | zero => rfl
  | succ left ih =>
    cases mount with
    | none =>
      simp only [fallbackChain_none]
      symm
      rw [findMountLoop, List.findSome?_eq_none_iff]
      intro _ _
      rfl
    | some mount =>
      rw [List.range_succ_eq_map, List.findSome?_cons, List.findSome?_map]
      simp only [Function.comp_def, fallbackChain_succ, ← ih]
      rw [show fallbackChain config (some mount) 0 = some mount from rfl, findMountLoop_some, availableAt,
        Option.bind_some]
      cases (Mounts.sourceFindMountRaw (items tree.root) mount).filter SourceState.available with
      | some source => rfl
      | none =>
        rw [nextMount, Option.bind_some]
        cases Mounts.configFindMount config mount with
        | none => cases left <;> rfl
        | some mountinfo => rfl

/-- What has been looked at is the beginning of the chain. -/
theorem findMountLoop_snd (left : ℕ) (mount : Option String) :
    (findMountLoop config tree left mount).2.length ≤ left ∧
      (findMountLoop config tree left mount).2.map some =
        (List.range (findMountLoop config tree left mount).2.length).map
          (fallbackChain config mount) := by
  induction left generalizing mount with
  | zero => exact ⟨Nat.le_refl 0, rfl⟩
  | succ left ih =>
    cases mount with
    | none => exact ⟨Nat.zero_le _, rfl⟩
    | some mount =>
      rw [findMountLoop_some]
      cases (Mounts.sourceFindMountRaw (items tree.root) mount).filter SourceState.available with
      | some source => exact ⟨Nat.succ_le_succ (Nat.zero_le left), rfl⟩
      | none =>
        cases hinfo : Mounts.configFindMount config mount with
        | none => exact ⟨Nat.succ_le_succ (Nat.zero_le left), rfl⟩
        | some mountinfo =>
          obtain ⟨hlength, hchain⟩ := ih mountinfo.fallbackMount
          have hnext : nextMount config (some mount) = mountinfo.fallbackMount := by
            rw [nextMount, Option.bind_some, hinfo, Option.bind_some]
          dsimp only
          refine ⟨Nat.succ_le_succ hlength, ?_⟩
          rw [List.map_cons, hchain, List.length_cons, List.range_succ_eq_map, List.map_cons,
            List.map_map]
          congr 1
          apply List.map_congr_left
          intro k _
          rw [Function.comp_apply, fallbackChain_succ, hnext]

/-- Of the first mountpoints of the chain, no more of which are looked at than allowed, the first one
with a source for listeners is found, and nothing only if there is none. -/
theorem fallback_resolution (config : Config) (tree : SourceTree δ) (mount : Option String) :
    (∀ source, (sourceFindMount config tree mount).1 = some source ↔
      ∃ k < maxFallbackDepth, availableAt tree (fallbackChain config mount k) = some source ∧
        ∀ j < k, availableAt tree (fallbackChain config mount j) = none) ∧
    ((sourceFindMount config tree mount).1 = none ↔
      ∀ k < maxFallbackDepth, availableAt tree (fallbackChain config mount k) = none) ∧
    (sourceFindMount config tree mount).2.length ≤ maxFallbackDepth ∧
    (sourceFindMount config tree mount).2.map some =
      (List.range (sourceFindMount config tree mount).2.length).map (fallbackChain config mount) := by
  have hfound : (sourceFindMount config tree mount).1 = (List.range maxFallbackDepth).findSome?
      fun k ↦ availableAt tree (fallbackChain config mount k) := findMountLoop_fst _ mount
  refine ⟨?_, ?_, findMountLoop_snd _ mount⟩
  · intro source
    rw [hfound, findSome?_range_eq_some_iff]
  · rw [hfound, List.findSome?_eq_none_iff]
    simp only [List.mem_range]

/-- A mountpoint that is its own fallback is looked at again and again. -/
example : sourceFindMount ⟨[⟨.normal, some "/a", some "/a", false, -1⟩], fun _ _ ↦ false⟩
    (⟨.nil, List.Pairwise.nil⟩ : SourceTree Unit) (some "/a") = (none, List.replicate 10 "/a") := by
  decide

end Chain

end Icecast.Source.Fallbacks
