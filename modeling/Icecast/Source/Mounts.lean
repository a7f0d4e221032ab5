import Icecast.Auth.Stack

/-!
# Mountpoints and their settings

The lookups that go from the name of a mountpoint to its source and to its settings: the tree of all
sources (`source.c`) and the list of mounts of the configuration (`cfgfile.c`). The rest of a
`source_t` is a parameter, and the tree is a list in the order of the names.
-/

namespace Icecast.Source.Mounts

open Auth (MountType)

/-- `mount_proxy`, as far as these lookups and the virtual mounts read it. -/
structure MountInfo where
  mounttype : MountType
  mountname : Option String
  fallbackMount : Option String
  hidden : Bool
  maxListeners : ℤ
  deriving DecidableEq

/-- `ice_config_t`; `fnmatch` matches the pattern of a default mount. -/
structure Config where
  mounts : List MountInfo
  fnmatch : String → String → Bool

def configFindDefaultMount (config : Config) (mount : String) : Option MountInfo :=
  config.mounts.find? fun mountinfo ↦
    mountinfo.mounttype = .default && match mountinfo.mountname with
      | none => true
      | some name => config.fnmatch name mount

/-- `config_find_mount` for `MOUNT_TYPE_NORMAL`: a mount of that name, else a default mount. -/
def configFindMount (config : Config) (mount : String) : Option MountInfo :=
  let found := config.mounts.find? fun mountinfo ↦
    mountinfo.mounttype = .normal && mountinfo.mountname = some mount
  if found.isSome then found else configFindDefaultMount config mount

/-- `source_t`; whatever else a user of the tree needs of it stands in `details`. -/
structure SourceState (δ : Type*) where
  mount : String
  running : Bool
  onDemand : Bool
  details : δ
  deriving DecidableEq

variable {δ : Type*}

namespace SourceState

/-- The source is there for listeners. -/
def available (source : SourceState δ) : Bool := source.running || source.onDemand

end SourceState

def sourceFindMountRaw (tree : List (SourceState δ)) (mount : String) : Option (SourceState δ) :=
  tree.find? (·.mount = mount)

def maxFallbackDepth : ℕ := 10

/-- The loop of `source_find_mount`, with the number of mounts that may still be looked at. -/
def findAvailable (config : Config) (tree : List (SourceState δ)) : ℕ → String → Option (SourceState δ)
  | 0, _ => none
  | depth + 1, mount =>
    match (sourceFindMountRaw tree mount).filter (·.available) with
    | some source => some source
    | none =>
      ((configFindMount config mount).bind (·.fallbackMount)).bind (findAvailable config tree depth)

def sourceFindMount (config : Config) (tree : List (SourceState δ)) (mount : String) :
    Option (SourceState δ) :=
  findAvailable config tree maxFallbackDepth mount

theorem sourceFindMountRaw_mem {tree : List (SourceState δ)} {mount : String} {source : SourceState δ}
    (h : sourceFindMountRaw tree mount = some source) : source ∈ tree ∧ source.mount = mount := by
  constructor
  · exact List.mem_of_find?_eq_some h
  · simpa using List.find?_some h

end Icecast.Source.Mounts
