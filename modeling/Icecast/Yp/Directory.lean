import Icecast.Lib.OrderedMap
import Icecast.Yp.Entry
import Mathlib.Data.String.Basic

/-!
# The directory servers and their entries

Every directory server has two lists of entries. New entries go to `pending_mounts`; the update
thread, which alone changes the structure of `mounts`, takes them over in its next round and then
deletes the entries that were marked for removal. `yp_add`, `yp_remove` and a new configuration come
from other threads between any two steps of the update thread, which only keeps them out while it
changes the lists.
-/

namespace Icecast.Yp

open Lib

structure Server where
  url : String
  touchInterval : ℕ
  remove : Bool
  mounts : List Ypdata
  pendingMounts : List Ypdata

/-- Where the update thread stands: in `thread_sleep`, at an entry of a server, or before it takes
the write lock. In the second case the server may have turned out to be dead in this round. -/
inductive Location where
  | sleeping
  | processing (server entry : ℕ) (phase : Phase) (dead : Bool)
  | updating

structure State where
  activeYps : List Server
  pendingYps : List Server
  ypUpdate : Bool
  site : Site
  location : Location
  now : ℕ

def start (site : Site) : State := ⟨[], [], false, site, .sleeping, 0⟩

/-! ## Calls from other threads -/

/-- An entry of the mount that is still waiting in `pending_mounts` is not looked for. -/
def addMount (site : Site) (mount : String) (time : ℕ) (server : Server) : Server :=
  if server.mounts.any (·.mount = mount) then server
  else
    { server with
      pendingMounts := { createYpEntry site mount with
        touchInterval := server.touchInterval, nextUpdate := time + 60 } :: server.pendingMounts }

def ypAdd (mount : String) (time : ℕ) (s : State) : State :=
  { s with
    activeYps := s.activeYps.map (addMount s.site mount time)
    ypUpdate := s.ypUpdate || s.activeYps.any fun server ↦ !server.mounts.any (·.mount = mount) }

/-- Marks all entries of the mount in `mounts`, one after another. -/
def removeMount (mount : String) (server : Server) : Server :=
  { server with
    mounts := server.mounts.map fun yp ↦ if yp.mount = mount then markRelease yp else yp }

def ypRemove (mount : String) (s : State) : State :=
  { s with activeYps := s.activeYps.map (removeMount mount) }

/-- A directory of the configuration; `curl` is false if no handle can be made for it. -/
structure YpConfig where
  url : String
  touchInterval : ℕ
  curl : Bool

def keepServer (url : String) : List Server → List Server
  | [] => []
  | server :: servers =>
    if server.url = url then { server with remove := false } :: servers
    else server :: keepServer url servers

/-- The loop of `yp_recheck_config`; servers that are not known yet wait in `pending_yps`. -/
def recheckYps : List YpConfig → State → State
  | [], s => s
  | yp :: yps, s =>
    if s.activeYps.any (·.url = yp.url) then
      recheckYps yps { s with activeYps := keepServer yp.url s.activeYps }
    else if s.pendingYps.any (·.url = yp.url) then
      recheckYps yps { s with pendingYps := keepServer yp.url s.pendingYps }
    else if yp.curl then
      recheckYps yps { s with
        pendingYps := ⟨yp.url, max yp.touchInterval 30, false, [], []⟩ :: s.pendingYps }
    else s

def ypRecheckConfig (site : Site) (yps : List YpConfig) (s : State) : State :=
  { recheckYps yps { s with
      site, activeYps := s.activeYps.map fun server ↦ { server with remove := true } } with
    ypUpdate := true }

/-! ## The update thread -/

def setEntry (server entry : ℕ) (yp : Ypdata) (s : State) : State :=
  { s with
    activeYps := s.activeYps.modify server fun server ↦
      { server with mounts := server.mounts.set entry yp } }

/-- The next step of the thread in `yp_process_server`, with what it meets in `process_ypdata`.
`do_yp_remove` sets `yp_update` together with `remove`. -/
def processStep (act : Act) (server entry : ℕ) (phase : Phase) (dead : Bool) (s : State) : State :=
  match s.activeYps[server]? with
  | none => { s with location := if s.ypUpdate then .updating else .sleeping }
  | some found =>
    match found.mounts[entry]? with
    | none => { s with location := .processing (server + 1) 0 .idle false }
    | some yp =>
      if dead then
        { setEntry server entry (skip yp) s with
          location := .processing server (entry + 1) .idle true }
      else
        let (visit, result) := processYpdata s.site ⟨yp, phase, s.now⟩ act
        { setEntry server entry visit.yp s with
          now := visit.now
          ypUpdate := s.ypUpdate || visit.yp.remove
          location := match result with
            | .returned ret => .processing server (entry + 1) .idle (ret = -2)
            | _ => .processing server entry visit.phase false }

/-- A new server gets an entry for every public source, the last one of the tree first. -/
def populate (site : Site) (sources : OrderedMap String Bool) (server : Server) : Server :=
  { server with
    mounts := ((sources.entries.filter (·.2)).map fun source ↦
      { createYpEntry site source.1 with touchInterval := server.touchInterval }).reverse ++
        server.mounts }

def checkServers (sources : OrderedMap String Bool) (s : State) : State :=
  { s with
    activeYps := (s.pendingYps.map (populate s.site sources)).reverse ++
      s.activeYps.filter (!·.remove)
    pendingYps := [] }

def addPendingYp (server : Server) : Server :=
  { server with mounts := server.pendingMounts ++ server.mounts, pendingMounts := [] }

def deleteMarkedYp (server : Server) : Server :=
  { server with mounts := server.mounts.filter (!·.remove) }

/-- What the update thread does under the write lock. -/
def updateLists (sources : OrderedMap String Bool) (s : State) : State :=
  let s := checkServers sources s
  { s with
    activeYps := s.activeYps.map fun server ↦ deleteMarkedYp (addPendingYp server)
    ypUpdate := false
    location := .sleeping }

/-- `sources` is the tree of sources, of which each is public or not. -/
def threadStep (act : Act) (sources : OrderedMap String Bool) (s : State) : State :=
  match s.location with
  | .sleeping => { s with location := .processing 0 0 .idle false }
  | .processing server entry phase dead => processStep act server entry phase dead s
  | .updating => updateLists sources s

inductive Call where
  | add (mount : String) (time : ℕ)
  | remove (mount : String)
  | recheck (site : Site) (yps : List YpConfig)
  | thread (act : Act) (sources : OrderedMap String Bool)

def next (s : State) : Call → State
  | .add mount time => ypAdd mount time s
  | .remove mount => ypRemove mount s
  | .recheck site yps => ypRecheckConfig site yps s
  | .thread act sources => threadStep act sources s

end Icecast.Yp
