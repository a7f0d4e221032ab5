import Icecast.Lib.Decimal
import Icecast.Lib.Machine

/-!
# An entry in a stream directory

`yp.c` announces public streams to directory servers. For every stream and every server there is an
entry, which is announced by an `add` request, kept alive by `touch` requests and withdrawn by a
`remove` request. The directory answers an `add` with a session id that the other requests have to
give. The requests of all entries are made by one thread; another thread may mark an entry for its
release at any time, also while the directory is being waited for.

A call of `process_ypdata` is followed from one such point to the next: a request is built and sent,
headers of the response come in, the transfer ends.
-/

namespace Icecast.Yp

open Lib.Decimal Lib.Machine

/-- The texts about a stream that `add_yp_info` sets. -/
inductive Info where
  | serverName
  | serverDesc
  | serverGenre
  | serverUrl
  | bitrate
  | audioInfo
  | serverType
  | currentSong
  | clusterPassword
  | subtype
  deriving DecidableEq

/-- The functions `process` can point to. -/
inductive Process where
  | add
  | touch
  | remove
  deriving DecidableEq

structure Ypdata where
  remove : Bool
  release : Bool
  cmdOk : Bool
  sid : Option String
  mount : String
  listenUrl : String
  info : Info → String
  nextUpdate : ℕ
  touchInterval : ℕ
  errorMsg : Option String
  process : Process

/-- What is read from the configuration. `escape` is `util_url_escape`. -/
structure Site where
  hostname : String
  port : ℤ
  admin : String
  clientLimit : ℕ
  clusterPassword : String → Option String
  escape : String → String

def exampleSite : Site where
  hostname := "localhost"
  port := 8000
  admin := "icemaster"
  clientLimit := 100
  clusterPassword _ := none
  escape text := text

/-- The values that `stats_get_value` finds for a mount. -/
abbrev Stats := String → Option String

def addYpInfo (site : Site) (type : Info) (info : Option String) (yp : Ypdata) : Ypdata :=
  match info with
  | none => yp
  | some value => { yp with info := Function.update yp.info type (site.escape value) }

def createYpEntry (site : Site) (mount : String) : Ypdata :=
  addYpInfo site .clusterPassword (site.clusterPassword mount)
    { remove := false
      release := false
      cmdOk := false
      sid := none
      mount
      listenUrl := site.escape ("http://" ++ site.hostname ++ ":" ++ toString site.port ++ mount)
      info := fun _ ↦ ""
      nextUpdate := 0
      touchInterval := 0
      errorMsg := none
      process := .add }

/-! ## Responses -/

/-- A header line, as far as `handle_returned_header` tells it from others. -/
inductive Header where
  | ypResponse
  | ypMessage (text : String)
  | sid (text : String)
  | touchFreq (secs : ℕ)
  | other
  deriving DecidableEq

def handleReturnedHeader (yp : Ypdata) : Header → Ypdata
  | .ypResponse => { yp with cmdOk := true }
  | .ypMessage text => { yp with errorMsg := some text }
  | .sid text => if yp.process = .add then { yp with sid := some text } else yp
  | .touchFreq secs => { yp with touchInterval := max secs 30 }
  | .other => yp

/-- The part of `send_to_yp` behind the transfer: zero if the command was accepted, `-1` if this
entry failed, `-2` if the server could not be reached. -/
def sendToYpEnd (now : ℕ) (failed : Bool) (yp : Ypdata) : ℤ × Ypdata :=
  if failed then (-2, { yp with process := .add, nextUpdate := now + 1200 })
  else if yp.cmdOk = false then
    let nextUpdate := match yp.process with
      | .add => now + 7200
      | .touch => now + if yp.touchInterval < 1200 then 1200 else yp.touchInterval
      | .remove => yp.nextUpdate
    (-1, { yp with
      errorMsg := some (yp.errorMsg.getD "no response from server")
      nextUpdate, process := .add, sid := none })
  else (0, yp)

/-! ## Requests -/

structure Request where
  process : Process
  /-- The session id that the text was built from. -/
  sid : Option String
  post : String
  deriving DecidableEq

/-- How far a function behind `process` gets on its own: it returns, it asks for a larger buffer, or
it waits for the directory. -/
inductive Outcome where
  | returned (ret : ℤ)
  | more (len : ℕ)
  | sent (request : Request)
  deriving DecidableEq

/-- A text of which `snprintf` could not write all and the null byte has to be built again. The
other ones are sent. -/
def sendToYp (len : ℕ) (request : Request) (yp : Ypdata) : Ypdata × Outcome :=
  if len ≤ request.post.utf8ByteSize then (yp, .more (request.post.utf8ByteSize + 1))
  else ({ yp with cmdOk := false }, .sent request)

/-- The C library writes a null pointer in this way. -/
def sidText (yp : Ypdata) : String := yp.sid.getD "(null)"

def doYpRemove (len : ℕ) (yp : Ypdata) : Ypdata × Outcome :=
  match yp.sid with
  | some sid => sendToYp len ⟨.remove, yp.sid, "action=remove&sid=" ++ sid⟩ yp
  | none => ({ yp with remove := true, process := .add }, .returned 0)

def addPost (site : Site) (yp : Ypdata) : String :=
  "action=add&admin=" ++ site.escape site.admin ++ "&sn=" ++ yp.info .serverName ++
    "&genre=" ++ yp.info .serverGenre ++ "&cpswd=" ++ yp.info .clusterPassword ++
    "&desc=" ++ yp.info .serverDesc ++ "&url=" ++ yp.info .serverUrl ++
    "&listenurl=" ++ yp.listenUrl ++ "&type=" ++ yp.info .serverType ++
    "&stype=" ++ yp.info .subtype ++ "&b=" ++ yp.info .bitrate ++ "&" ++ yp.info .audioInfo ++ "\r\n"

def doYpAdd (site : Site) (stats : Stats) (len : ℕ) (yp : Ypdata) : Ypdata × Outcome :=
  let yp := addYpInfo site .serverType (stats "server_type") yp
  let yp := addYpInfo site .serverName (stats "server_name") yp
  let yp := addYpInfo site .serverUrl (stats "server_url") yp
  let yp := addYpInfo site .serverGenre (stats "genre") yp
  let yp := addYpInfo site .bitrate ((stats "bitrate").or (stats "ice-bitrate")) yp
  let yp := addYpInfo site .serverDesc (stats "server_description") yp
  let yp := addYpInfo site .subtype (stats "subtype") yp
  let yp := addYpInfo site .audioInfo (stats "audio_info") yp
  sendToYp len ⟨.add, none, addPost site yp⟩ yp

def song : Option String → Option String → Option String
  | none, none => none
  | none, some title => some title
  | some artist, title => some (artist ++ " - " ++ title.getD "")

/-- A C `int` in a place where an unsigned number is printed. -/
def toUnsigned (value : ℤ) : ℕ := (value % 2 ^ 32).toNat

def touchListeners (stats : Stats) : ℕ := ((stats "listeners").map (toUnsigned ∘ atoi)).getD 0

def touchMaxListeners (site : Site) (stats : Stats) : ℕ :=
  match stats "max_listeners" with
  | none => site.clientLimit
  | some text =>
    if text = "unlimited" ∨ atoi text < 0 then site.clientLimit else toUnsigned (atoi text)

def touchPost (site : Site) (stats : Stats) (yp : Ypdata) : String :=
  "action=touch&sid=" ++ sidText yp ++ "&st=" ++ yp.info .currentSong ++
    "&listeners=" ++ toString (touchListeners stats) ++
    "&max_listeners=" ++ toString (touchMaxListeners site stats) ++
    "&stype=" ++ yp.info .subtype ++ "\r\n"

def doYpTouch (site : Site) (stats : Stats) (len : ℕ) (yp : Ypdata) : Ypdata × Outcome :=
  let yp := addYpInfo site .currentSong (song (stats "artist") (stats "title")) yp
  let yp := addYpInfo site .subtype (stats "subtype") yp
  sendToYp len ⟨.touch, yp.sid, touchPost site stats yp⟩ yp

/-- What the function that sent a request does when `send_to_yp` returns. -/
def finish (now clock : ℕ) (failed : Bool) (sender : Process) (yp : Ypdata) : ℤ × Ypdata :=
  let (ret, yp) := sendToYpEnd now failed yp
  match sender with
  | .add =>
    if ret = 0 then (0, { yp with process := .touch, nextUpdate := clock + 5 }) else (ret, yp)
  | .touch => if ret = 0 then (0, { yp with nextUpdate := now + yp.touchInterval }) else (-1, yp)
  | .remove => (ret, { yp with sid := none, remove := true, process := .add })

/-! ## The loop of `process_ypdata` -/

def processTurn (site : Site) (stats : Stats) (len : ℕ) (yp : Ypdata) : Ypdata × Outcome :=
  let yp := if yp.release then { yp with process := .remove, nextUpdate := 0 } else yp
  match yp.process with
  | .add => doYpAdd site stats len yp
  | .touch => doYpTouch site stats len yp
  | .remove => doYpRemove len yp

/-- Where the thread stands: outside of `process_ypdata`, before a further turn of its loop, or in
the transfer of a request. -/
inductive Phase where
  | idle
  | again (len : ℕ)
  | waiting (sender : Process)
  deriving DecidableEq

/-- What the thread meets. `attempt` is a turn of the loop, with the values of the stats that it
reads; `noMemory` a turn in which `realloc` fails. -/
inductive Act where
  | attempt (now : ℕ) (stats : Stats)
  | noMemory
  | header (header : Header)
  | done (failed : Bool) (clock : ℕ)

/-- An entry with the place of the thread in it; `now` is the time at which it came there. -/
structure Visit where
  yp : Ypdata
  phase : Phase
  now : ℕ

/-- `process_ypdata` returns, or goes on and may have sent a request. -/
inductive Result where
  | returned (ret : ℤ)
  | sent (request : Request)
  | going
  deriving DecidableEq

def attempt (site : Site) (stats : Stats) (len : ℕ) (visit : Visit) : Visit × Result :=
  match processTurn site stats len visit.yp with
  | (yp, .returned ret) => ({ visit with yp, phase := .idle }, .returned ret)
  | (yp, .more len) => ({ visit with yp, phase := .again len }, .going)
  | (yp, .sent request) => ({ visit with yp, phase := .waiting request.process }, .sent request)

def processYpdata (site : Site) (visit : Visit) (act : Act) : Visit × Result :=
  match visit.phase, act with
  | .idle, .attempt now stats =>
    if now < visit.yp.nextUpdate then ({ visit with now }, .returned 0)
    else attempt site stats 1024 { visit with now }
  | .again len, .attempt _ stats => attempt site stats len visit
  | .idle, .noMemory => (visit, .returned 0)
  | .again _, .noMemory => ({ visit with phase := .idle }, .returned 0)
  | .waiting _, .header header =>
    ({ visit with yp := handleReturnedHeader visit.yp header }, .going)
  | .waiting sender, .done failed clock =>
    let (ret, yp) := finish visit.now clock failed sender visit.yp
    ({ visit with yp, phase := .idle }, .returned ret)
  | _, _ => (visit, .going)

/-- Another entry has shown that the server cannot be reached. -/
def skip (yp : Ypdata) : Ypdata := { yp with process := .add, nextUpdate := yp.nextUpdate + 900 }

/-- `yp_remove` passes over entries that are marked already. -/
def markRelease (yp : Ypdata) : Ypdata :=
  if yp.release ∨ yp.remove then yp else { yp with release := true, nextUpdate := 0 }

/-! ## What a turn does -/

/-- What turns of the loop leave alone. -/
structure Keeps (yp yp' : Ypdata) : Prop where
  mount : yp'.mount = yp.mount
  release : yp'.release = yp.release
  remove : yp'.remove = yp.remove
  sid : yp'.sid = yp.sid

/-- The function that a turn calls. -/
def directed (yp : Ypdata) : Process := if yp.release then .remove else yp.process

/-- A turn calls this function, which needs a larger buffer, sends its request, or has nothing to
withdraw. -/
inductive Turned (yp : Ypdata) : Ypdata → Outcome → Prop
  | more {yp' : Ypdata} (len : ℕ) (hkeeps : Keeps yp yp') (hprocess : yp'.process = directed yp) :
    Turned yp yp' (.more len)
  | sent {yp' : Ypdata} (request : Request) (hkeeps : Keeps yp yp')
    (hprocess : yp'.process = directed yp) (hrequest : request.process = directed yp)
    (hsid : request.process ≠ .add → request.sid = yp.sid)
    (hremove : request.process = .remove → request.sid ≠ none) : Turned yp yp' (.sent request)
  | removed {yp' : Ypdata} (hmount : yp'.mount = yp.mount) (hrelease : yp'.release = yp.release)
    (hremove : yp'.remove = true) (hsid : yp'.sid = none) (hold : yp.sid = none)
    (hprocess : yp'.process = .add) (hdirected : directed yp = .remove) :
    Turned yp yp' (.returned 0)

section Turn

variable {site : Site} {stats : Stats} {len : ℕ} {yp yp' : Ypdata}

theorem Keeps.refl (yp : Ypdata) : Keeps yp yp := ⟨rfl, rfl, rfl, rfl⟩

theorem Keeps.trans {yp'' : Ypdata} (h : Keeps yp yp') (h' : Keeps yp' yp'') : Keeps yp yp'' :=
  ⟨h'.mount.trans h.mount, h'.release.trans h.release, h'.remove.trans h.remove, h'.sid.trans h.sid⟩

theorem addYpInfo_keeps (site : Site) (type : Info) (info : Option String) (yp : Ypdata) :
    Keeps yp (addYpInfo site type info yp) ∧
      (addYpInfo site type info yp).process = yp.process := by
  cases info <;> exact ⟨⟨rfl, rfl, rfl, rfl⟩, rfl⟩

theorem sendToYp_turned {request : Request} (hkeeps : Keeps yp yp')
    (hprocess : yp'.process = directed yp) (hrequest : request.process = directed yp)
    (hsid : request.process ≠ .add → request.sid = yp.sid)
    (hremove : request.process = .remove → request.sid ≠ none) :
    Turned yp (sendToYp len request yp').1 (sendToYp len request yp').2 := by
  unfold sendToYp
  split
  · exact .more _ hkeeps hprocess
  · exact .sent request (hkeeps.trans ⟨rfl, rfl, rfl, rfl⟩) hprocess hrequest hsid hremove

theorem doYpAdd_turned (hkeeps : Keeps yp yp') (hprocess : yp'.process = directed yp)
    (hadd : directed yp = .add) :
    Turned yp (doYpAdd site stats len yp').1 (doYpAdd site stats len yp').2 := by
  -- eight texts are set on the way
  have hinfo {yp'' : Ypdata} (type : Info) (info : Option String)
      (h : Keeps yp yp'' ∧ yp''.process = directed yp) :
      Keeps yp (addYpInfo site type info yp'') ∧
        (addYpInfo site type info yp'').process = directed yp := by
    have hset := addYpInfo_keeps site type info yp''
    exact ⟨h.1.trans hset.1, hset.2.trans h.2⟩
  have hall := hinfo .audioInfo (stats "audio_info") <| hinfo .subtype (stats "subtype") <|
    hinfo .serverDesc (stats "server_description") <|
    hinfo .bitrate ((stats "bitrate").or (stats "ice-bitrate")) <|
    hinfo .serverGenre (stats "genre") <| hinfo .serverUrl (stats "server_url") <|
    hinfo .serverName (stats "server_name") <| hinfo .serverType (stats "server_type")
    ⟨hkeeps, hprocess⟩
  apply sendToYp_turned hall.1 hall.2 hadd.symm
  · exact fun hne ↦ absurd rfl hne
  · exact fun hremove ↦ nomatch hremove

theorem doYpTouch_turned (hkeeps : Keeps yp yp') (hprocess : yp'.process = directed yp)
    (htouch : directed yp = .touch) :
    Turned yp (doYpTouch site stats len yp').1 (doYpTouch site stats len yp').2 := by
  have hsong := addYpInfo_keeps site .currentSong (song (stats "artist") (stats "title"))
    yp'
  have hsubtype := addYpInfo_keeps site .subtype (stats "subtype")
    (addYpInfo site .currentSong (song (stats "artist") (stats "title")) yp')
  have hall := (hkeeps.trans hsong.1).trans hsubtype.1
  apply sendToYp_turned hall ((hsubtype.2.trans hsong.2).trans hprocess) htouch.symm
  · exact fun _ ↦ hall.sid
  · exact fun hremove ↦ nomatch hremove

theorem doYpRemove_turned (hkeeps : Keeps yp yp') (hprocess : yp'.process = directed yp)
    (hremove : directed yp = .remove) :
    Turned yp (doYpRemove len yp').1 (doYpRemove len yp').2 := by
  unfold doYpRemove
  cases hsid : yp'.sid with
  | some sid =>
    apply sendToYp_turned hkeeps hprocess hremove.symm
    · exact fun _ ↦ hsid.symm.trans hkeeps.sid
    · exact fun _ ↦ Option.some_ne_none sid
  | none =>
    exact .removed hkeeps.mount hkeeps.release rfl rfl (hkeeps.sid.symm.trans hsid) rfl hremove

theorem processTurn_turned (site : Site) (stats : Stats) (len : ℕ) (yp : Ypdata) :
    Turned yp (processTurn site stats len yp).1 (processTurn site stats len yp).2 := by
  have hkeeps : Keeps yp
      (if yp.release then { yp with process := .remove, nextUpdate := 0 } else yp) := by
    split
    · exact ⟨rfl, rfl, rfl, rfl⟩
    · exact .refl yp
  have hprocess :
      (if yp.release then { yp with process := .remove, nextUpdate := 0 } else yp).process =
        directed yp := by
    unfold directed
    split <;> rfl
  unfold processTurn
  dsimp only
  split
  · rename_i hadd
    exact doYpAdd_turned hkeeps hprocess (hprocess.symm.trans hadd)
  · rename_i htouch
    exact doYpTouch_turned hkeeps hprocess (hprocess.symm.trans htouch)
  · rename_i hremove
    exact doYpRemove_turned hkeeps hprocess (hprocess.symm.trans hremove)

end Turn

theorem handleReturnedHeader_fields (yp : Ypdata) (header : Header) :
    (handleReturnedHeader yp header).release = yp.release ∧
      (handleReturnedHeader yp header).process = yp.process ∧
      (handleReturnedHeader yp header).mount = yp.mount ∧
      (handleReturnedHeader yp header).remove = yp.remove := by
  cases header with
  | sid text =>
    unfold handleReturnedHeader
    dsimp only
    split <;> exact ⟨rfl, rfl, rfl, rfl⟩
  | _ => exact ⟨rfl, rfl, rfl, rfl⟩

theorem sendToYpEnd_fields (now : ℕ) (failed : Bool) (yp : Ypdata) :
    (sendToYpEnd now failed yp).2.release = yp.release ∧
      (sendToYpEnd now failed yp).2.mount = yp.mount ∧
      (sendToYpEnd now failed yp).2.remove = yp.remove ∧
      ((sendToYpEnd now failed yp).2.process = yp.process ∨
        (sendToYpEnd now failed yp).2.process = .add) := by
  unfold sendToYpEnd
  split
  · exact ⟨rfl, rfl, rfl, Or.inr rfl⟩
  · split
    · exact ⟨rfl, rfl, rfl, Or.inr rfl⟩
    · exact ⟨rfl, rfl, rfl, Or.inl rfl⟩

/-- The end of a transfer. An entry that was not being withdrawn is not removed. -/
theorem finish_fields (now clock : ℕ) (failed : Bool) (sender : Process) (yp : Ypdata) :
    (finish now clock failed sender yp).2.release = yp.release ∧
      (finish now clock failed sender yp).2.mount = yp.mount ∧
      (sender ≠ .remove → (finish now clock failed sender yp).2.remove = yp.remove) ∧
      ((finish now clock failed sender yp).2.process = .remove → yp.process = .remove) := by
  obtain ⟨hrelease, hmount, hremove, hprocess⟩ := sendToYpEnd_fields now failed yp
  have hback (hnew : (sendToYpEnd now failed yp).2.process = .remove) : yp.process = .remove := by
    rcases hprocess with hsame | hadd
    · exact hsame.symm.trans hnew
    · exact nomatch hadd.symm.trans hnew
  cases sender with
  | add =>
    unfold finish
    dsimp only
    split
    · exact ⟨hrelease, hmount, fun _ ↦ hremove, nofun⟩
    · exact ⟨hrelease, hmount, fun _ ↦ hremove, hback⟩
  | touch =>
    unfold finish
    dsimp only
    split
    · exact ⟨hrelease, hmount, fun _ ↦ hremove, hback⟩
    · exact ⟨hrelease, hmount, fun _ ↦ hremove, hback⟩
  | remove => exact ⟨hrelease, hmount, fun hne ↦ absurd rfl hne, nofun⟩

end Icecast.Yp
