import Icecast.Yp.Entry

/-!
# The session of an entry

Which session ids an entry gives in its requests. The id is kept in `sid`, which headers of a
response to an `add` set at once and which is not looked at before it is used in a `touch`; so the
answer to an `add` has to bring an id exactly if it is accepted.
-/

namespace Icecast.Yp

open Lib.Machine

/-- An entry over its whole life. `response` is the session id in the response that is coming in,
`granted` the one in the latest response that accepted an `add`, and `requests` are the requests sent
so far, each with the id that was granted by then. -/
structure Session where
  visit : Visit
  response : Option String
  granted : Option String
  requests : List (Request × Option String)

inductive Event where
  | act (site : Site) (act : Act)
  | skip
  | release

/-- The session id that a response has brought so far. -/
def respond (s : Session) : Act → Option String
  | .header (.sid text) =>
    match s.visit.phase with
    | .waiting _ => some text
    | _ => s.response
  | _ => s.response

/-- The session id that is granted when a transfer ends. -/
def grant (s : Session) : Act → Option String
  | .done failed _ =>
    if s.visit.phase = .waiting .add ∧ failed = false ∧ s.visit.yp.cmdOk then s.response
    else s.granted
  | _ => s.granted

/-- Keep a record of what a call of `process_ypdata` does. -/
def record (s : Session) (act : Act) (visit : Visit) : Result → Session
  | .sent request =>
    { visit
      response := none
      granted := s.granted
      requests := s.requests ++ [(request, s.granted)] }
  | _ => { s with visit, response := respond s act, granted := grant s act }

def step (s : Session) : Event → Session
  | .act site act =>
    let (visit, result) := processYpdata site s.visit act
    record s act visit result
  | .skip =>
    if s.visit.phase = .idle then { s with visit := { s.visit with yp := skip s.visit.yp } } else s
  | .release => { s with visit := { s.visit with yp := markRelease s.visit.yp } }

def startSession (site : Site) (mount : String) (touchInterval nextUpdate : ℕ) : Session where
  visit := ⟨{ createYpEntry site mount with touchInterval, nextUpdate }, .idle, 0⟩
  response := none
  granted := none
  requests := []

/-- Every `touch` and every `remove` was sent with the session id granted by then, and nothing but
`remove` follows a `remove`. -/
structure Proper (requests : List (Request × Option String)) : Prop where
  sid : ∀ sent ∈ requests, sent.1.process ≠ .add → sent.1.sid ≠ none ∧ sent.1.sid = sent.2
  order : requests.Pairwise fun earlier later ↦
    earlier.1.process = .remove → later.1.process = .remove

/-- When the transfer of an `add` ends, a session id has come if the command was accepted, and none
if the connection failed. -/
def Answered (s : Session) : Event → Prop
  | .act _ (.done failed _) =>
    s.visit.phase = .waiting .add →
      if failed then s.response = none else s.visit.yp.cmdOk → s.response ≠ none
  | _ => True

instance (s : Session) : ∀ event, Decidable (Answered s event)
  | .act _ (.done failed _) =>
    inferInstanceAs (Decidable (s.visit.phase = .waiting .add →
      if failed then s.response = none else s.visit.yp.cmdOk → s.response ≠ none))
  | .act _ (.attempt _ _) | .act _ .noMemory | .act _ (.header _) | .skip | .release =>
    .isTrue trivial

/-! ## The invariant -/

/-- The session id is the granted one or missing, and it is there for a `touch`. -/
structure Consistent (granted : Option String) (yp : Ypdata) : Prop where
  sid : yp.sid = none ∨ yp.sid = granted
  touch : yp.process = .touch → yp.sid ≠ none
  remove : yp.process = .remove → yp.release = true

/-- The response to an `add` may just have brought a new session id. -/
structure Inv (s : Session) : Prop where
  proper : Proper s.requests
  released : ∀ sent ∈ s.requests, sent.1.process = .remove → s.visit.yp.release = true
  sender : ∀ sender, s.visit.phase = .waiting sender → s.visit.yp.process = sender
  consistent : (s.visit.phase = .waiting .add → s.response = none) →
    Consistent s.granted s.visit.yp
  response : s.visit.phase = .waiting .add → s.response ≠ none → s.visit.yp.sid = s.response

section Steps

variable {s : Session} {site : Site} {stats : Stats} {granted : Option String} {yp yp' : Ypdata}

theorem Consistent.directed_touch (h : Consistent granted yp) (htouch : directed yp = .touch) :
    yp.sid ≠ none := by
  unfold directed at htouch
  split at htouch
  · cases htouch
  · exact h.touch htouch

theorem Consistent.directed_remove (h : Consistent granted yp) (hremove : directed yp = .remove) :
    yp.release = true := by
  unfold directed at hremove
  split at hremove
  · assumption
  · exact h.remove hremove

theorem Consistent.keeps (h : Consistent granted yp) (hkeeps : Keeps yp yp')
    (hprocess : yp'.process = directed yp) : Consistent granted yp' := by
  refine ⟨?_, ?_, ?_⟩
  · rw [hkeeps.sid]
    exact h.sid
  · intro htouch
    rw [hkeeps.sid]
    exact h.directed_touch (hprocess.symm.trans htouch)
  · intro hremove
    rw [hkeeps.release]
    exact h.directed_remove (hprocess.symm.trans hremove)

theorem Consistent.congr (h : Consistent granted yp) (hsid : yp'.sid = yp.sid)
    (hprocess : yp'.process = yp.process) (hrelease : yp'.release = yp.release) :
    Consistent granted yp' := by
  refine ⟨?_, ?_, ?_⟩
  · rw [hsid]
    exact h.sid
  · rw [hsid, hprocess]
    exact h.touch
  · rw [hprocess, hrelease]
    exact h.remove

/-- An entry that is to be announced. -/
theorem consistent_of_add (hsid : yp.sid = none ∨ yp.sid = granted) (hadd : yp.process = .add) :
    Consistent granted yp :=
  ⟨hsid, fun htouch ↦ (nomatch hadd.symm.trans htouch),
    fun hremove ↦ (nomatch hadd.symm.trans hremove)⟩

theorem Consistent.turned (h : Consistent granted yp) {outcome : Outcome}
    (hturned : Turned yp yp' outcome) : Consistent granted yp' ∧ yp'.release = yp.release := by
  cases hturned with
  | more _ hkeeps hprocess => exact ⟨h.keeps hkeeps hprocess, hkeeps.release⟩
  | sent _ hkeeps hprocess => exact ⟨h.keeps hkeeps hprocess, hkeeps.release⟩
  | removed _ hrelease _ hsid _ hprocess =>
    exact ⟨consistent_of_add (Or.inl hsid) hprocess, hrelease⟩

/-- The request that a turn sends. -/
theorem Consistent.request (h : Consistent granted yp) {request : Request}
    (hturned : Turned yp yp' (.sent request)) (hne : request.process ≠ .add) :
    request.sid ≠ none ∧ request.sid = granted := by
  cases hturned with
  | sent _ hkeeps hprocess hrequest hsid hremove =>
    have hthere : request.sid ≠ none := by
      cases hkind : request.process with
      | add => exact absurd hkind hne
      | touch =>
        rw [hsid hne]
        exact h.directed_touch (hrequest.symm.trans hkind)
      | remove => exact hremove hkind
    refine ⟨hthere, ?_⟩
    rw [hsid hne] at hthere ⊢
    exact h.sid.resolve_left hthere

/-- A change of the entry outside of the transfer of an `add`. -/
theorem Inv.change (h : Inv s) {visit : Visit} (hconsistent : Consistent s.granted visit.yp)
    (hrelease : s.visit.yp.release = true → visit.yp.release = true)
    (hphase : visit.phase ≠ .waiting .add)
    (hsender : ∀ sender, visit.phase = .waiting sender → visit.yp.process = sender) :
    Inv { s with visit } where
  proper := h.proper
  released sent hsent hremove := hrelease (h.released sent hsent hremove)
  sender := hsender
  consistent _ := hconsistent
  response hadd := absurd hadd hphase

theorem Inv.sent (h : Inv s) (hconsistent : Consistent s.granted s.visit.yp) {request : Request}
    (hturned : Turned s.visit.yp yp' (.sent request)) (now : ℕ) :
    Inv ⟨⟨yp', .waiting request.process, now⟩, none, s.granted,
      s.requests ++ [(request, s.granted)]⟩ := by
  obtain ⟨hconsistent', hrelease⟩ := hconsistent.turned hturned
  have hrequest : request.process = directed s.visit.yp ∧ yp'.process = request.process := by
    cases hturned with
    | sent _ hkeeps hprocess hrequest => exact ⟨hrequest, hprocess.trans hrequest.symm⟩
  refine ⟨⟨?_, ?_⟩, ?_, ?_, fun _ ↦ hconsistent', fun _ hnone ↦ absurd rfl hnone⟩
  · intro sent hsent hne
    cases List.mem_append.mp hsent with
    | inl hold => exact h.proper.sid sent hold hne
    | inr hnew =>
      rw [List.mem_singleton.mp hnew] at hne ⊢
      exact hconsistent.request hturned hne
  · apply List.pairwise_append.mpr
    refine ⟨h.proper.order, List.pairwise_singleton _ _, ?_⟩
    intro earlier hearlier later hlater hremove
    rw [List.mem_singleton.mp hlater, hrequest.1, directed,
      if_pos (h.released earlier hearlier hremove)]
  · intro sent hsent hremove
    refine hrelease.trans ?_
    cases List.mem_append.mp hsent with
    | inl hold => exact h.released sent hold hremove
    | inr hnew =>
      rw [List.mem_singleton.mp hnew] at hremove
      exact hconsistent.directed_remove (hrequest.1.symm.trans hremove)
  · intro sender hsender
    rw [← Phase.waiting.inj hsender]
    exact hrequest.2

/-- A turn of the loop; no transfer is going on. -/
theorem Inv.attempt (h : Inv s) (hphase : ∀ sender, s.visit.phase ≠ .waiting sender)
    (len : ℕ) (visit : Visit) (hyp : visit.yp = s.visit.yp) (act : Act)
    (hrespond : respond s act = s.response) (hgrant : grant s act = s.granted) :
    Inv (record s act (Yp.attempt site stats len visit).1
      (Yp.attempt site stats len visit).2) := by
  have hconsistent : Consistent s.granted s.visit.yp :=
    h.consistent fun hadd ↦ absurd hadd (hphase .add)
  have hturned := processTurn_turned site stats len s.visit.yp
  rw [← hyp] at hturned hconsistent
  unfold Yp.attempt
  cases hresult : processTurn site stats len visit.yp with
  | mk yp' outcome =>
    rw [hresult] at hturned
    obtain ⟨hconsistent', hrelease⟩ := hconsistent.turned hturned
    rw [hyp] at hrelease
    cases outcome with
    | sent request =>
      rw [hyp] at hturned hconsistent
      exact h.sent hconsistent hturned visit.now
    | returned ret =>
      simp only [record, hrespond, hgrant]
      exact h.change hconsistent' hrelease.trans (fun hadd ↦ nomatch hadd)
        (fun sender hsender ↦ nomatch hsender)
    | more len' =>
      simp only [record, hrespond, hgrant]
      exact h.change hconsistent' hrelease.trans (fun hadd ↦ nomatch hadd)
        (fun sender hsender ↦ nomatch hsender)

/-- A header of a response. Only the answer to an `add` is searched for a session id. -/
theorem Inv.header (h : Inv s) {sender : Process} (hphase : s.visit.phase = .waiting sender)
    (header : Header) :
    Inv { s with
      visit := { s.visit with yp := handleReturnedHeader s.visit.yp header }
      response := respond s (.header header) } := by
  have hprocess := h.sender sender hphase
  have hfields := handleReturnedHeader_fields s.visit.yp header
  by_cases hid : ∃ text, header = .sid text ∧ sender = .add
  · obtain ⟨text, rfl, rfl⟩ := hid
    have hrespond : respond s (.header (.sid text)) = some text := by simp [respond, hphase]
    rw [hrespond]
    refine ⟨h.proper, ?_, ?_, fun hnone ↦ (nomatch hnone hphase), fun _ _ ↦ ?_⟩
    · exact fun sent hsent hremove ↦ hfields.1.trans (h.released sent hsent hremove)
    · exact fun sender hsender ↦ hfields.2.1.trans (h.sender sender hsender)
    · simp [handleReturnedHeader, hprocess]
  · have hsid : (handleReturnedHeader s.visit.yp header).sid = s.visit.yp.sid := by
      cases header with
      | sid text =>
        have hother : s.visit.yp.process ≠ .add := fun hadd ↦
          hid ⟨text, rfl, hprocess.symm.trans hadd⟩
        rw [handleReturnedHeader, if_neg hother]
      | _ => rfl
    have hresponse (hadd : s.visit.phase = .waiting .add) :
        respond s (.header header) = s.response := by
      cases header with
      | sid text => exact absurd ⟨text, rfl, Phase.waiting.inj (hphase.symm.trans hadd)⟩ hid
      | _ => rfl
    refine ⟨h.proper, ?_, ?_, ?_, ?_⟩
    · exact fun sent hsent hremove ↦ hfields.1.trans (h.released sent hsent hremove)
    · exact fun sender hsender ↦ hfields.2.1.trans (h.sender sender hsender)
    · intro hnone
      have hold := h.consistent fun hadd ↦ (hresponse hadd).symm.trans (hnone hadd)
      exact hold.congr hsid hfields.2.1 hfields.1
    · intro hadd hsome
      dsimp only at hsome ⊢
      rw [hresponse hadd] at hsome ⊢
      exact hsid.trans (h.response hadd hsome)

/-- The transfer of a request ends. -/
theorem Inv.done (h : Inv s) {sender : Process} (hphase : s.visit.phase = .waiting sender)
    (failed : Bool) (clock : ℕ)
    (hanswered : sender = .add →
      if failed then s.response = none else s.visit.yp.cmdOk → s.response ≠ none) :
    Inv { s with
      visit := { s.visit with
        yp := (finish s.visit.now clock failed sender s.visit.yp).2
        phase := .idle }
      granted := grant s (.done failed clock) } := by
  have hrelease := (finish_fields s.visit.now clock failed sender s.visit.yp).1
  have hprocess := h.sender sender hphase
  suffices hconsistent : Consistent (grant s (.done failed clock))
      (finish s.visit.now clock failed sender s.visit.yp).2 from
    ⟨h.proper, fun sent hsent hremove ↦ hrelease.trans (h.released sent hsent hremove),
      fun sender hsender ↦ (nomatch hsender), fun _ ↦ hconsistent, fun hadd ↦ (nomatch hadd)⟩
  have hother (hne : sender ≠ .add) : grant s (.done failed clock) = s.granted := by
    simp [grant, hphase, hne]
  cases sender with
  | add =>
    have hanswer := hanswered rfl
    cases failed with
    | true =>
      -- the id that is there is the old one
      have hold := h.consistent fun _ ↦ by simpa using hanswer
      have hgrant : grant s (.done true clock) = s.granted := by simp [grant]
      rw [hgrant]
      exact consistent_of_add hold.sid rfl
    | false =>
      cases hok : s.visit.yp.cmdOk with
      | false =>
        simp only [finish, sendToYpEnd, hok]
        exact consistent_of_add (Or.inl rfl) rfl
      | true =>
        have hsome : s.response ≠ none := by simpa [hok] using hanswer
        have hsid := h.response hphase hsome
        have hgrant : grant s (.done false clock) = s.response := by simp [grant, hphase, hok]
        simp only [finish, sendToYpEnd, hok, hgrant]
        refine ⟨Or.inr hsid, fun _ ↦ ?_, fun hremove ↦ nomatch hremove⟩
        exact fun hnone ↦ hsome (hsid.symm.trans hnone)
  | touch =>
    have hold := h.consistent fun hadd ↦ nomatch hphase.symm.trans hadd
    rw [hother (by decide)]
    cases failed with
    | true => exact consistent_of_add hold.sid rfl
    | false =>
      cases hok : s.visit.yp.cmdOk with
      | false =>
        simp only [finish, sendToYpEnd, hok]
        exact consistent_of_add (Or.inl rfl) rfl
      | true =>
        simp only [finish, sendToYpEnd, hok]
        exact hold.congr rfl rfl rfl
  | remove =>
    rw [hother (by decide)]
    exact consistent_of_add (Or.inl rfl) rfl

end Steps

/-- Nothing happens if the thread is not where something could. -/
theorem record_going (s : Session) {act : Act} (hrespond : respond s act = s.response)
    (hgrant : grant s act = s.granted) : record s act s.visit .going = s := by
  simp only [record, hrespond, hgrant]

theorem step_inv (s : Session) (event : Event) (h : Inv s) (hanswered : Answered s event) :
    Inv (step s event) := by
  have hstill {phase : Phase} (hphase : s.visit.phase = phase)
      (hnot : ∀ sender, phase ≠ .waiting sender) (sender : Process) :
      s.visit.phase ≠ .waiting sender := hphase ▸ hnot sender
  cases event with
  | act site act =>
    change Inv (record s act (processYpdata site s.visit act).1 (processYpdata site s.visit act).2)
    unfold processYpdata
    split
    · rename_i now stats hphase
      have hidle := hstill hphase fun sender ↦ nofun
      split
      · exact h.change (h.consistent fun hadd ↦ absurd hadd (hidle .add)) id (hidle .add)
          fun sender hsender ↦ absurd hsender (hidle sender)
      · exact h.attempt hidle 1024 { s.visit with now } rfl (.attempt now stats) rfl rfl
    · rename_i len now stats hphase
      have hagain := hstill hphase fun sender ↦ nofun
      exact h.attempt hagain len s.visit rfl (.attempt now stats) rfl rfl
    · exact h
    · rename_i len hphase
      have hagain := hstill hphase fun sender ↦ nofun
      exact h.change (h.consistent fun hadd ↦ absurd hadd (hagain .add)) id nofun nofun
    · rename_i sender header hphase
      exact h.header hphase header
    · rename_i sender failed clock hphase
      exact h.done hphase failed clock fun hadd ↦ hanswered (hadd ▸ hphase)
    · rename_i act _ _ _ _ _ _ hheader hdone
      have hrespond : respond s act = s.response := by
        unfold respond
        split
        · split
          · rename_i hphase
            exact (hheader _ _ hphase rfl).elim
          · rfl
        · rfl
      have hgrant : grant s act = s.granted := by
        unfold grant
        split
        · rw [if_neg]
          exact fun hadd ↦ hdone _ _ _ hadd.1 rfl
        · rfl
      exact (record_going s hrespond hgrant).symm ▸ h
  | skip =>
    rw [step]
    split
    · rename_i hphase
      have hidle := hstill hphase fun sender ↦ nofun
      have hold := h.consistent fun hadd ↦ absurd hadd (hidle .add)
      exact h.change (consistent_of_add hold.sid rfl) id (hidle .add)
        fun sender hsender ↦ absurd hsender (hidle sender)
    · exact h
  | release =>
    rw [step, markRelease]
    split
    · exact h
    · refine ⟨h.proper, fun _ _ _ ↦ rfl, h.sender, ?_, h.response⟩
      intro hnone
      have hold := h.consistent hnone
      exact ⟨hold.sid, hold.touch, fun _ ↦ rfl⟩

theorem inv_startSession (site : Site) (mount : String) (touchInterval nextUpdate : ℕ) :
    Inv (startSession site mount touchInterval nextUpdate) := by
  refine ⟨⟨nofun, List.Pairwise.nil⟩, nofun, nofun, fun _ ↦ consistent_of_add ?_ ?_, nofun⟩
  all_goals
    unfold startSession createYpEntry addYpInfo
    dsimp only
    cases site.clusterPassword mount
  · exact Or.inl rfl
  · exact Or.inl rfl
  · rfl
  · rfl

/-! ## The result -/

/-- If every answer to an `add` brings a session id exactly when the command is accepted, all
requests are sent with the right session id, and none but `remove` after a `remove`. -/
theorem session_protocol (site : Site) (mount : String) (touchInterval nextUpdate : ℕ)
    (events : List Event)
    (hanswered : Guarded step Answered (startSession site mount touchInterval nextUpdate) events) :
    Proper (run step (startSession site mount touchInterval nextUpdate) events).requests :=
  (run_invariant_of_guarded step Inv step_inv events
    (inv_startSession site mount touchInterval nextUpdate) hanswered).proper

def exampleAttempt (now : ℕ) : Event := .act exampleSite (.attempt now fun _ ↦ none)

def exampleHeader (header : Header) : Event := .act exampleSite (.header header)

def exampleDone (failed : Bool) : Event := .act exampleSite (.done failed 0)

/-- A stream is announced and touched once; the release is noticed in the next call. -/
theorem session_protocol_released :
    Proper (run step (startSession exampleSite "/live" 30 0)
      [exampleAttempt 0, exampleHeader .ypResponse, exampleHeader (.sid "7"), exampleDone false,
        exampleAttempt 5, exampleHeader .ypResponse, .release, exampleDone false,
        exampleAttempt 35, exampleHeader .ypResponse, exampleDone false, .skip]).requests :=
  session_protocol exampleSite "/live" 30 0 _ (by decide +kernel)

/-- An `add` is accepted, but no session id comes with the response. -/
def unnamedSession : List Event :=
  [exampleAttempt 0, exampleHeader .ypResponse, exampleDone false, exampleAttempt 5]

/-- The connection fails behind the session id of an `add`, and the stream ends. -/
def brokenAdd : List Event :=
  [exampleAttempt 0, exampleHeader (.sid "7"), exampleDone true, .release, exampleAttempt 5]

/-- The stream is touched without a session id in one case, and withdrawn with one that was never
granted in the other. -/
theorem session_protocol_broken :
    (¬∀ site mount touchInterval nextUpdate events,
      Proper (run step (startSession site mount touchInterval nextUpdate) events).requests) ∧
    ((run step (startSession exampleSite "/live" 30 0) unnamedSession).requests.map
      fun sent ↦ (sent.1.process, sent.1.sid, sent.2)) = [(.add, none, none), (.touch, none, none)] ∧
    ((run step (startSession exampleSite "/live" 30 0) brokenAdd).requests.map
      fun sent ↦ (sent.1.process, sent.1.sid, sent.2)) =
        [(.add, none, none), (.remove, some "7", none)] := by
  have hunnamed : ((run step (startSession exampleSite "/live" 30 0) unnamedSession).requests.map
      fun sent ↦ (sent.1.process, sent.1.sid, sent.2)) =
        [(.add, none, none), (.touch, none, none)] := by decide +kernel
  refine ⟨?_, hunnamed, by decide +kernel⟩
  intro hall
  have hproper := hall exampleSite "/live" 30 0 unnamedSession
  have hmem : (Process.touch, (none : Option String), (none : Option String)) ∈
      (run step (startSession exampleSite "/live" 30 0) unnamedSession).requests.map
        fun sent ↦ (sent.1.process, sent.1.sid, sent.2) := by
    rw [hunnamed]
    simp
  obtain ⟨sent, hsent, hfields⟩ := List.mem_map.mp hmem
  simp only [Prod.mk.injEq] at hfields
  exact (hproper.sid sent hsent (by simp [hfields.1])).1 hfields.2.1

end Icecast.Yp
