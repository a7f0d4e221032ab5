import Icecast.Auth.Stack

/-!
# Who decides about a request

The decider of a stack is its first authenticator that is asked about the method of the request and
has an opinion. However the callbacks are nested, a chain of calls on a stack delivers the decider's
result, or stops at an authenticator with a queue in such a way that the same decider is left. With
an `AUTH_OK` the client carries the ACL of the decider.
-/

namespace Icecast.Auth

open Lib.Machine

def resultOf (request : Request) (auth : Authenticator) : AuthResult :=
  match auth.authenticateClient with
  | some authenticate => authenticate request
  | none => .failed

/-- Whether an authenticator settles the question on its stack. -/
def Decides (request : Request) (auth : Authenticator) : Bool :=
  auth.method request.reqType && resultOf request auth ≠ .nomatch

def decider (request : Request) (stack : List Authenticator) : Option Authenticator :=
  stack.find? (Decides request)

/-- The result of the first method-matching authenticator with a result other than `AUTH_NOMATCH`. -/
def decision (request : Request) (stack : List Authenticator) : AuthResult :=
  match decider request stack with
  | some auth => resultOf request auth
  | none => .nomatch

/-- The authenticators of a stack that a request may come to, up to the decider. -/
def met (request : Request) : List Authenticator → List Authenticator
  | [] => []
  | auth :: rest => auth :: if Decides request auth then [] else met request rest

/-- Whether one of these authenticators is overloaded when the request comes to it. The numbers of clients
pending are given turn by turn; the request waits for the next turn at an authenticator with a queue that is
asked about its method. -/
def turnedAway (request : Request) : List Authenticator → List (ℕ → ℕ) → Bool
  | [], _ => false
  | _ :: _, [] => false
  | auth :: rest, pending :: later =>
    decide (100 < pending auth.id) || turnedAway request rest
      (if auth.method request.reqType && !auth.immediate then later else pending :: later)

theorem decider_cons_of_decides {request : Request} {auth : Authenticator}
    (h : Decides request auth = true) (rest : List Authenticator) :
    decider request (auth :: rest) = some auth := by
  simp [decider, h]

theorem decider_cons_of_not {request : Request} {auth : Authenticator}
    (h : Decides request auth = false) (rest : List Authenticator) :
    decider request (auth :: rest) = decider request rest := by
  simp [decider, h]

theorem decision_congr {request : Request} {first second : List Authenticator}
    (h : decider request first = decider request second) :
    decision request first = decision request second := by
  rw [decision, decision, h]

variable {α : Type*} {pending : ℕ → ℕ} {k : Continuation α} {request : Request}

/-- The client has been accepted by `auth` and carries its ACL. -/
structure AcceptedBy (client : Client) (auth : Authenticator) : Prop where
  acl_eq : client.acl = some auth.acl
  verdict : client.verdicts.getLast? = some (auth, .ok)

/-- How a chain of calls on `stack` may end, when it comes to the authenticators of `walk`. If the client is
left in a queue, fewer than `bound` authenticators follow on its stack. -/
inductive Ends (pending : ℕ → ℕ) (k : Continuation α) (request : Request) (bound : ℕ)
    (walk stack : List Authenticator) : α → Prop where
  | result (client : Client) (hrequest : client.request = request)
      (hok : ∀ auth, decider request stack = some auth → resultOf request auth = .ok →
        AcceptedBy client auth)
      (hwalk : ∀ tail later, turnedAway request (walk ++ tail) (pending :: later) =
        turnedAway request tail (pending :: later)) :
      Ends pending k request bound walk stack (k.onResult client (decision request stack))
  | busy (client : Client) (auth : Authenticator) (hbusy : 100 < pending auth.id)
      (hwalk : ∀ tail later, turnedAway request (walk ++ tail) (pending :: later) = true) :
      Ends pending k request bound walk stack (k.busy client)
  | queued (client : Client) (auth : Authenticator) (rest : List Authenticator)
      (hrequest : client.request = request) (hstack : client.authstack = auth :: rest)
      (hmethod : auth.method request.reqType = true) (hlength : rest.length < bound)
      (hdecider : decider request stack = decider request (auth :: rest))
      (hwalk : ∀ tail later, turnedAway request (walk ++ tail) (pending :: later) =
        turnedAway request ((met request (auth :: rest)).tail ++ tail) later) :
      Ends pending k request bound walk stack (k.queued client auth)

theorem Ends.cons {bound : ℕ} {auth : Authenticator} {walk rest : List Authenticator} {a : α}
    (h : Ends pending k request bound walk rest a) (hnot : Decides request auth = false) :
    Ends pending k request bound walk (auth :: rest) a := by
  have hdecider := decider_cons_of_not hnot rest
  cases h with
  | result client hrequest hok hwalk =>
    rw [← decision_congr hdecider]
    refine .result client hrequest ?_ hwalk
    rw [hdecider]
    exact hok
  | busy client other hbusy hwalk => exact .busy client other hbusy hwalk
  | queued client other later hrequest hstack hmethod hlength hother hwalk =>
    exact .queued client other later hrequest hstack hmethod hlength (hdecider.trans hother) hwalk

theorem Ends.mono {bound bound' : ℕ} {walk stack : List Authenticator} {a : α}
    (h : Ends pending k request bound walk stack a) (hle : bound ≤ bound') :
    Ends pending k request bound' walk stack a := by
  cases h with
  | result client hrequest hok hwalk => exact .result client hrequest hok hwalk
  | busy client auth hbusy hwalk => exact .busy client auth hbusy hwalk
  | queued client auth rest hrequest hstack hmethod hlength hdecider hwalk =>
    exact .queued client auth rest hrequest hstack hmethod (Nat.lt_of_lt_of_le hlength hle) hdecider hwalk

/-- The chain of calls has passed an authenticator without waiting. -/
theorem Ends.pass {bound : ℕ} {auth : Authenticator} {walk stack : List Authenticator} {a : α}
    (h : Ends pending k request bound walk stack a) (hfree : ¬100 < pending auth.id)
    (hpass : (auth.method request.reqType && !auth.immediate) = false) :
    Ends pending k request bound (auth :: walk) stack a := by
  have hturn (tail : List Authenticator) (later : List (ℕ → ℕ)) :
      turnedAway request (auth :: walk ++ tail) (pending :: later) =
        turnedAway request (walk ++ tail) (pending :: later) := by
    rw [List.cons_append, turnedAway, decide_eq_false hfree, hpass]
    rfl
  cases h with
  | result client hrequest hok hwalk =>
    exact .result client hrequest hok fun tail later ↦ (hturn tail later).trans (hwalk tail later)
  | busy client other hbusy hwalk =>
    exact .busy client other hbusy fun tail later ↦ (hturn tail later).trans (hwalk tail later)
  | queued client other rest hrequest hstack hmethod hlength hdecider hwalk =>
    exact .queued client other rest hrequest hstack hmethod hlength hdecider
      fun tail later ↦ (hturn tail later).trans (hwalk tail later)

theorem authNewClient_eq (auth : Authenticator) (client : Client) :
    ∃ auth', authNewClient auth client = (resultOf client.request auth, { client with
      auth := auth'
      verdicts := client.verdicts ++ [(auth, resultOf client.request auth)] }) := by
  unfold authNewClient resultOf
  cases auth.authenticateClient with
  | none => exact ⟨client.auth, rfl⟩
  | some authenticate =>
    simp only
    split
    · exact ⟨none, rfl⟩
    · exact ⟨client.auth, rfl⟩

theorem met_cons_of_not {auth : Authenticator} (hnot : Decides request auth = false)
    (rest : List Authenticator) : met request (auth :: rest) = auth :: met request rest := by
  rw [met, hnot, if_neg Bool.false_ne_true]

theorem met_cons_of_decides {auth : Authenticator} (hdecides : Decides request auth = true)
    (rest : List Authenticator) : met request (auth :: rest) = [auth] := by
  rw [met, hdecides, if_pos rfl]

/-- An authenticator that is asked delivers its result, or the client moves on in its stack. -/
theorem handleAuthClient_ends {bound : ℕ} {auth : Authenticator} {rest : List Authenticator}
    {client : Client} {onNoMatch : Client → α} (hrequest : client.request = request)
    (hmethod : auth.method request.reqType = true)
    (hnext : ∀ next : Client, next.request = request → next.authstack = client.authstack →
      Ends pending k request bound (met request rest) rest (onNoMatch next)) :
    Ends pending k request bound (met request (auth :: rest)).tail (auth :: rest)
      (handleAuthClient k onNoMatch auth client) := by
  obtain ⟨auth', hnew⟩ := authNewClient_eq auth client
  rw [hrequest] at hnew
  unfold handleAuthClient
  simp only [hnew]
  by_cases hnomatch : resultOf request auth = .nomatch
  · have hnot : Decides request auth = false := by simp [Decides, hnomatch]
    rw [if_pos hnomatch, met_cons_of_not hnot, List.tail_cons]
    apply Ends.cons _ hnot
    apply hnext
    · simp [hnomatch]
    · simp [hnomatch]
  · have hdecides : Decides request auth = true := by simp [Decides, hmethod, hnomatch]
    have hdecider := decider_cons_of_decides hdecides rest
    have hdecision : decision request (auth :: rest) = resultOf request auth := by
      simp [decision, hdecider]
    rw [if_neg hnomatch, ← hdecision, met_cons_of_decides hdecides, List.tail_cons]
    apply Ends.result
    · split <;> rfl
    · intro other hother hok
      rw [hdecider] at hother
      obtain rfl := Option.some.inj hother
      rw [hdecision, if_pos hok]
      exact ⟨rfl, by simp [hok]⟩
    · exact fun tail later ↦ rfl

/-- The client is on no stack, or on this one. -/
def Fits (client : Client) (stack : List Authenticator) : Prop :=
  client.authstack = [] ∨ client.authstack = stack

theorem authStackAddClient_ends {stack : List Authenticator} (hstack : stack ≠ []) {client : Client}
    (hrequest : client.request = request) (hfits : Fits client stack) :
    Ends pending k request stack.length (met request stack) stack
      (authStackAddClient pending k stack client) := by
  induction stack generalizing client with
  | nil => exact absurd rfl hstack
  | cons auth rest ih =>
    have hadd : ¬(client.authstack ≠ [] ∧ ¬sameStack client.authstack (auth :: rest)) := by
      rcases hfits with h | h
      · simp [h]
      · simp [h, sameStack]
    have hforward : ∀ next : Client, next.request = request →
        Ends pending k request rest.length (met request rest) rest
          (if rest = [] then k.onResult { next with authstack := rest } .nomatch
            else authStackAddClient pending k rest { next with authstack := rest }) := by
      intro next hnext
      by_cases hrest : rest = []
      · rw [if_pos hrest, hrest]
        exact .result _ hnext (by simp [decider]) fun tail later ↦ rfl
      · rw [if_neg hrest]
        exact ih hrest hnext (Or.inr rfl)
    rw [authStackAddClient, if_neg hadd]
    unfold authAddClient
    split
    · rename_i hbusy
      refine .busy _ auth hbusy fun tail later ↦ ?_
      rw [met, List.cons_append, turnedAway, decide_eq_true hbusy, Bool.true_or]
    · rename_i hfree
      split
      · rename_i hmethod
        rw [hrequest] at hmethod
        simp only
        split
        · rename_i himmediate
          have hmet : met request (auth :: rest) = auth :: (met request (auth :: rest)).tail := rfl
          rw [hmet]
          refine Ends.pass ?_ hfree (by rw [himmediate, Bool.not_true, Bool.and_false])
          exact handleAuthClient_ends hrequest hmethod fun next hnext _ ↦
            (hforward next hnext).mono (Nat.le_succ _)
        · rename_i hqueue
          refine .queued _ auth rest hrequest rfl hmethod (Nat.lt_succ_self _) rfl fun tail later ↦ ?_
          rw [met, List.cons_append, turnedAway, decide_eq_false hfree, hmethod,
            eq_false_of_ne_true hqueue]
          rfl
      · rename_i hmethod
        rw [hrequest] at hmethod
        have hnot : Decides request auth = false := by simp [Decides, hmethod]
        rw [met_cons_of_not hnot]
        refine (((hforward _ hrequest).mono (Nat.le_succ _)).cons hnot).pass hfree ?_
        rw [eq_false_of_ne_true hmethod, Bool.false_and]

/-- The thread of an authenticator goes on where the chain of calls stopped. -/
theorem resume_ends {auth : Authenticator} {rest : List Authenticator} {client : Client}
    (hrequest : client.request = request) (hstack : client.authstack = auth :: rest)
    (hmethod : auth.method request.reqType = true) :
    Ends pending k request rest.length (met request (auth :: rest)).tail (auth :: rest)
      (handleAuthClient k (moveClientForward pending k) auth client) := by
  apply handleAuthClient_ends hrequest hmethod
  intro next hnext hsame
  unfold moveClientForward
  simp only [hsame, hstack, List.tail_cons]
  by_cases hrest : rest = []
  · rw [if_pos hrest, hrest]
    exact .result _ hnext (by simp [decider]) fun tail later ↦ rfl
  · rw [if_neg hrest]
    exact authStackAddClient_ends hrest hnext (Or.inr rfl)

/-! ## One stack -/

/-- A chain of calls on one stack with any callback: where the client waits, and the results that
have been delivered. -/
structure Chain where
  client : Client
  waiting : Option Authenticator
  results : List AuthResult

def recorded : Continuation Chain where
  onResult client result := ⟨client, none, [result]⟩
  busy client := ⟨client, none, []⟩
  queued client auth := ⟨client, some auth, []⟩
  ignored client := ⟨client, none, []⟩

def chainProcess (chain : Chain) (pending : ℕ → ℕ) : Chain :=
  match chain.waiting with
  | none => chain
  | some auth =>
    let next := handleAuthClient recorded (moveClientForward pending recorded) auth chain.client
    { next with results := chain.results ++ next.results }

/-- The client waits on the stack, with the decider still in front of it, or its result has been
delivered. `left` bounds the number of authenticators behind the one it waits for. -/
def ChainInv (request : Request) (stack : List Authenticator) (left : ℕ) (chain : Chain) : Prop :=
  (∃ auth rest, chain.waiting = some auth ∧ chain.results = [] ∧ chain.client.request = request ∧
    chain.client.authstack = auth :: rest ∧ auth.method request.reqType = true ∧
    rest.length < left ∧ decider request stack = decider request (auth :: rest)) ∨
  (chain.waiting = none ∧ chain.results = [decision request stack])

theorem Ends.chainInv {bound : ℕ} {walk stack stack' : List Authenticator} {chain : Chain}
    (h : Ends pending recorded request bound walk stack' chain) (hfree : ∀ id, pending id ≤ 100)
    (hdecider : decider request stack = decider request stack') :
    ChainInv request stack bound chain := by
  cases h with
  | result client hrequest hok => exact Or.inr ⟨rfl, by rw [decision_congr hdecider]; rfl⟩
  | busy client auth hbusy => exact absurd hbusy (Nat.not_lt.mpr (hfree auth.id))
  | queued client auth rest hrequest hstack hmethod hlength hrest =>
    exact Or.inl ⟨auth, rest, rfl, rfl, hrequest, hstack, hmethod, hlength, hdecider.trans hrest⟩

theorem chainProcess_inv {stack : List Authenticator} {left : ℕ} {chain : Chain}
    (inv : ChainInv request stack (left + 1) chain) (hfree : ∀ id, pending id ≤ 100) :
    ChainInv request stack left (chainProcess chain pending) := by
  rcases inv with ⟨auth, rest, hwaiting, hresults, hrequest, hstack, hmethod, hleft, hdecider⟩ |
    ⟨hwaiting, hresults⟩
  · have hends : Ends pending recorded request rest.length (met request (auth :: rest)).tail (auth :: rest)
        (handleAuthClient recorded (moveClientForward pending recorded) auth chain.client) :=
      resume_ends hrequest hstack hmethod
    have hinv := (hends.mono (Nat.le_of_lt_succ hleft)).chainInv hfree hdecider
    simpa only [chainProcess, hwaiting, hresults, List.nil_append] using hinv
  · simp only [chainProcess, hwaiting]
    exact Or.inr ⟨hwaiting, hresults⟩

theorem ChainInv.mono {stack : List Authenticator} {left left' : ℕ} {chain : Chain}
    (inv : ChainInv request stack left chain) (hle : left ≤ left') :
    ChainInv request stack left' chain := by
  rcases inv with ⟨auth, rest, hwaiting, hresults, hrequest, hstack, hmethod, hleft, hdecider⟩ | h
  · exact Or.inl
      ⟨auth, rest, hwaiting, hresults, hrequest, hstack, hmethod, Nat.lt_of_lt_of_le hleft hle,
      hdecider⟩
  · exact Or.inr h

theorem run_chainInv {stack : List Authenticator} (pendings : List (ℕ → ℕ)) {left : ℕ}
    {chain : Chain}
    (inv : ChainInv request stack left chain)
    (hfree : ∀ pending ∈ pendings, ∀ id, pending id ≤ 100) :
    ChainInv request stack (left - pendings.length) (run chainProcess chain pendings) := by
  induction pendings generalizing left chain with
  | nil => exact inv
  | cons pending pendings ih =>
    have hstep : ChainInv request stack (left - 1) (chainProcess chain pending) :=
      chainProcess_inv (inv.mono (by omega)) (hfree pending List.mem_cons_self)
    have hrun := ih hstep fun other hother ↦ hfree other (List.mem_cons_of_mem pending hother)
    rw [run_cons, List.length_cons, Nat.add_comm, ← Nat.sub_sub]
    exact hrun

/-- While the client waits nothing has been delivered; after as many turns of the authenticators'
threads as the stack has members, exactly one result has. -/
theorem chain_delivers {stack : List Authenticator} (hstack : stack ≠ []) {client : Client}
    (hfits : Fits client stack) (first : ℕ → ℕ) (later : List (ℕ → ℕ))
    (hfree : ∀ pending ∈ first :: later, ∀ id, pending id ≤ 100) (chain : Chain)
    (hchain : chain = run chainProcess (authStackAddClient first recorded stack client) later) :
    (chain.waiting ≠ none → chain.results = []) ∧
      (chain.waiting = none → chain.results = [decision client.request stack]) ∧
      (stack.length ≤ later.length → chain.waiting = none) := by
  have hstart : ChainInv client.request stack stack.length
      (authStackAddClient first recorded stack client) :=
    (authStackAddClient_ends hstack rfl hfits).chainInv (hfree first List.mem_cons_self) rfl
  have inv := run_chainInv later hstart fun other hother ↦
    hfree other (List.mem_cons_of_mem first hother)
  rw [← hchain] at inv
  rcases inv with ⟨auth, rest, hwaiting, hresults, -, -, -, hleft, -⟩ | ⟨hwaiting, hresults⟩
  · exact ⟨fun _ ↦ hresults, by simp [hwaiting], fun hlong ↦ by omega⟩
  · exact ⟨by simp [hwaiting], fun _ ↦ hresults, fun _ ↦ hwaiting⟩

/-! ## Dispatch -/

/-- A result may be delivered with this client: an `AUTH_OK` comes from an authenticator that has
just accepted it. -/
def Honest (request : Request) (client : Client) (result : AuthResult) : Prop :=
  client.request = request ∧ (result = .ok → ∃ auth, AcceptedBy client auth)

/-- Whatever was dispatched was allowed by the authenticator that accepted the client last; and a
client that waits can go on. -/
structure Safe (request : Request) (task : Task) : Prop where
  dispatched : ∀ handler, .dispatched handler ∈ task.outcomes →
    ∃ auth, AcceptedBy task.client auth ∧ aclTestMethod (some auth.acl) request.reqType = .allow
  waiting : ∀ auth callback, task.waiting = some (auth, callback) →
    task.outcomes = [] ∧ task.client.request = request ∧ auth.method request.reqType = true ∧
      ∃ rest, task.client.authstack = auth :: rest

theorem finish_error_safe (client : Client) (error : ErrorId) :
    Safe request (finish client (.errorSent error)) := by
  exact ⟨by simp [finish], by simp [finish]⟩

theorem handleAuthedClient_safe {client : Client} {result : AuthResult}
    (h : Honest request client result) : Safe request (handleAuthedClient client result) := by
  have hallowed : result = .ok → aclTestMethod client.acl client.request.reqType = .allow →
      ∀ handler, Safe request (finish { client with authstack := [] } (.dispatched handler)) := by
    intro hok hallow handler
    obtain ⟨auth, haccepted⟩ := h.2 hok
    rw [haccepted.acl_eq, h.1] at hallow
    exact ⟨fun _ _ ↦ ⟨auth, ⟨haccepted.acl_eq, haccepted.verdict⟩, hallow⟩, by simp [finish]⟩
  unfold handleAuthedClient
  simp only
  split
  · exact finish_error_safe _ _
  · rename_i hok
    split
    · exact finish_error_safe _ _
    · rename_i hallow
      have hsafe := hallowed (not_ne_iff.mp hok) (not_ne_iff.mp hallow)
      split
      · exact hsafe _
      · exact hsafe _
      · exact hsafe _
      · exact hsafe _
      · exact finish_error_safe _ _

theorem Ends.safe {bound : ℕ} {walk stack : List Authenticator} {callback : Callback}
    {onResult : Client → AuthResult → Task} {task : Task}
    (h : Ends pending (continueWith callback onResult) request bound walk stack task)
    (hresult : ∀ client result, Honest request client result →
      Safe request (onResult client result)) :
    Safe request task := by
  cases h with
  | result client hrequest hok =>
    apply hresult client _ ⟨hrequest, _⟩
    intro hdecision
    cases hdecider : decider request stack with
    | none => simp [decision, hdecider] at hdecision
    | some auth =>
      rw [decision, hdecider] at hdecision
      exact ⟨auth, hok auth hdecider hdecision⟩
  | busy client auth hbusy => exact finish_error_safe client _
  | queued client auth rest hrequest hstack hmethod hlength hdecider =>
    refine ⟨by simp [continueWith], ?_⟩
    rintro _ _ ⟨⟩
    exact ⟨rfl, hrequest, hmethod, rest, hstack⟩

theorem addClient_safe {stack : List Authenticator} {callback : Callback}
    {onResult : Client → AuthResult → Task} {client : Client} (hrequest : client.request = request)
    (hstack : client.authstack = [])
    (hresult : ∀ client result, Honest request client result →
      Safe request (onResult client result)) :
    Safe request (authStackAddClient pending (continueWith callback onResult) stack client) := by
  cases stack with
  | nil =>
    exact ⟨by simp [authStackAddClient, continueWith], by simp [authStackAddClient, continueWith]⟩
  | cons auth rest =>
    exact (authStackAddClient_ends (List.cons_ne_nil _ _) hrequest (Or.inl hstack)).safe hresult

theorem handleAuthenticationGlobal_safe (config : Config) {client : Client} {result : AuthResult}
    (h : Honest request client result) :
    Safe request (handleAuthenticationGlobal config pending client result) := by
  unfold handleAuthenticationGlobal
  simp only
  split
  · exact addClient_safe h.1 rfl fun _ _ hhonest ↦ handleAuthedClient_safe hhonest
  · exact handleAuthedClient_safe ⟨h.1, fun hok ↦ (h.2 hok).imp fun _ ha ↦ ⟨ha.acl_eq, ha.verdict⟩⟩

theorem mountGeneric_safe (config : Config) (type : MountType) {callback : Callback}
    {onResult : Client → AuthResult → Task} {client : Client} (hrequest : client.request = request)
    (hstack : client.authstack = [])
    (hresult : ∀ client result, Honest request client result →
      Safe request (onResult client result)) :
    Safe request
      (handleAuthenticationMountGeneric config pending type callback onResult client) := by
  unfold handleAuthenticationMountGeneric
  split
  · exact hresult client _ ⟨hrequest, by simp⟩
  · exact addClient_safe hrequest hstack hresult

theorem invoke_safe (config : Config) (callback : Callback) {client : Client} {result : AuthResult}
    (h : Honest request client result) :
    Safe request (invoke config pending callback client result) := by
  cases callback with
  | mountDefault =>
    simp only [invoke, handleAuthenticationMountDefault]
    split
    · exact mountGeneric_safe config _ h.1 rfl fun _ _ hhonest ↦
        handleAuthenticationGlobal_safe config hhonest
    · exact handleAuthedClient_safe
        ⟨h.1, fun hok ↦ (h.2 hok).imp fun _ ha ↦ ⟨ha.acl_eq, ha.verdict⟩⟩
  | global => exact handleAuthenticationGlobal_safe config h
  | authed => exact handleAuthedClient_safe h

theorem process_safe (task : Task) (env : Env) (h : Safe request task) :
    Safe request (process task env) := by
  unfold process
  split
  · exact h
  · rename_i auth callback hwaiting
    obtain ⟨houtcomes, hrequest, hmethod, rest, hstack⟩ := h.waiting auth callback hwaiting
    have hends : Ends env.pending (continueWith callback (invoke env.config env.pending callback))
        request rest.length (met request (auth :: rest)).tail (auth :: rest) _ :=
      resume_ends hrequest hstack hmethod
    simp only [houtcomes, List.nil_append]
    exact hends.safe fun _ _ hhonest ↦ invoke_safe env.config callback hhonest

theorem runRequest_safe (request : Request) (first : Env) (later : List Env) :
    Safe request (runRequest request first later) := by
  apply run_invariant process (Safe request) process_safe
  exact mountGeneric_safe first.config _ rfl rfl fun _ _ hhonest ↦
    invoke_safe first.config .mountDefault hhonest

/-- On a stack exactly one result is delivered, that of the decider, as soon as the threads have had
their turns; and over all stacks a request is dispatched only after an authenticator has accepted it,
with that authenticator's ACL on the client and the method allowed by it. -/
theorem authentication_decision {stack : List Authenticator} (hstack : stack ≠ []) {client : Client}
    (hclient : client.authstack = []) (first : ℕ → ℕ) (later : List (ℕ → ℕ))
    (hfree : ∀ pending ∈ first :: later, ∀ id, pending id ≤ 100) {chain : Chain}
    (hchain : chain = run chainProcess (authStackAddClient first recorded stack client) later)
    (request : Request) (start : Env) (envs : List Env) {task : Task}
    (htask : task = runRequest request start envs) :
    (chain.waiting ≠ none → chain.results = []) ∧
    (chain.waiting = none → chain.results = [decision client.request stack]) ∧
    (stack.length ≤ later.length → chain.waiting = none) ∧
    ∀ handler, .dispatched handler ∈ task.outcomes → ∃ auth,
      task.client.verdicts.getLast? = some (auth, .ok) ∧ task.client.acl = some auth.acl ∧
        aclTestMethod task.client.acl request.reqType = .allow := by
  obtain ⟨hwaiting, hdelivered, hended⟩ :=
    chain_delivers hstack (Or.inl hclient) first later hfree chain hchain
  refine ⟨hwaiting, hdelivered, hended, ?_⟩
  intro handler hdispatched
  rw [htask] at hdispatched ⊢
  obtain ⟨auth, haccepted, hallowed⟩ :=
    (runRequest_safe request start envs).dispatched handler hdispatched
  exact ⟨auth, haccepted.verdict, haccepted.acl_eq, haccepted.acl_eq ▸ hallowed⟩

/-- An authenticator with a thread that knows nobody, and one like the anonymous fallback. -/
def exampleStack (acl : Acl) : List Authenticator :=
  [⟨0, fun _ ↦ true, false, some fun _ ↦ .nomatch, acl⟩,
    ⟨1, fun _ ↦ true, true, some fun _ ↦ .ok, acl⟩]

def exampleAcl : Acl := ⟨fun _ ↦ .allow, [], .deny⟩

def exampleRequest : Request := ⟨.get, "/stream", -1, .error, none, none, none⟩

def exampleEnv : Env := ⟨⟨[], exampleStack exampleAcl, fun _ _ ↦ false⟩, fun _ ↦ 0⟩

theorem authentication_decision_queued :
    (∀ chain, chain = run chainProcess
        (authStackAddClient (fun _ ↦ 0) recorded (exampleStack exampleAcl)
          (newClient exampleRequest))
        [fun _ ↦ 0, fun _ ↦ 0] → chain.results = [.ok]) ∧
    ∃ auth, (runRequest exampleRequest exampleEnv [exampleEnv]).client.acl = some auth.acl ∧
      (runRequest exampleRequest exampleEnv [exampleEnv]).client.verdicts.getLast? =
        some (auth, .ok) := by
  have h := fun chain hchain ↦ authentication_decision
    (show exampleStack exampleAcl ≠ [] by simp [exampleStack])
    (show (newClient exampleRequest).authstack = [] from rfl) (fun _ ↦ 0)
    [fun _ ↦ 0, fun _ ↦ 0] (by simp)
    (show chain = _ from hchain) exampleRequest exampleEnv [exampleEnv] rfl
  refine ⟨fun chain hchain ↦ ?_, ?_⟩
  · obtain ⟨-, hresults, hended, -⟩ := h chain hchain
    exact hresults (hended (by decide))
  · obtain ⟨auth, hverdict, hacl, -⟩ := (h _ rfl).2.2.2 .get (by decide +kernel)
    exact ⟨auth, hacl, hverdict⟩

end Icecast.Auth
