import Icecast.Auth.ConfigParser
import Icecast.Auth.Decision

/-!
# Every request has an outcome

A request that no stack settles ends at the global stack. Where the configuration has one, the
request is answered there; without one `auth_stack_add_client` returns at once, and nobody answers,
unless an authenticator on the way was overloaded and has turned the request away. The invariant below
follows a request over the three stacks.
-/

namespace Icecast.Auth

open Lib.Machine

/-- A stack settles a request if it has a decider, unless that accepts the client for an admin
command that its own ACL denies. -/
def SettlesOn (request : Request) (stack : List Authenticator) : Prop :=
  ∃ auth, decider request stack = some auth ∧
    ¬(resultOf request auth = .ok ∧ request.adminCommand ≠ -1 ∧
      aclTestAdmin (some auth.acl) request.adminCommand = .deny)

/-- The mount's stack, that of the default mount or a global stack answers the request. -/
def Answered (config : Config) (request : Request) : Prop :=
  config.authstack ≠ [] ∨ SettlesOn request (mountStack config request .normal) ∨
    SettlesOn request (mountStack config request .default)

/-- A result that has been delivered for `stack` is passed on to the next one just if the stack does
not settle the request. -/
theorem tryNextStack_iff {request : Request} {stack : List Authenticator} {client : Client}
    (hrequest : client.request = request)
    (hok : ∀ auth, decider request stack = some auth → resultOf request auth = .ok →
      AcceptedBy client auth) :
    tryNextStack client (decision request stack) = true ↔ ¬SettlesOn request stack := by
  unfold SettlesOn decision
  cases hdecider : decider request stack with
  | none => simp [tryNextStack]
  | some auth =>
    have hnomatch : resultOf request auth ≠ .nomatch := by
      have hdecides : Decides request auth = true := List.find?_some hdecider
      simp only [Decides, Bool.and_eq_true, decide_eq_true_eq] at hdecides
      exact hdecides.2
    by_cases hresult : resultOf request auth = .ok
    · have hacl := (hok auth hdecider hresult).acl_eq
      simp [tryNextStack, hresult, hrequest, hacl]
    · simp [tryNextStack, hresult, hnomatch]

section Stages

variable (config : Config) (request : Request)

/-- The stack a client is on that waits with this callback. -/
def stageStack : Callback → List Authenticator
  | .mountDefault => mountStack config request .normal
  | .global => mountStack config request .default
  | .authed => config.authstack

/-- What is known when the stack of this callback is tried. -/
def Reached : Callback → Prop
  | .mountDefault => True
  | .global => ¬SettlesOn request (mountStack config request .normal)
  | .authed => config.authstack ≠ []

/-- The number of authenticators on the stacks that may follow. -/
def behind : Callback → ℕ
  | .mountDefault => (mountStack config request .default).length + config.authstack.length
  | .global => config.authstack.length
  | .authed => 0

/-- The authenticators of other stacks that an unanswered request comes to afterwards. -/
def follow : Callback → List Authenticator
  | .mountDefault => met request (mountStack config request .default)
  | .global => []
  | .authed => []

/-- The request waits on one of the stacks with the decider of the stack in front of it. Unless it is
answered, what comes `later` tells whether it is turned `away`. -/
def Waits (left : ℕ) (later : List (ℕ → ℕ)) (away : Bool) (task : Task) : Prop :=
  ∃ auth callback rest, task.waiting = some (auth, callback) ∧ task.outcomes = [] ∧
    task.client.request = request ∧ task.client.authstack = auth :: rest ∧
    auth.method request.reqType = true ∧
    decider request (stageStack config request callback) = decider request (auth :: rest) ∧
    Reached config request callback ∧
    (¬Answered config request → turnedAway request
      ((met request (auth :: rest)).tail ++ follow config request callback) later = away) ∧
    rest.length + behind config request callback < left

/-- The request is through: with one outcome if it is answered or turned away, else with none. -/
structure Done (away : Bool) (task : Task) : Prop where
  waiting : task.waiting = none
  answered : Answered config request → task.outcomes.length = 1
  unanswered : ¬Answered config request → (task.outcomes.length = 1 ↔ away = true)

/-- Fewer than `left` more turns of the authenticators' threads are needed. -/
def TaskInv (left : ℕ) (later : List (ℕ → ℕ)) (away : Bool) (task : Task) : Prop :=
  Waits config request left later away task ∨ Done config request away task

end Stages

variable {config : Config} {request : Request} {pending : ℕ → ℕ} {later : List (ℕ → ℕ)} {away : Bool}

theorem TaskInv.mono {left left' : ℕ} {task : Task} (inv : TaskInv config request left later away task)
    (hle : left ≤ left') : TaskInv config request left' later away task := by
  rcases inv with
    ⟨auth, callback, rest, hwaiting, houtcomes, hrequest, hstack, hmethod, hdecider, hreached, haway,
    hleft⟩ | hdone
  · exact Or.inl
      ⟨auth, callback, rest, hwaiting, houtcomes, hrequest, hstack, hmethod, hdecider, hreached, haway,
      Nat.lt_of_lt_of_le hleft hle⟩
  · exact Or.inr hdone

/-- A request that is answered is so whatever the lengths of the queues are. -/
theorem TaskInv.of_answered (hanswered : Answered config request) {left : ℕ} {task : Task}
    (inv : TaskInv config request left later away task) (later' : List (ℕ → ℕ)) (away' : Bool) :
    TaskInv config request left later' away' task := by
  rcases inv with
    ⟨auth, callback, rest, hwaiting, houtcomes, hrequest, hstack, hmethod, hdecider, hreached, -,
    hleft⟩ | hdone
  · exact Or.inl
      ⟨auth, callback, rest, hwaiting, houtcomes, hrequest, hstack, hmethod, hdecider, hreached,
      fun hnot ↦ absurd hanswered hnot, hleft⟩
  · exact Or.inr ⟨hdone.waiting, hdone.answered, fun hnot ↦ absurd hanswered hnot⟩

theorem handleAuthedClient_outcome (client : Client) (result : AuthResult) :
    (handleAuthedClient client result).waiting = none ∧
      (handleAuthedClient client result).outcomes.length = 1 := by
  unfold handleAuthedClient
  simp only
  split
  · exact ⟨rfl, rfl⟩
  · split
    · exact ⟨rfl, rfl⟩
    · split <;> exact ⟨rfl, rfl⟩

theorem handleAuthedClient_done (hanswered : Answered config request) (client : Client)
    (result : AuthResult) : Done config request away (handleAuthedClient client result) := by
  obtain ⟨hwaiting, hlength⟩ := handleAuthedClient_outcome client result
  exact ⟨hwaiting, fun _ ↦ hlength, fun hnot ↦ absurd hanswered hnot⟩

/-- A client with the result of a stack: what the callbacks may rely on. -/
structure Delivered (request : Request) (stack : List Authenticator) (client : Client)
    (result : AuthResult) : Prop where
  request_eq : client.request = request
  result_eq : result = decision request stack
  accepted : ∀ auth, decider request stack = some auth → resultOf request auth = .ok →
    AcceptedBy client auth

theorem Delivered.tryNextStack_iff {stack : List Authenticator} {client : Client}
    {result : AuthResult} (h : Delivered request stack client result) :
    tryNextStack { client with authstack := [] } result = true ↔ ¬SettlesOn request stack := by
  rw [h.result_eq]
  apply Auth.tryNextStack_iff h.request_eq
  intro auth hdecider hresult
  exact ⟨(h.accepted auth hdecider hresult).acl_eq, (h.accepted auth hdecider hresult).verdict⟩

theorem delivered_nil {client : Client} (hrequest : client.request = request) :
    Delivered request [] client .nomatch :=
  ⟨hrequest, rfl, by simp [decider]⟩

/-- A chain of calls on the stack of a callback, given what the callback does. -/
theorem Ends.taskInv {callback : Callback} {onResult : Client → AuthResult → Task} {bound : ℕ}
    {walk stack : List Authenticator} {task : Task}
    (h : Ends pending (continueWith callback onResult) request bound walk stack task)
    (hdecider : decider request (stageStack config request callback) = decider request stack)
    (hreached : Reached config request callback)
    (haway : ¬Answered config request →
      turnedAway request (walk ++ follow config request callback) (pending :: later) = away)
    (hresult : ∀ client result,
      Delivered request (stageStack config request callback) client result →
      (¬Answered config request →
        turnedAway request (follow config request callback) (pending :: later) = away) →
      TaskInv config request (behind config request callback) later away (onResult client result)) :
    TaskInv config request (bound + behind config request callback) later away task := by
  cases h with
  | result client hrequest hok hwalk =>
    apply TaskInv.mono _ (Nat.le_add_left _ bound)
    apply hresult
    · exact ⟨hrequest, (decision_congr hdecider).symm, by rw [hdecider]; exact hok⟩
    · exact fun hnot ↦ (hwalk _ later).symm.trans (haway hnot)
  | busy client auth hbusy hwalk =>
    refine Or.inr ⟨rfl, fun _ ↦ rfl, fun hnot ↦ iff_of_true rfl ?_⟩
    exact (haway hnot).symm.trans (hwalk _ later)
  | queued client auth rest hrequest hstack hmethod hlength hrest hwalk =>
    exact Or.inl ⟨auth, callback, rest, rfl, rfl, hrequest, hstack, hmethod, hdecider.trans hrest,
      hreached, fun hnot ↦ (hwalk _ later).symm.trans (haway hnot), Nat.add_lt_add_right hlength _⟩

theorem global_taskInv (hnormal : ¬SettlesOn request (mountStack config request .normal))
    {client : Client} {result : AuthResult}
    (h : Delivered request (mountStack config request .default) client result)
    (haway : ¬Answered config request → turnedAway request [] (pending :: later) = away) :
    TaskInv config request config.authstack.length later away
      (handleAuthenticationGlobal config pending client result) := by
  unfold handleAuthenticationGlobal
  simp only
  by_cases hsettles : SettlesOn request (mountStack config request .default)
  · have hnext : ¬tryNextStack { client with authstack := [] } result = true :=
      fun hnext ↦ h.tryNextStack_iff.mp hnext hsettles
    rw [if_neg hnext]
    exact Or.inr (handleAuthedClient_done (Or.inr (Or.inr hsettles)) _ _)
  · rw [if_pos (h.tryNextStack_iff.mpr hsettles)]
    by_cases hstack : config.authstack = []
    · rw [hstack]
      have hanswered : ¬Answered config request := by simp [Answered, hstack, hnormal, hsettles]
      have hnot : ¬away = true := by
        rw [← haway hanswered]
        exact Bool.false_ne_true
      exact Or.inr ⟨rfl, fun h ↦ absurd h hanswered, fun _ ↦ iff_of_false Nat.zero_ne_one hnot⟩
    · have hends :
        Ends pending (continueWith .authed handleAuthedClient) request config.authstack.length
          (met request config.authstack) config.authstack
          (authStackAddClient pending (continueWith .authed handleAuthedClient)
            config.authstack { client with authstack := [] }) :=
        authStackAddClient_ends hstack h.request_eq (Or.inl rfl)
      have hanswered : Answered config request := Or.inl hstack
      exact hends.taskInv rfl hstack (fun hnot ↦ absurd hanswered hnot) fun next result _ _ ↦
        Or.inr (handleAuthedClient_done hanswered next result)

/-- A mount's stack, or the lack of one, ends in its callback. -/
theorem mountGeneric_taskInv {type : MountType} (callback : Callback)
    {onResult : Client → AuthResult → Task} {client : Client} (hrequest : client.request = request)
    (hclient : client.authstack = [])
    (hstage : stageStack config request callback = mountStack config request type)
    (hreached : Reached config request callback)
    (haway : ¬Answered config request → turnedAway request
      (met request (mountStack config request type) ++ follow config request callback)
      (pending :: later) = away)
    (hresult : ∀ client result, Delivered request (mountStack config request type) client result →
      (¬Answered config request →
        turnedAway request (follow config request callback) (pending :: later) = away) →
      TaskInv config request (behind config request callback) later away (onResult client result)) :
    TaskInv config request
      ((mountStack config request type).length + behind config request callback) later away
      (handleAuthenticationMountGeneric config pending type callback onResult client) := by
  unfold handleAuthenticationMountGeneric
  rw [hrequest]
  by_cases hstack : mountStack config request type = []
  · rw [hstack] at hresult haway ⊢
    simpa using hresult client _ (delivered_nil hrequest) haway
  · have hends : Ends pending (continueWith callback onResult) request
        (mountStack config request type).length (met request (mountStack config request type))
        (mountStack config request type) _ :=
      authStackAddClient_ends hstack hrequest (Or.inl hclient)
    have hinv := hends.taskInv (by rw [hstage]) hreached haway (by rw [hstage]; exact hresult)
    cases hcase : mountStack config request type with
    | nil => exact absurd hcase hstack
    | cons auth rest =>
      rw [hcase] at hinv
      exact hinv

theorem mountDefault_taskInv {client : Client} {result : AuthResult}
    (h : Delivered request (mountStack config request .normal) client result)
    (haway : ¬Answered config request →
      turnedAway request (follow config request .mountDefault) (pending :: later) = away) :
    TaskInv config request (behind config request .mountDefault) later away
      (handleAuthenticationMountDefault config pending client result) := by
  unfold handleAuthenticationMountDefault
  simp only
  by_cases hsettles : SettlesOn request (mountStack config request .normal)
  · have hnext : ¬tryNextStack { client with authstack := [] } result = true :=
      fun hnext ↦ h.tryNextStack_iff.mp hnext hsettles
    rw [if_neg hnext]
    exact Or.inr (handleAuthedClient_done (Or.inr (Or.inl hsettles)) _ _)
  · rw [if_pos (h.tryNextStack_iff.mpr hsettles)]
    have hdefault : ¬Answered config request → turnedAway request
        (met request (mountStack config request .default) ++ follow config request .global)
        (pending :: later) = away := by
      rw [follow, List.append_nil]
      exact haway
    exact mountGeneric_taskInv .global (by exact h.request_eq) (by rfl) (by rfl) hsettles hdefault
      fun _ _ hdelivered ↦ global_taskInv hsettles hdelivered

theorem invoke_taskInv {callback : Callback} (hreached : Reached config request callback)
    {client : Client} {result : AuthResult}
    (h : Delivered request (stageStack config request callback) client result)
    (haway : ¬Answered config request →
      turnedAway request (follow config request callback) (pending :: later) = away) :
    TaskInv config request (behind config request callback) later away
      (invoke config pending callback client result) := by
  cases callback with
  | mountDefault => exact mountDefault_taskInv h haway
  | global => exact global_taskInv hreached h haway
  | authed => exact Or.inr (handleAuthedClient_done (Or.inl hreached) client result)

theorem process_taskInv {left : ℕ} {task : Task}
    (inv : TaskInv config request (left + 1) (pending :: later) away task) :
    TaskInv config request left later away (process task ⟨config, pending⟩) := by
  rcases inv with
    ⟨auth, callback, rest, hwaiting, houtcomes, hrequest, hstack, hmethod, hdecider, hreached, haway,
    hleft⟩ | hdone
  · have hends :
      Ends pending (continueWith callback (invoke config pending callback)) request rest.length
        (met request (auth :: rest)).tail (auth :: rest) _ := resume_ends hrequest hstack hmethod
    have hinv := hends.taskInv hdecider hreached haway fun _ _ h ↦ invoke_taskInv hreached h
    simp only [process, hwaiting, houtcomes, List.nil_append]
    exact hinv.mono (Nat.le_of_lt_succ hleft)
  · simp only [process, hdone.waiting]
    exact Or.inr hdone

/-- With no more turns to come the request is through, or still waits. -/
theorem run_taskInv (later : List (ℕ → ℕ)) {left : ℕ} {task : Task}
    (inv : TaskInv config request left later away task) :
    TaskInv config request (left - later.length) [] away
      (run process task (later.map (Env.mk config))) := by
  induction later generalizing left task with
  | nil => exact inv
  | cons pending later ih =>
    have hstep : TaskInv config request (left - 1) later away (process task ⟨config, pending⟩) :=
      process_taskInv (inv.mono (by omega))
    have hrun := ih hstep
    rw [List.map_cons, run_cons, List.length_cons, Nat.add_comm, ← Nat.sub_sub]
    exact hrun

/-- The number of authenticators a request can meet. -/
def stackTotal (config : Config) (request : Request) : ℕ :=
  (mountStack config request .normal).length + behind config request .mountDefault

/-- The authenticators a request comes to if neither the mount's stack nor that of the default mount
settles it. -/
def metOnMounts (config : Config) (request : Request) : List Authenticator :=
  met request (mountStack config request .normal) ++ met request (mountStack config request .default)

theorem runRequest_taskInv (config : Config) (request : Request) (first : ℕ → ℕ)
    (later : List (ℕ → ℕ)) :
    TaskInv config request (stackTotal config request - later.length) []
      (turnedAway request (metOnMounts config request) (first :: later))
      (runRequest request ⟨config, first⟩ (later.map (Env.mk config))) := by
  apply run_taskInv later
  exact mountGeneric_taskInv .mountDefault (by rfl) (by rfl) (by rfl) trivial (fun _ ↦ rfl)
    fun _ _ hdelivered ↦ mountDefault_taskInv hdelivered

/-- With a configuration from the parser, a request is through after as many turns of the
authenticators' threads as there are authenticators on its stacks. It has then had exactly one
outcome if and only if there is an `<authentication>` section, a mount's stack settles it, or an
authenticator it came to on the way was overloaded and has turned it away. -/
theorem request_outcome (plugins : Plugins) (fnmatch : String → String → Bool)
    (nodes : List RootNode) {config : Config} (hconfig : config = parseRoot plugins fnmatch nodes)
    (request : Request) (first : ℕ → ℕ) (later : List (ℕ → ℕ))
    (hlater : stackTotal config request ≤ later.length)
    {task : Task} (htask : task = runRequest request ⟨config, first⟩ (later.map (Env.mk config))) :
    task.waiting = none ∧
    (task.outcomes.length = 1 ↔
      HasAuthentication nodes ∨ SettlesOn request (mountStack config request .normal) ∨
        SettlesOn request (mountStack config request .default) ∨
        turnedAway request (metOnMounts config request) (first :: later) = true) := by
  have hanswered : Answered config request ↔
      HasAuthentication nodes ∨ SettlesOn request (mountStack config request .normal) ∨
        SettlesOn request (mountStack config request .default) := by
    rw [Answered, hconfig, parseRoot_authstack]
  have inv := runRequest_taskInv config request first later
  rw [← htask, Nat.sub_eq_zero_of_le hlater] at inv
  rcases inv with ⟨auth, callback, rest, -, -, -, -, -, -, -, -, hleft⟩ | hdone
  · exact absurd hleft (Nat.not_lt_zero _)
  · refine ⟨hdone.waiting, ?_⟩
    calc
      task.outcomes.length = 1
        ↔ Answered config request ∨
            turnedAway request (metOnMounts config request) (first :: later) = true := by
          by_cases h : Answered config request
          · exact iff_of_true (hdone.answered h) (Or.inl h)
          · rw [hdone.unanswered h, or_iff_right h]
      _ ↔ HasAuthentication nodes ∨ SettlesOn request (mountStack config request .normal) ∨
            SettlesOn request (mountStack config request .default) ∨
            turnedAway request (metOnMounts config request) (first :: later) = true := by
          rw [hanswered, or_assoc, or_assoc]

/-- No backends but the built-in ones, and the same ACL for every role. -/
def examplePlugins : Plugins := ⟨fun _ ↦ none, fun _ ↦ exampleAcl, fun _ _ ↦ none⟩

theorem request_outcome_anonymous :
    (runRequest exampleRequest
      ⟨parseRoot examplePlugins (fun _ _ ↦ false) [.authentication []], fun _ ↦ 0⟩
      ([fun _ ↦ 0].map (Env.mk (parseRoot examplePlugins (fun _ _ ↦ false) [.authentication []])))
        ).outcomes.length = 1 := by
  have h := request_outcome examplePlugins (fun _ _ ↦ false) [.authentication []] rfl exampleRequest
    (fun _ ↦ 0) [fun _ ↦ 0] (by decide +kernel) rfl
  exact h.2.mpr (Or.inl ⟨[], List.mem_singleton_self _⟩)

/-- A file without an `<authentication>` section: a request is neither dispatched nor answered. -/
theorem request_dropped :
    ¬∀ (plugins : Plugins) (fnmatch : String → String → Bool) (nodes : List RootNode)
      (request : Request) (first : ℕ → ℕ) (later : List (ℕ → ℕ)),
      stackTotal (parseRoot plugins fnmatch nodes) request ≤ later.length →
      (runRequest request ⟨parseRoot plugins fnmatch nodes, first⟩
        (later.map (Env.mk (parseRoot plugins fnmatch nodes)))).outcomes.length = 1 := by
  intro hall
  have h := hall examplePlugins (fun _ _ ↦ false) [] exampleRequest (fun _ ↦ 0) []
    (by decide +kernel)
  exact absurd h (by decide +kernel)

end Icecast.Auth
