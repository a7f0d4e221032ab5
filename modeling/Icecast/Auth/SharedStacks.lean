import Icecast.Auth.Stack
import Icecast.Lib.SharedList

/-!
# Stacks of authenticators in memory

A stack of authenticators is a list of counted cells (`auth.c`). The configuration, a mount and every client
that is being authenticated have pointers into stacks, and a stack that is appended to another one is the
end of both. Pointers are given back one by one, and a cell that goes gives back its authenticator.
-/

namespace Icecast.Auth.SharedStacks

open Lib Lib.Checked Lib.Machine Lib.SharedList

/-- `auth_t`, as far as the functions look at it. -/
structure AuthInfo where
  id : ℕ
  type : String
  method : ReqType → Bool

/-- The stacks, the pointers to them that are in use, and the references to authenticators that the stacks
have. -/
structure State where
  memory : Memory AuthInfo
  held : List ℕ
  refs : ℕ → ℤ

def State.empty : State := ⟨Heap.empty, [], fun _ ↦ 0⟩

/-! ## Calls -/

/-- `auth_addref` -/
def authAddref (refs : ℕ → ℤ) (auth : AuthInfo) : ℕ → ℤ := Function.update refs auth.id (refs auth.id + 1)

/-- `auth_release` -/
def authRelease (refs : ℕ → ℤ) (auth : AuthInfo) : ℕ → ℤ := Function.update refs auth.id (refs auth.id - 1)

/-- `auth_stack_release` -/
def authStackRelease (memory : Memory AuthInfo) (refs : ℕ → ℤ) (stack : Option ℕ) :
    Except Fault (Memory AuthInfo × (ℕ → ℤ)) := do
  let (memory, values) ← releaseAll memory stack
  return (memory, values.foldl authRelease refs)

/-- `auth_stack_next` moves the pointer. -/
def authStackNext (memory : Memory AuthInfo) (refs : ℕ → ℤ) (stack : ℕ) :
    Except Fault (Memory AuthInfo × (ℕ → ℤ) × Option ℕ) := do
  let cell ← load memory stack
  let memory ← addref memory cell.next
  let (memory, refs) ← authStackRelease memory refs (some stack)
  return (memory, refs, cell.next)

/-- The calls of a program, with the pointers they are given; `allocated` is false if there is no memory. -/
inductive Call where
  | push (stack : Option ℕ) (auth : Option AuthInfo) (allocated : Bool)
  | append (stack tail : Option ℕ)
  | addref (stack : ℕ)
  | release (stack : ℕ)
  | next (stack : ℕ)

/-- `auth_stack_push`: a first cell is a new pointer, and any other one is appended. -/
def authStackPush (s : State) (stack : Option ℕ) (auth : AuthInfo) : Except Fault State := do
  let refs := authAddref s.refs auth
  match stack with
  | some start =>
    let (memory, values) ← push s.memory start auth
    return { s with memory := memory, refs := values.foldl authRelease refs }
  | none => return ⟨s.memory.alloc ⟨1, none, auth⟩, s.memory.next :: s.held, refs⟩

def step (s : State) : Call → Except Fault State
  | .push stack auth allocated =>
    match auth with
    | some auth => if allocated then authStackPush s stack auth else .ok s
    | none => .ok s
  | .append stack tail =>
    match stack with
    | some start => do
      let memory ← append s.memory start tail
      return { s with memory := memory }
    | none => .ok s
  | .addref stack => do
    let memory ← SharedList.addref s.memory (some stack)
    return { s with memory := memory, held := stack :: s.held }
  | .release stack => do
    let (memory, refs) ← authStackRelease s.memory s.refs (some stack)
    return ⟨memory, s.held.erase stack, refs⟩
  | .next stack => do
    let (memory, refs, next) ← authStackNext s.memory s.refs stack
    return ⟨memory, next.toList ++ s.held.erase stack, refs⟩

def runStep (result : Except Fault State) (call : Call) : Except Fault State := result >>= (step · call)

/-- The caller has the pointers, and does not append a stack to one with the same end. -/
def Allowed (s : State) : Call → Prop
  | .push stack _ _ => ∀ start, stack = some start → start ∈ s.held
  | .append stack tail => (∀ start, stack = some start → start ∈ s.held) ∧
      (∀ id, tail = some id → id ∈ s.held) ∧
      ∀ last, EndsIn s.memory stack last → ¬EndsIn s.memory tail last
  | .addref stack => stack ∈ s.held
  | .release stack => stack ∈ s.held
  | .next stack => stack ∈ s.held

def AllowedIn (result : Except Fault State) (call : Call) : Prop :=
  ∀ s, result = .ok s → Allowed s call

/-! ## Searching -/

/-- The loops of `auth_stack_getbyid` and `auth_stack_get_anonymous_acl`. The reference to an authenticator
that is looked at is given back at once; that to the one that is found is the caller's. -/
def searchStack (wanted : AuthInfo → Bool) : ℕ → Memory AuthInfo → (ℕ → ℤ) → Option ℕ →
    Except Fault (Option AuthInfo × Memory AuthInfo × (ℕ → ℤ))
  | _, memory, refs, none => .ok (none, memory, refs)
  | 0, _, _, some _ => .error .endless
  | fuel + 1, memory, refs, some stack => do
    let cell ← load memory stack
    if wanted cell.value then
      let (memory, refs) ← authStackRelease memory refs (some stack)
      return (some cell.value, memory, refs)
    else
      let (memory, refs, next) ← authStackNext memory refs stack
      searchStack wanted fuel memory refs next

def searchFrom (wanted : AuthInfo → Bool) (s : State) (stack : ℕ) :
    Except Fault (Option AuthInfo × Memory AuthInfo × (ℕ → ℤ)) := do
  let memory ← SharedList.addref s.memory (some stack)
  searchStack wanted (memory.next + 1) memory s.refs (some stack)

def authStackGetbyid (s : State) (stack id : ℕ) :
    Except Fault (Option AuthInfo × Memory AuthInfo × (ℕ → ℤ)) :=
  searchFrom (fun auth ↦ auth.id = id) s stack

/-- `auth_stack_get_anonymous_acl`; the result stands for its acl. -/
def authStackGetAnonymousAcl (s : State) (stack : ℕ) (method : ReqType) :
    Except Fault (Option AuthInfo × Memory AuthInfo × (ℕ → ℤ)) :=
  searchFrom (fun auth ↦ auth.method method && auth.type = "anonymous") s stack

/-! ## The invariant -/

def hasId (id : ℕ) (cell : Cell AuthInfo) : ℤ := if cell.value.id = id then 1 else 0

structure Invariant (s : State) : Prop where
  counted : Counted s.memory s.held
  settled : Settled s.memory
  refs : ∀ id, s.refs id = s.memory.total (hasId id)

theorem foldl_authRelease (refs : ℕ → ℤ) (values : List AuthInfo) (id : ℕ) :
    values.foldl authRelease refs id =
      refs id - (values.map fun auth ↦ if auth.id = id then 1 else 0).sum := by
  induction values generalizing refs with
  | nil => simp
  | cons auth values ih =>
    rw [List.foldl_cons, ih, List.map_cons, List.sum_cons, authRelease]
    by_cases hid : auth.id = id
    · rw [hid, Function.update_self, if_pos rfl]
      ring
    · rw [Function.update_of_ne (Ne.symm hid), if_neg hid]
      ring

theorem authAddref_apply (refs : ℕ → ℤ) (auth : AuthInfo) (id : ℕ) :
    authAddref refs auth id = refs id + if auth.id = id then 1 else 0 := by
  rw [authAddref]
  by_cases hid : auth.id = id
  · rw [hid, Function.update_self, if_pos rfl]
  · rw [Function.update_of_ne (Ne.symm hid), if_neg hid, add_zero]

/-- The authenticators of the cells that are left. -/
theorem total_hasId {before after : Memory AuthInfo} (hvalue : valueOf after = valueOf before)
    (hnext : after.next = before.next) (id : ℕ) : after.total (hasId id) = before.total (hasId id) :=
  total_value_eq hvalue hnext fun auth ↦ if auth.id = id then 1 else 0

section Steps

variable {s : State} {memory : Memory AuthInfo} {held : List ℕ} {refs : ℕ → ℤ} {id : ℕ}

/-- A pointer is given back, with the references of the cells that go. -/
theorem authStackRelease_ok (h : Invariant ⟨memory, id :: held, refs⟩) :
    ∃ after refs' freed, authStackRelease memory refs (some id) = .ok (after, refs') ∧
      Released memory after held freed ∧ Invariant ⟨after, held, refs'⟩ := by
  obtain ⟨after, freed, hrun, hreleased⟩ := releaseAll_ok h.counted
  refine ⟨after, freed.foldl authRelease refs, freed, ?_, hreleased, hreleased.counted,
    hreleased.settled h.settled, ?_⟩
  · rw [authStackRelease, hrun, ok_bind]
    rfl
  · intro other
    have hmissing := hreleased.missing fun auth ↦ if auth.id = other then 1 else 0
    have hrefs := h.refs other
    dsimp only at hrefs ⊢
    rw [foldl_authRelease, hrefs]
    change memory.total (hasId other) - _ = after.total (hasId other)
    change after.total (hasId other) + _ = memory.total (hasId other) at hmissing
    omega

/-- What a call appends, and behind which cell. -/
def Behind (s : State) (call : Call) (last : ℕ) (more : List AuthInfo) : Prop :=
  match call with
  | .push (some start) (some auth) true => EndsIn s.memory (some start) last ∧ more = [auth]
  | .append (some start) tail => EndsIn s.memory (some start) last ∧ Shows s.memory tail more
  | _ => False

/-- The pointer that a call returns. -/
def Handed (s after : State) (call : Call) : Prop :=
  match call with
  | .push none (some auth) true => ∃ stack, after.held = stack :: s.held ∧
      Shows after.memory (some stack) [auth]
  | .push _ _ _ => after.held = s.held
  | .append _ _ => after.held = s.held
  | .addref stack => after.held = stack :: s.held
  | .release stack => after.held = s.held.erase stack
  | .next stack => ∃ next, after.held = next.toList ++ s.held.erase stack ∧
      ∀ auth values, Shows s.memory (some stack) (auth :: values) → Shows after.memory next values

/-- A stack that a pointer leads to before and after a call: it goes on with what has been appended to its
last cell. -/
structure Effect (s after : State) (call : Call) : Prop where
  handed : Handed s after call
  appended : ∀ stack ∈ s.held, stack ∈ after.held → ∀ values, Shows s.memory (some stack) values →
    ∀ last more, Behind s call last more → EndsIn s.memory (some stack) last →
      Shows after.memory (some stack) (values ++ more)
  kept : ∀ stack ∈ s.held, stack ∈ after.held → ∀ values, Shows s.memory (some stack) values →
    (∀ last more, Behind s call last more → ¬EndsIn s.memory (some stack) last) →
      Shows after.memory (some stack) values

theorem Invariant.refs_of_alike (h : Invariant s) {after : Memory AuthInfo}
    (hvalue : valueOf after = valueOf s.memory) (hnext : after.next = s.memory.next) (id : ℕ) :
    s.refs id = after.total (hasId id) := by
  rw [h.refs, total_hasId hvalue hnext]

/-- Appending to a stack. -/
theorem append_effect (h : Invariant s) {start : ℕ} {tail : Option ℕ}
    (hallowed : Allowed s (.append (some start) tail)) :
    ∃ after, step s (.append (some start) tail) = .ok after ∧ Invariant after ∧
      Effect s after (.append (some start) tail) := by
  obtain ⟨hstart, htail, havoid⟩ := hallowed
  obtain ⟨last, hends⟩ := h.counted.exists_last (hstart start rfl)
  obtain ⟨memory, hrun, happended⟩ := append_ok h.counted (hstart start rfl) htail hends (havoid last hends)
  refine ⟨{ s with memory := memory }, ?_, ⟨happended.counted, happended.settled h.settled,
    h.refs_of_alike happended.value happended.allocated⟩, rfl, ?_, ?_⟩
  · rw [step, hrun, ok_bind]
    rfl
  · rintro stack - - values hvalues last' more ⟨hlast', hmore⟩ hstack
    obtain rfl := hends.unique hlast'
    exact (happended.shows hends.nextOf hvalues hmore).1 hstack
  · intro stack _ _ values hvalues hother
    obtain ⟨more, hmore⟩ : ∃ more, Shows s.memory tail more := by
      apply h.counted.exists_shows
      exact fun id hid ↦ h.counted.exists_cell (htail id hid)
    exact (happended.shows hends.nextOf hvalues hmore).2 (hother last more ⟨hends, hmore⟩)

/-- A new cell for an authenticator. -/
theorem Invariant.alloc (h : Invariant s) (auth : AuthInfo) :
    Invariant ⟨s.memory.alloc ⟨1, none, auth⟩, s.memory.next :: s.held, authAddref s.refs auth⟩ := by
  obtain ⟨hcounted, hsettled, -⟩ := h.counted.alloc h.settled auth
  refine ⟨hcounted, hsettled, ?_⟩
  intro id
  have hrefs := h.refs id
  dsimp only
  rw [authAddref_apply, hrefs, Heap.total_alloc]
  rfl

/-- Pushing onto a stack. -/
theorem push_effect (h : Invariant s) {start : ℕ} (hstart : start ∈ s.held) (auth : AuthInfo) :
    ∃ after, authStackPush s (some start) auth = .ok after ∧ Invariant after ∧
      Effect s after (.push (some start) (some auth) true) := by
  obtain ⟨memory, hrun, hpushed⟩ := push_ok h.counted h.settled hstart auth
  refine ⟨⟨memory, s.held, authAddref s.refs auth⟩, ?_, ⟨hpushed.counted, hpushed.settled, ?_⟩, rfl, ?_, ?_⟩
  · rw [authStackPush, hrun, ok_bind]
    rfl
  · intro id
    have hrefs := h.refs id
    dsimp only
    rw [authAddref_apply, hrefs]
    exact (hpushed.total fun auth ↦ if auth.id = id then 1 else 0).symm
  · rintro stack hstack - values hvalues last more ⟨hlast, rfl⟩ hbehind
    exact (hpushed.shows hstack hvalues hlast).1 hbehind
  · intro stack hstack _ values hvalues hother
    obtain ⟨last, hlast⟩ := h.counted.exists_last hstart
    exact (hpushed.shows hstack hvalues hlast).2 (hother last [auth] ⟨hlast, rfl⟩)

/-- A call that has nothing to do. -/
theorem idle_effect {call : Call} (hhanded : Handed s s call)
    (hbehind : ∀ last more, ¬Behind s call last more) : Effect s s call where
  handed := hhanded
  appended _ _ _ _ _ last more hmore := absurd hmore (hbehind last more)
  kept _ _ _ _ hvalues _ := hvalues

/-- A call that appends nothing. -/
theorem Effect.of_kept {after : State} {call : Call} (hhanded : Handed s after call)
    (hbehind : ∀ last more, ¬Behind s call last more)
    (hkept : ∀ stack ∈ s.held, stack ∈ after.held → ∀ values, Shows s.memory (some stack) values →
      Shows after.memory (some stack) values) : Effect s after call where
  handed := hhanded
  appended _ _ _ _ _ last more hmore := absurd hmore (hbehind last more)
  kept stack hstack hafter values hvalues _ := hkept stack hstack hafter values hvalues

/-- The first cell of a stack. -/
theorem first_effect (h : Invariant s) (auth : AuthInfo) : ∃ after,
    authStackPush s none auth = .ok after ∧ Invariant after ∧
      Effect s after (.push none (some auth) true) := by
  obtain ⟨-, -, hkept⟩ := h.counted.alloc h.settled auth
  refine ⟨_, rfl, h.alloc auth, Effect.of_kept ⟨s.memory.next, rfl, shows_alloc s.memory auth⟩ ?_ ?_⟩
  · exact fun _ _ hfalse ↦ hfalse
  · rintro stack hstack - values ⟨nodes, hchain, hvalues⟩
    obtain ⟨hchain', hvalues'⟩ := hkept (some stack) nodes (fun _ hid ↦ Option.some.inj hid ▸ hstack) hchain
    exact ⟨nodes, hchain', hvalues'.trans hvalues⟩

theorem addref_effect (h : Invariant s) {stack : ℕ} (hstack : stack ∈ s.held) : ∃ after,
    step s (.addref stack) = .ok after ∧ Invariant after ∧ Effect s after (.addref stack) := by
  obtain ⟨memory, hrun, hcounted, halike⟩ := addref_ok h.counted hstack
  have hsettled : Settled memory := by
    obtain ⟨cell, hcell, hactive⟩ := h.counted.exists_cell hstack
    rw [SharedList.addref, load_eq hcell, ok_bind] at hrun
    rw [← Except.ok.inj hrun]
    exact h.counted.settled_addref h.settled stack
  refine ⟨⟨memory, stack :: s.held, s.refs⟩, ?_, ⟨hcounted, hsettled,
    h.refs_of_alike halike.value halike.allocated⟩, Effect.of_kept rfl (fun _ _ hfalse ↦ hfalse) ?_⟩
  · rw [step, hrun, ok_bind]
    rfl
  · exact fun _ _ _ _ hvalues ↦ halike.shows.mpr hvalues

theorem Invariant.front (h : Invariant s) {stack : ℕ} (hstack : stack ∈ s.held) :
    Invariant ⟨s.memory, stack :: s.held.erase stack, s.refs⟩ :=
  ⟨h.counted.perm (List.perm_cons_erase hstack), h.settled, h.refs⟩

theorem release_effect (h : Invariant s) {stack : ℕ} (hstack : stack ∈ s.held) : ∃ after,
    step s (.release stack) = .ok after ∧ Invariant after ∧ Effect s after (.release stack) := by
  obtain ⟨memory, refs, freed, hrun, hreleased, hafter⟩ := authStackRelease_ok (h.front hstack)
  refine ⟨⟨memory, s.held.erase stack, refs⟩, ?_, hafter,
    Effect.of_kept rfl (fun _ _ hfalse ↦ hfalse) ?_⟩
  · rw [step, hrun, ok_bind]
    rfl
  · exact fun _ _ hkept _ hvalues ↦ hreleased.shows hkept hvalues

/-- The pointer to the next cell is taken before the one to the first is given back. -/
theorem next_ok (h : Invariant ⟨memory, id :: held, refs⟩) : ∃ after refs' next freed,
    authStackNext memory refs id = .ok (after, refs', next) ∧
      Invariant ⟨after, next.toList ++ held, refs'⟩ ∧
      (∃ taken, Alike memory taken ∧ Released taken after (next.toList ++ held) freed) ∧
      ∀ auth values, Shows memory (some id) (auth :: values) → Shows after next values := by
  obtain ⟨cell, hcell, hactive⟩ := h.counted.exists_cell List.mem_cons_self
  obtain ⟨taken, hrun, hcounted, halike⟩ := addref_next_ok h.counted List.mem_cons_self hcell
  have hsettled : Settled taken := by
    cases hnext : cell.next with
    | none =>
      rw [hnext] at hrun
      rw [← Except.ok.inj hrun]
      exact h.settled
    | some next =>
      obtain ⟨found, hfound⟩ :=
        Option.isSome_iff_exists.mp (h.counted.next id cell hcell hactive next hnext)
      rw [hnext, SharedList.addref, load_eq hfound, ok_bind] at hrun
      rw [← Except.ok.inj hrun]
      exact h.counted.settled_addref h.settled next
  have hperm : (cell.next.toList ++ id :: held).Perm (id :: (cell.next.toList ++ held)) :=
    List.perm_middle
  have htaken : Invariant ⟨taken, id :: (cell.next.toList ++ held), refs⟩ :=
    ⟨hcounted.perm hperm, hsettled, h.refs_of_alike halike.value halike.allocated⟩
  obtain ⟨after, refs', freed, hrelease, hreleased, hafter⟩ := authStackRelease_ok htaken
  refine ⟨after, refs', cell.next, freed, ?_, hafter, ⟨taken, halike, hreleased⟩, ?_⟩
  · rw [authStackNext, load_eq hcell, ok_bind, hrun, ok_bind, hrelease, ok_bind]
    rfl
  · intro auth values hvalues
    obtain ⟨rest, hrest, hnext⟩ := hvalues.cons hcell
    rw [(List.cons.inj hrest).2]
    apply (halike.shows.mpr hnext).remains hreleased.counted hreleased.remains
    intro next hsome
    exact hreleased.counted.exists_cell (List.mem_append_left _ (Option.mem_toList.mpr hsome))

theorem next_effect (h : Invariant s) {stack : ℕ} (hstack : stack ∈ s.held) : ∃ after,
    step s (.next stack) = .ok after ∧ Invariant after ∧ Effect s after (.next stack) := by
  obtain ⟨memory, refs, next, freed, hrun, hafter, ⟨taken, halike, hreleased⟩, hshows⟩ :=
    next_ok (h.front hstack)
  refine ⟨⟨memory, next.toList ++ s.held.erase stack, refs⟩, ?_, hafter,
    Effect.of_kept ⟨next, rfl, hshows⟩ (fun _ _ hfalse ↦ hfalse) ?_⟩
  · rw [step, hrun, ok_bind]
    rfl
  · exact fun _ _ hkept _ hvalues ↦ hreleased.shows hkept (halike.shows.mpr hvalues)

/-- Every call that is allowed succeeds. -/
theorem step_effect (h : Invariant s) {call : Call} (hallowed : Allowed s call) :
    ∃ after, step s call = .ok after ∧ Invariant after ∧ Effect s after call := by
  cases call with
  | push stack auth allocated =>
    cases auth with
    | none =>
      refine ⟨s, rfl, h, idle_effect (by cases stack <;> rfl) ?_⟩
      cases stack <;> exact fun _ _ hfalse ↦ hfalse
    | some auth =>
      cases allocated with
      | false =>
        refine ⟨s, rfl, h, idle_effect (by cases stack <;> rfl) ?_⟩
        cases stack <;> exact fun _ _ hfalse ↦ hfalse
      | true =>
        cases stack with
        | none => exact first_effect h auth
        | some start => exact push_effect h (hallowed start rfl) auth
  | append stack tail =>
    cases stack with
    | none => exact ⟨s, rfl, h, idle_effect rfl fun _ _ hfalse ↦ hfalse⟩
    | some start => exact append_effect h hallowed
  | addref stack => exact addref_effect h hallowed
  | release stack => exact release_effect h hallowed
  | next stack => exact next_effect h hallowed

/-! ### Searching -/

theorem authStackRelease_spare (h : Spare memory held id) (refs : ℕ → ℤ) :
    authStackRelease memory refs (some id) = .ok (memory.modify id Cell.unref, refs) := by
  obtain ⟨cell, hcell, hlast, hrelease⟩ := h.release
  rw [authStackRelease, hrelease, ok_bind]
  rfl

theorem searchStack_ok (wanted : AuthInfo → Bool) {fuel : ℕ} {values : List AuthInfo}
    (h : Spare memory held id) (hsettled : Settled memory) (hshows : Shows memory (some id) values)
    (hfuel : values.length ≤ fuel) (refs : ℕ → ℤ) : ∃ after,
    searchStack wanted fuel memory refs (some id) = .ok (values.find? wanted, after, refs) ∧
      Counted after held ∧ Settled after ∧ Alike memory after := by
  induction fuel generalizing memory id values with
  | zero =>
    obtain ⟨cell, hcell, -⟩ := h.release
    obtain ⟨rest, rfl, -⟩ := hshows.cons hcell
    cases hfuel
  | succ fuel ih =>
    obtain ⟨cell, hcell, hlast, hrelease⟩ := h.release
    obtain ⟨rest, rfl, hrest⟩ := hshows.cons hcell
    obtain ⟨hcounted, hunref⟩ := h.settled hsettled
    rw [searchStack, load_eq hcell, ok_bind]
    by_cases hwanted : wanted cell.value = true
    · rw [if_pos hwanted, authStackRelease_spare h, ok_bind, List.find?_cons_of_pos hwanted]
      exact ⟨_, rfl, hcounted, hunref, alike_unref memory id⟩
    · rw [if_neg hwanted, List.find?_cons_of_neg hwanted, authStackNext, load_eq hcell, ok_bind]
      cases hnext : cell.next with
      | none =>
        rw [hnext] at hrest
        rw [hrest.eq_nil, SharedList.addref, ok_bind, authStackRelease_spare h, ok_bind]
        exact ⟨memory.modify id Cell.unref, by cases fuel <;> rfl, hcounted, hunref, alike_unref memory id⟩
      | some next =>
        obtain ⟨taken, hadd, hmoved, hspare, halike, hkept⟩ := h.move hcell hnext
        rw [hnext, ← halike.shows] at hrest
        obtain ⟨after, hrun, hafter, hsettled', hsame⟩ :=
          ih hspare (hkept hsettled) hrest (Nat.le_of_succ_le_succ hfuel)
        refine ⟨after, ?_, hafter, hsettled', halike.trans hsame⟩
        rw [hadd, ok_bind, authStackRelease, hmoved, ok_bind, ← hrun]
        rfl

/-- A search finds the first authenticator of the stack that is wanted, and afterwards every count is what
it was. -/
theorem searchFrom_ok (wanted : AuthInfo → Bool) (h : Invariant s) {stack : ℕ} (hstack : stack ∈ s.held) :
    ∃ values after, Shows s.memory (some stack) values ∧
      searchFrom wanted s stack = .ok (values.find? wanted, after, s.refs) ∧
      after.objects = s.memory.objects := by
  obtain ⟨taken, hadd, hspare, halike, hkept⟩ := h.counted.spare hstack
  obtain ⟨values, hvalues⟩ := h.counted.shows_of_mem hstack
  have htaken : Shows taken (some stack) values := halike.shows.mpr hvalues
  have hlength : values.length ≤ taken.next := by
    obtain ⟨nodes, hchain, hsame⟩ := htaken
    obtain ⟨cell, hcell, -⟩ := hspare.release
    have hbound := hspare.counted.chain_length hcell (hspare.counted.refcount_ne_of_held hcell) hchain
    have hlengths := congrArg List.length hsame
    rw [List.length_map, List.length_map] at hlengths
    omega
  obtain ⟨after, hrun, hafter, hsettled, hsame⟩ :=
    searchStack_ok wanted hspare (hkept h.settled) htaken (Nat.le_succ_of_le hlength) s.refs
  refine ⟨values, after, hvalues, ?_, ?_⟩
  · rw [searchFrom, hadd, ok_bind, hrun]
  · exact (halike.trans hsame).objects_eq h.counted hafter h.settled hsettled

end Steps

/-! ## Runs -/

theorem invariant_empty : Invariant State.empty where
  counted := counted_empty
  settled := settled_empty
  refs _ := rfl

theorem invariant_run {calls : List Call} (hallowed : Guarded runStep AllowedIn (.ok State.empty) calls) :
    ∃ s, run runStep (.ok State.empty) calls = .ok s ∧ Invariant s := by
  apply run_invariant_of_guarded runStep (fun result ↦ ∃ s, result = .ok s ∧ Invariant s) _ calls
    ⟨State.empty, rfl, invariant_empty⟩ hallowed
  rintro result call ⟨s, rfl, h⟩ hguard
  obtain ⟨after, hstep, hafter, -⟩ := step_effect h (hguard s rfl)
  exact ⟨after, hstep, hafter⟩

/-- No call uses a cell that has been freed. A cell is counted once for each pointer to it and for each cell
before it, and the references to an authenticator are the cells that have it; when all pointers have been
given back, there is no cell and no reference left. -/
theorem stacks_counted {calls : List Call} (hallowed : Guarded runStep AllowedIn (.ok State.empty) calls) :
    ∃ s, run runStep (.ok State.empty) calls = .ok s ∧
      (∀ id cell, s.memory.objects id = some cell →
        cell.refcount = s.held.count id + s.memory.total (pointsTo id) ∧ 0 < cell.refcount) ∧
      (∀ id, s.refs id = s.memory.total (hasId id)) ∧
      (s.held = [] → (∀ id, s.memory.objects id = none) ∧ ∀ id, s.refs id = 0) := by
  obtain ⟨s, hrun, h⟩ := invariant_run hallowed
  refine ⟨s, hrun, ?_, h.refs, ?_⟩
  · intro id cell hcell
    have hnonneg := h.counted.refcount_nonneg hcell
    exact ⟨h.counted.refcount id cell hcell, lt_of_le_of_ne hnonneg (Ne.symm (h.settled id cell hcell))⟩
  · intro hnone
    have hcounted := h.counted
    rw [hnone] at hcounted
    have hempty := hcounted.eq_none h.settled
    refine ⟨hempty, fun id ↦ ?_⟩
    rw [h.refs]
    apply Heap.total_eq_zero
    intro other cell hcell
    rw [hempty other] at hcell
    cases hcell

/-- After any calls every pointer shows a list, in which the searches find the first authenticator that is
wanted without leaving a trace. The next call goes through: what it appends stands behind the stacks that
ended in the same cell, and all others are as they were. -/
theorem stacks_shown {calls : List Call} (hallowed : Guarded runStep AllowedIn (.ok State.empty) calls) :
    ∃ s, run runStep (.ok State.empty) calls = .ok s ∧
      (∀ stack ∈ s.held, ∃ values, Shows s.memory (some stack) values ∧
        (∀ id, ∃ after, authStackGetbyid s stack id =
          .ok (values.find? (fun auth ↦ auth.id = id), after, s.refs) ∧ after.objects = s.memory.objects) ∧
        ∀ method, ∃ after, authStackGetAnonymousAcl s stack method =
          .ok (values.find? (fun auth ↦ auth.method method && auth.type = "anonymous"), after, s.refs) ∧
            after.objects = s.memory.objects) ∧
      ∀ call, Allowed s call → ∃ after, step s call = .ok after ∧ Effect s after call := by
  obtain ⟨s, hrun, h⟩ := invariant_run hallowed
  refine ⟨s, hrun, ?_, ?_⟩
  · intro stack hstack
    obtain ⟨values, hvalues⟩ := h.counted.shows_of_mem hstack
    refine ⟨values, hvalues, fun id ↦ ?_, fun method ↦ ?_⟩
    · obtain ⟨values', after, hvalues', hfound, hsame⟩ :=
        searchFrom_ok (fun auth ↦ auth.id = id) h hstack
      rw [hvalues.unique hvalues']
      exact ⟨after, hfound, hsame⟩
    · obtain ⟨values', after, hvalues', hfound, hsame⟩ :=
        searchFrom_ok (fun auth ↦ auth.method method && auth.type = "anonymous") h hstack
      rw [hvalues.unique hvalues']
      exact ⟨after, hfound, hsame⟩
  · intro call hcall
    obtain ⟨after, hstep, -, heffect⟩ := step_effect h hcall
    exact ⟨after, hstep, heffect⟩

/-! ### Two authenticators -/

def first : AuthInfo := ⟨1, "static", fun _ ↦ true⟩

def second : AuthInfo := ⟨2, "anonymous", fun _ ↦ true⟩

/-- A stack of two; a client goes on to the second one, and the stack is given back before the client. -/
def shortRun : List Call :=
  [.push none (some first) true, .push (some 0) (some second) true, .addref 0, .next 0, .release 0,
    .release 1]

theorem shortRun_allowed : Guarded runStep AllowedIn (.ok State.empty) shortRun := by
  refine ⟨?_, ?_, ?_, ?_, ?_, ?_, trivial⟩
  · rintro s - start hstart
    cases hstart
  · rintro s hs start hstart
    rw [← Except.ok.inj hs, ← Option.some.inj hstart]
    decide
  all_goals
    rintro s hs
    rw [← Except.ok.inj hs]
    exact List.mem_of_elem_eq_true rfl

theorem shortRun_counted : ∃ s, run runStep (.ok State.empty) shortRun = .ok s ∧ s.held = [] ∧
    ∀ id, s.memory.objects id = none := by
  obtain ⟨s, hrun, -, -, hempty⟩ := stacks_counted shortRun_allowed
  have hheld : s.held = [] := by
    rw [← Except.ok.inj hrun]
    rfl
  exact ⟨s, hrun, hheld, (hempty hheld).1⟩

theorem shortRun_shown : ∃ s, run runStep (.ok State.empty) (shortRun.take 2) = .ok s ∧
    ∃ values, Shows s.memory (some 0) values := by
  have hallowed : Guarded runStep AllowedIn (.ok State.empty) (shortRun.take 2) :=
    ⟨shortRun_allowed.1, shortRun_allowed.2.1, trivial⟩
  obtain ⟨s, hrun, hshows, -⟩ := stacks_shown hallowed
  have hheld : 0 ∈ s.held := by
    rw [← Except.ok.inj hrun]
    decide
  obtain ⟨values, hvalues, -⟩ := hshows 0 hheld
  exact ⟨s, hrun, values, hvalues⟩

end Icecast.Auth.SharedStacks
