import Icecast.Lib.Machine
import Mathlib.Data.List.Induction
import Mathlib.Data.List.Nodup
import Mathlib.Logic.Function.Basic

/-!
# Tasks that wait for workers

A task may wait for one of several workers. Each worker has a queue, takes a task from its front and lets
it go on, and the task may then wait for a worker again. Between the turns of the workers tasks are
submitted, and those that do not wait may be resumed.

Seen from one task, a run of all workers is a run of that task with the inputs it was given.
-/

namespace Icecast.Lib.Workers

open Function Machine

variable {κ τ ι : Type*}

/-- The tasks as they were submitted and as they are, what waits, and what has happened. -/
structure State (κ τ ι : Type*) where
  starts : List τ
  tasks : List τ
  queue : κ → List ℕ
  hand : κ → Option ℕ
  queued : List (κ × ℕ)
  taken : List (κ × ℕ)
  inputs : List (ℕ × ι)

def State.empty : State κ τ ι := ⟨[], [], fun _ ↦ [], fun _ ↦ none, [], [], []⟩

/-- What was put into the queue of a worker, or taken out of it. -/
def of [DecidableEq κ] (worker : κ) (history : List (κ × ℕ)) : List ℕ :=
  (history.filter (·.1 = worker)).map Prod.snd

def State.inputsOf (s : State κ τ ι) (i : ℕ) : List ι := (s.inputs.filter (·.1 = i)).map Prod.snd

theorem inputsOf_append (s : State κ τ ι) (i other : ℕ) (input : ι) {inputs : List (ℕ × ι)}
    (hinputs : inputs = s.inputs ++ [(i, input)]) (s' : State κ τ ι) (hs' : s'.inputs = inputs) :
    s'.inputsOf other = s.inputsOf other ++ if i = other then [input] else [] := by
  rw [State.inputsOf, hs', hinputs, List.filter_append, List.map_append, State.inputsOf]
  by_cases hsame : i = other
  · simp [hsame]
  · simp [hsame]

inductive Action (κ τ ι : Type*) where
  | submit (task : τ)
  | resume (i : ℕ) (input : ι)
  | take (worker : κ)
  | finish (worker : κ) (input : ι)

variable [DecidableEq κ] (waits : τ → Option κ) (process : τ → ι → τ)

def enqueue (i : ℕ) (s : State κ τ ι) : Option κ → State κ τ ι
  | none => s
  | some worker =>
    { s with
      queue := update s.queue worker (s.queue worker ++ [i])
      queued := s.queued ++ [(worker, i)] }

/-- A task goes on. -/
def advance (i : ℕ) (input : ι) (s : State κ τ ι) : State κ τ ι :=
  match s.tasks[i]? with
  | none => s
  | some task =>
    enqueue i { s with
      tasks := s.tasks.set i (process task input)
      inputs := s.inputs ++ [(i, input)] } (waits (process task input))

def step (s : State κ τ ι) : Action κ τ ι → State κ τ ι
  | .submit task =>
    enqueue s.tasks.length { s with starts := s.starts ++ [task], tasks := s.tasks ++ [task] } (waits task)
  | .resume i input => if (s.tasks[i]?).bind waits = none then advance waits process i input s else s
  | .take worker =>
    match s.hand worker, s.queue worker with
    | none, i :: rest =>
      { s with
        queue := update s.queue worker rest
        hand := update s.hand worker (some i)
        taken := s.taken ++ [(worker, i)] }
    | _, _ => s
  | .finish worker input =>
    match s.hand worker with
    | none => s
    | some i => advance waits process i input { s with hand := update s.hand worker none }

/-! ## The invariant -/

/-- The task is in the queue of the worker, or the worker has it. -/
def State.Holds (s : State κ τ ι) (worker : κ) (i : ℕ) : Prop := i ∈ s.queue worker ∨ s.hand worker = some i

/-- What does not depend on the places of tasks. -/
structure Sound (s : State κ τ ι) : Prop where
  length : s.tasks.length = s.starts.length
  known : ∀ i, s.tasks.length ≤ i → s.inputsOf i = []
  runs : ∀ i, s.tasks[i]? = s.starts[i]?.map fun start ↦ run process start (s.inputsOf i)
  nodup : ∀ worker, (s.queue worker).Nodup
  apart : ∀ worker i, s.hand worker = some i → i ∉ s.queue worker
  fifo : ∀ worker, of worker s.queued = of worker s.taken ++ s.queue worker

/-- A task is with the worker it waits for, and nowhere else. -/
structure Invariant (s : State κ τ ι) : Prop extends Sound process s where
  placed : ∀ i worker, s.Holds worker i ↔ (s.tasks[i]?).bind waits = some worker

/-- One task is nowhere. -/
structure Loose (s : State κ τ ι) (i : ℕ) : Prop extends Sound process s where
  placed : ∀ other, other ≠ i → ∀ worker, s.Holds worker other ↔ (s.tasks[other]?).bind waits = some worker
  nowhere : ∀ worker, ¬s.Holds worker i

section Steps

variable {waits process} {s : State κ τ ι} {i : ℕ}

theorem of_append (worker : κ) (first second : List (κ × ℕ)) :
    of worker (first ++ second) = of worker first ++ of worker second := by
  rw [of, List.filter_append, List.map_append, of, of]

theorem of_singleton (worker other : κ) (i : ℕ) :
    of worker [(other, i)] = if other = worker then [i] else [] := by
  by_cases hsame : other = worker
  · simp [of, hsame]
  · simp [of, hsame]

theorem Invariant.nowhere (h : Invariant waits process s) (hfree : (s.tasks[i]?).bind waits = none) :
    Loose waits process s i := by
  refine ⟨h.toSound, fun other _ worker ↦ h.placed other worker, fun worker hholds ↦ ?_⟩
  rw [(h.placed i worker).mp hholds] at hfree
  cases hfree

/-- No task is with two workers. -/
theorem Invariant.single {worker other : κ} (h : Invariant waits process s) (hfirst : s.Holds worker i)
    (hsecond : s.Holds other i) : worker = other :=
  Option.some.inj (((h.placed i worker).mp hfirst).symm.trans ((h.placed i other).mp hsecond))

theorem Loose.single {worker other : κ} {j : ℕ} (h : Loose waits process s i) (hfirst : s.Holds worker j)
    (hsecond : s.Holds other j) : worker = other := by
  have hne : j ≠ i := by
    rintro rfl
    exact h.nowhere worker hfirst
  exact Option.some.inj (((h.placed j hne worker).mp hfirst).symm.trans ((h.placed j hne other).mp hsecond))

/-- The task is put where it belongs. -/
theorem Loose.enqueue (h : Loose waits process s i) :
    Invariant waits process (Workers.enqueue i s ((s.tasks[i]?).bind waits)) := by
  cases hwaits : (s.tasks[i]?).bind waits with
  | none =>
    refine ⟨h.toSound, fun other worker ↦ ?_⟩
    by_cases hother : other = i
    · rw [hother]
      constructor
      · exact fun hholds ↦ absurd hholds (h.nowhere worker)
      · intro hsome
        have hnone : (s.tasks[i]?).bind waits = none := hwaits
        rw [show (s.tasks[i]?).bind waits = some worker from hsome] at hnone
        cases hnone
    · exact h.placed other hother worker
  | some target =>
    have hnot : i ∉ s.queue target := fun hmem ↦ h.nowhere target (Or.inl hmem)
    refine ⟨⟨h.length, h.known, h.runs, fun worker ↦ ?_, fun worker other hhand ↦ ?_, fun worker ↦ ?_⟩,
      fun other worker ↦ ?_⟩
    · change (update s.queue target (s.queue target ++ [i]) worker).Nodup
      rw [update_apply]
      split
      · rw [← List.concat_eq_append]
        exact (h.nodup target).concat hnot
      · exact h.nodup worker
    · change other ∉ update s.queue target (s.queue target ++ [i]) worker
      rw [update_apply]
      by_cases hworker : worker = target
      · rw [if_pos hworker, List.mem_append, List.mem_singleton, ← hworker]
        rintro (hmem | rfl)
        · exact h.apart worker other hhand hmem
        · exact h.nowhere worker (Or.inr hhand)
      · rw [if_neg hworker]
        exact h.apart worker other hhand
    · change of worker (s.queued ++ [(target, i)]) =
        of worker s.taken ++ update s.queue target (s.queue target ++ [i]) worker
      rw [of_append, of_singleton, h.fifo, update_apply, List.append_assoc]
      by_cases hworker : worker = target
      · rw [if_pos hworker, if_pos hworker.symm, hworker]
      · rw [if_neg hworker, if_neg (Ne.symm hworker), List.append_nil]
    · change other ∈ update s.queue target (s.queue target ++ [i]) worker ∨ s.hand worker = some other ↔
        (s.tasks[other]?).bind waits = some worker
      rw [update_apply]
      by_cases hother : other = i
      · rw [hother, hwaits, Option.some.injEq]
        by_cases hworker : worker = target
        · rw [if_pos hworker]
          exact ⟨fun _ ↦ hworker.symm, fun _ ↦ Or.inl (List.mem_append_right _ (List.mem_singleton_self i))⟩
        · rw [if_neg hworker]
          exact ⟨fun hholds ↦ absurd hholds (h.nowhere worker), fun heq ↦ absurd heq.symm hworker⟩
      · refine Iff.trans ?_ (h.placed other hother worker)
        by_cases hworker : worker = target
        · rw [if_pos hworker, List.mem_append, List.mem_singleton, or_iff_left hother, hworker]
          rfl
        · rw [if_neg hworker]
          rfl

/-- A task that is nowhere goes on. -/
theorem Loose.advance (h : Loose waits process s i) (hi : i < s.tasks.length) (input : ι) :
    Invariant waits process (Workers.advance waits process i input s) := by
  obtain ⟨task, htask⟩ : ∃ task, s.tasks[i]? = some task := ⟨s.tasks[i], List.getElem?_eq_getElem hi⟩
  have hnext : (s.tasks.set i (process task input))[i]? = some (process task input) :=
    List.getElem?_set_self hi
  have hother (other : ℕ) (hne : other ≠ i) : (s.tasks.set i (process task input))[other]? =
    s.tasks[other]? :=
    List.getElem?_set_ne (Ne.symm hne)
  have hloose : Loose waits process { s with
      tasks := s.tasks.set i (process task input)
      inputs := s.inputs ++ [(i, input)] } i := by
    refine ⟨⟨?_, ?_, ?_, h.nodup, h.apart, h.fifo⟩, ?_, h.nowhere⟩
    · rw [List.length_set]
      exact h.length
    · intro other hother'
      rw [List.length_set] at hother'
      rw [inputsOf_append s i other input rfl _ rfl, h.known other hother', if_neg]
      · rfl
      · rintro rfl
        exact Nat.not_le.mpr hi hother'
    · intro other
      rw [inputsOf_append s i other input rfl _ rfl]
      dsimp only
      by_cases hsame : other = i
      · have hbefore := h.runs i
        rw [htask] at hbefore
        rw [hsame, hnext, if_pos rfl]
        cases hstart : s.starts[i]? with
        | none =>
          rw [hstart] at hbefore
          cases hbefore
        | some start =>
          rw [hstart, Option.map_some, Option.some.injEq] at hbefore
          rw [Option.map_some, run_append, ← hbefore]
          rfl
      · rw [hother other hsame, if_neg (Ne.symm hsame), List.append_nil]
        exact h.runs other
    · intro other hne worker
      dsimp only
      rw [hother other hne]
      exact h.placed other hne worker
  have hwaits : waits (process task input) = ((s.tasks.set i (process task input))[i]?).bind waits := by
    rw [hnext]
    rfl
  rw [Workers.advance, htask]
  dsimp only
  rw [hwaits]
  exact hloose.enqueue

/-- The first task of the queue is in the worker's hands. -/
theorem Invariant.take {worker : κ} {rest : List ℕ} (h : Invariant waits process s)
    (hhand : s.hand worker = none)
    (hqueue : s.queue worker = i :: rest) : Invariant waits process { s with
      queue := update s.queue worker rest
      hand := update s.hand worker (some i)
      taken := s.taken ++ [(worker, i)] } := by
  have hnodup := h.nodup worker
  have hfifo := h.fifo worker
  rw [hqueue] at hnodup hfifo
  obtain ⟨hnot, hrest⟩ := List.nodup_cons.mp hnodup
  refine ⟨⟨h.length, h.known, h.runs, fun other ↦ ?_, fun other j hj ↦ ?_, fun other ↦ ?_⟩,
    fun j other ↦ ?_⟩
  · dsimp only
    rw [update_apply]
    split
    · exact hrest
    · exact h.nodup other
  · dsimp only at hj ⊢
    rw [update_apply] at hj ⊢
    by_cases hsame : other = worker
    · rw [if_pos hsame] at hj ⊢
      rw [← Option.some.inj hj]
      exact hnot
    · rw [if_neg hsame] at hj ⊢
      exact h.apart other j hj
  · dsimp only
    rw [of_append, of_singleton, update_apply]
    by_cases hsame : other = worker
    · rw [if_pos hsame, if_pos hsame.symm, hsame, hfifo, List.append_assoc]
      rfl
    · rw [if_neg hsame, if_neg (Ne.symm hsame), List.append_nil]
      exact h.fifo other
  · refine Iff.trans ?_ (h.placed j other)
    change j ∈ update s.queue worker rest other ∨ update s.hand worker (some i) other = some j ↔
      j ∈ s.queue other ∨ s.hand other = some j
    rw [update_apply, update_apply]
    by_cases hsame : other = worker
    · rw [if_pos hsame, if_pos hsame, hsame, hqueue, hhand, List.mem_cons, Option.some.injEq, or_comm,
        or_iff_left (Option.some_ne_none j).symm, eq_comm]
    · rw [if_neg hsame, if_neg hsame]

/-- A worker has put down its task. -/
theorem Invariant.putDown {worker : κ} (h : Invariant waits process s) (hhand : s.hand worker = some i) :
    Loose waits process { s with hand := update s.hand worker none } i := by
  have hplace := (h.placed i worker).mp (Or.inr hhand)
  refine ⟨⟨h.length, h.known, h.runs, h.nodup, fun other j hj ↦ ?_, h.fifo⟩, fun j hj other ↦ ?_, ?_⟩
  · dsimp only at hj
    rw [update_apply] at hj
    split at hj
    · cases hj
    · exact h.apart other j hj
  · refine Iff.trans ?_ (h.placed j other)
    change j ∈ s.queue other ∨ update s.hand worker none other = some j ↔
      j ∈ s.queue other ∨ s.hand other = some j
    rw [update_apply]
    by_cases hsame : other = worker
    · rw [if_pos hsame, hsame, hhand, Option.some.injEq, or_iff_left (Option.some_ne_none j).symm,
        or_iff_left (Ne.symm hj)]
    · rw [if_neg hsame]
  · intro other hholds
    have hsame : other = worker := by
      have hholds' : s.Holds other i := by
        rcases hholds with hmem | hheld
        · exact Or.inl hmem
        · right
          dsimp only at hheld
          rw [update_apply] at hheld
          split at hheld
          · cases hheld
          · exact hheld
      exact Option.some.inj (((h.placed i other).mp hholds').symm.trans hplace)
    rcases hholds with hmem | hheld
    · exact h.apart worker i hhand (hsame ▸ hmem)
    · dsimp only at hheld
      rw [hsame, update_self] at hheld
      cases hheld

/-- Whatever happens, every task stays with the worker it waits for. -/
theorem invariant_step (h : Invariant waits process s) (action : Action κ τ ι) :
    Invariant waits process (step waits process s action) := by
  cases action with
  | submit task =>
    have hnone : s.tasks[s.tasks.length]? = none := List.getElem?_eq_none (Nat.le_refl _)
    have hlast : (s.tasks ++ [task])[s.tasks.length]? = some task := List.getElem?_concat_length
    have hother {items : List τ} {item : τ} {other : ℕ} (hne : other ≠ items.length) :
        (items ++ [item])[other]? = items[other]? := by
      rcases Nat.lt_or_gt_of_ne hne with hless | hgreater
      · exact List.getElem?_append_left hless
      · rw [List.getElem?_eq_none (Nat.le_of_lt hgreater), List.getElem?_eq_none]
        rw [List.length_append]
        exact hgreater
    have hfree : (s.tasks[s.tasks.length]?).bind waits = none := by
      rw [hnone]
      rfl
    have hloose : Loose waits process { s with starts := s.starts ++ [task], tasks := s.tasks ++ [task] }
        s.tasks.length := by
      refine ⟨⟨?_, ?_, ?_, h.nodup, h.apart, h.fifo⟩, ?_, (h.nowhere hfree).nowhere⟩
      · rw [List.length_append, List.length_append, h.length]
      · intro i hi
        rw [List.length_append] at hi
        exact h.known i (Nat.le_of_succ_le hi)
      · intro i
        change (s.tasks ++ [task])[i]? =
          (s.starts ++ [task])[i]?.map fun start ↦ run process start (s.inputsOf i)
        by_cases hsame : i = s.tasks.length
        · rw [hsame, hlast, h.length, List.getElem?_concat_length, ← h.length, h.known _ (Nat.le_refl _)]
          rfl
        · rw [hother hsame, hother (h.length ▸ hsame)]
          exact h.runs i
      · intro i hne worker
        dsimp only
        rw [hother hne]
        exact h.placed i worker
    have hwaits : waits task = ((s.tasks ++ [task])[s.tasks.length]?).bind waits := by
      rw [hlast]
      rfl
    rw [step, hwaits]
    exact hloose.enqueue
  | resume i input =>
    rw [step]
    by_cases hfree : (s.tasks[i]?).bind waits = none
    · rw [if_pos hfree]
      by_cases hi : i < s.tasks.length
      · exact (h.nowhere hfree).advance hi input
      · rw [advance, List.getElem?_eq_none (Nat.le_of_not_lt hi)]
        exact h
    · rw [if_neg hfree]
      exact h
  | take worker =>
    rw [step]
    cases hhand : s.hand worker with
    | some i => exact h
    | none =>
      cases hqueue : s.queue worker with
      | nil => exact h
      | cons i rest => exact h.take hhand hqueue
  | finish worker input =>
    rw [step]
    cases hhand : s.hand worker with
    | none => exact h
    | some i =>
      have hplace := (h.placed i worker).mp (Or.inr hhand)
      have hi : i < s.tasks.length := by
        by_contra hnot
        rw [List.getElem?_eq_none (Nat.le_of_not_lt hnot)] at hplace
        cases hplace
      exact (h.putDown hhand).advance hi input

theorem invariant_empty : Invariant waits process (State.empty : State κ τ ι) := by
  refine ⟨⟨rfl, fun i _ ↦ rfl, fun i ↦ rfl, fun worker ↦ List.nodup_nil, ?_, fun worker ↦ rfl⟩, ?_⟩
  · rintro worker i ⟨⟩
  · intro i worker
    constructor
    · rintro (⟨⟨⟩⟩ | ⟨⟨⟩⟩)
    · rintro ⟨⟩

/-- All runs of the workers. -/
theorem invariant_run (waits : τ → Option κ) (process : τ → ι → τ) (actions : List (Action κ τ ι)) :
    Invariant waits process (run (step waits process) State.empty actions) :=
  run_invariant (step waits process) (Invariant waits process)
    (fun _ action h ↦ invariant_step h action) actions
    invariant_empty

theorem enqueue_starts (worker : Option κ) : (enqueue i s worker).starts = s.starts := by
  cases worker with
  | none => rfl
  | some worker => rfl

theorem enqueue_inputs (worker : Option κ) : (enqueue i s worker).inputs = s.inputs := by
  cases worker with
  | none => rfl
  | some worker => rfl

/-- The tasks that have been submitted are those of the actions. -/
def Action.submitted : Action κ τ ι → Option τ
  | .submit task => some task
  | _ => none

theorem advance_starts (waits : τ → Option κ) (process : τ → ι → τ) (s : State κ τ ι) (i : ℕ) (input : ι) :
    (advance waits process i input s).starts = s.starts := by
  rw [advance]
  cases s.tasks[i]? with
  | none => rfl
  | some task => exact enqueue_starts _

theorem step_starts (waits : τ → Option κ) (process : τ → ι → τ) (s : State κ τ ι) (action : Action κ τ ι) :
    (step waits process s action).starts = s.starts ++ action.submitted.toList := by
  cases action with
  | submit task =>
    rw [step, enqueue_starts]
    rfl
  | resume i input =>
    rw [step]
    split
    · rw [advance_starts]
      exact (List.append_nil _).symm
    · exact (List.append_nil _).symm
  | take worker =>
    rw [step]
    split
    · exact (List.append_nil _).symm
    · exact (List.append_nil _).symm
  | finish worker input =>
    rw [step]
    cases s.hand worker with
    | none => exact (List.append_nil _).symm
    | some i =>
      dsimp only
      rw [advance_starts]
      exact (List.append_nil _).symm

theorem starts_run (waits : τ → Option κ) (process : τ → ι → τ) (actions : List (Action κ τ ι)) :
    (run (step waits process) State.empty actions).starts = actions.filterMap Action.submitted := by
  induction actions using List.reverseRecOn with
  | nil => rfl
  | append_singleton actions action ih =>
    rw [run_append, List.filterMap_append, ← ih]
    have hlast : [action].filterMap Action.submitted = action.submitted.toList := by
      rw [List.filterMap_cons]
      cases action.submitted with
      | none => rfl
      | some task => rfl
    rw [hlast]
    exact step_starts waits process _ action

/-! ## What a task is told -/

/-- A worker goes on with a task that waits for it, and others with one that does not wait. -/
def Action.Meets (waits : τ → Option κ) (guard : τ → ι → Prop) : Action κ τ ι → Prop
  | .resume _ input => ∀ task, waits task = none → guard task input
  | .finish worker input => ∀ task, waits task = some worker → guard task input
  | _ => True

/-- Each task is told what it may be told. -/
def Told (process : τ → ι → τ) (guard : τ → ι → Prop) (s : State κ τ ι) : Prop :=
  ∀ i start, s.starts[i]? = some start → Guarded process guard start (s.inputsOf i)

theorem advance_told {guard : τ → ι → Prop} (hruns : Sound process s) (h : Told process guard s)
    {input : ι} (hguard : ∀ task, s.tasks[i]? = some task → guard task input) :
    Told process guard (advance waits process i input s) := by
  intro j start hstart
  rw [advance_starts] at hstart
  have hbefore := h j start hstart
  rw [advance]
  cases htask : s.tasks[i]? with
  | none => exact hbefore
  | some task =>
    dsimp only
    rw [inputsOf_append s i j input rfl _ (enqueue_inputs _)]
    by_cases hsame : i = j
    · have hrun := hruns.runs j
      rw [hstart, ← hsame, htask, Option.map_some, Option.some.injEq] at hrun
      rw [if_pos hsame, guarded_append, ← hsame, ← hrun]
      exact ⟨hsame ▸ hbefore, hguard task htask, trivial⟩
    · rw [if_neg hsame, List.append_nil]
      exact hbefore

theorem step_told {guard : τ → ι → Prop} (hinv : Invariant waits process s) (h : Told process guard s)
    {action : Action κ τ ι} (hmeets : action.Meets waits guard) :
    Told process guard (step waits process s action) := by
  cases action with
  | submit task =>
    intro i start hstart
    rw [step, enqueue_starts] at hstart
    have hinputs : (step waits process s (.submit task)).inputsOf i = s.inputsOf i := by
      rw [State.inputsOf, step, enqueue_inputs, State.inputsOf]
    rw [hinputs]
    by_cases hold : i < s.starts.length
    · dsimp only at hstart
      rw [List.getElem?_append_left hold] at hstart
      exact h i start hstart
    · rw [hinv.known i (by rw [hinv.length]; exact Nat.le_of_not_lt hold)]
      trivial
  | resume i input =>
    rw [step]
    by_cases hfree : (s.tasks[i]?).bind waits = none
    · rw [if_pos hfree]
      refine advance_told hinv.toSound h fun task htask ↦ hmeets task ?_
      rwa [htask, Option.bind_some] at hfree
    · rw [if_neg hfree]
      exact h
  | take worker =>
    rw [step]
    split
    · exact h
    · exact h
  | finish worker input =>
    rw [step]
    cases hhand : s.hand worker with
    | none => exact h
    | some i =>
      have hplace := (hinv.placed i worker).mp (Or.inr hhand)
      refine advance_told (hinv.putDown hhand).toSound h fun task htask ↦ hmeets task ?_
      rwa [show s.tasks[i]? = some task from htask, Option.bind_some] at hplace

theorem told_run {guard : τ → ι → Prop} {actions : List (Action κ τ ι)}
    (hmeets : ∀ action ∈ actions, action.Meets waits guard) :
    Told process guard (run (step waits process) State.empty actions) := by
  induction actions using List.reverseRecOn with
  | nil =>
    rintro i start ⟨⟩
  | append_singleton actions action ih =>
    have hbefore := ih fun found hfound ↦ hmeets found (List.mem_append_left _ hfound)
    rw [run_append]
    exact step_told (invariant_run waits process actions) hbefore
      (hmeets action (List.mem_append_right _ (List.mem_singleton_self action)))

end Steps

end Icecast.Lib.Workers
