import Mathlib.Data.List.Basic

/-!
# Runs of event-driven machines

A component is a step function over an explicit state; its environment is a finite list of
events. A run may be restricted by a guard that looks at the state an event arrives in. The
one induction over runs is proved here, so that an invariant of a component needs only its
initial state and its steps.
-/

namespace Icecast.Lib.Machine

variable {σ ε : Type*} (step : σ → ε → σ)

/-- The state reached from `start` by a finite list of events. -/
def run (start : σ) (events : List ε) : σ := events.foldl step start

@[simp] theorem run_nil (start : σ) : run step start [] = start := rfl

@[simp] theorem run_cons (start : σ) (event : ε) (events : List ε) :
    run step start (event :: events) = run step (step start event) events := rfl

theorem run_append (start : σ) (first second : List ε) :
    run step start (first ++ second) = run step (run step start first) second :=
  List.foldl_append

/-- Every event of the run meets the guard in the state it arrives in. -/
def Guarded (guard : σ → ε → Prop) : σ → List ε → Prop
  | _, [] => True
  | state, event :: events => guard state event ∧ Guarded guard (step state event) events

instance Guarded.decidable (guard : σ → ε → Prop) [∀ state event, Decidable (guard state event)] :
    ∀ (state : σ) (events : List ε), Decidable (Guarded step guard state events)
  | _, [] => .isTrue trivial
  | state, event :: events =>
    have := Guarded.decidable guard (step state event) events
    inferInstanceAs (Decidable (guard state event ∧ _))

theorem guarded_append (guard : σ → ε → Prop) (start : σ) (first second : List ε) :
    Guarded step guard start (first ++ second) ↔
      Guarded step guard start first ∧ Guarded step guard (run step start first) second := by
  induction first generalizing start with
  | nil => exact (iff_of_eq (true_and _)).symm
  | cons event first ih =>
    calc
      Guarded step guard start (event :: first ++ second)
        ↔ guard start event ∧ Guarded step guard (step start event) first ∧
            Guarded step guard (run step (step start event) first) second :=
          and_congr_right fun _ ↦ ih (step start event)
      _ ↔ Guarded step guard start (event :: first) ∧
            Guarded step guard (run step start (event :: first)) second := and_assoc.symm

/-- The induction rule for guarded runs. -/
theorem run_invariant_of_guarded (Inv : σ → Prop) {guard : σ → ε → Prop}
    (hstep : ∀ state event, Inv state → guard state event → Inv (step state event))
    (events : List ε) {start : σ} (hstart : Inv start) (hguard : Guarded step guard start events) :
    Inv (run step start events) := by
  induction events generalizing start with
  | nil => exact hstart
  | cons event events ih => exact ih (hstep start event hstart hguard.1) hguard.2

/-- The induction rule for unrestricted runs. -/
theorem run_invariant (Inv : σ → Prop) (hstep : ∀ state event, Inv state → Inv (step state event))
    (events : List ε) {start : σ} (hstart : Inv start) : Inv (run step start events) := by
  induction events generalizing start with
  | nil => exact hstart
  | cons event events ih => exact ih (hstep start event hstart)

/-- Two guards that agree on an invariant, which each step that meets them preserves, restrict the runs in
the same way. -/
theorem guarded_congr (Inv : σ → Prop) {guard other : σ → ε → Prop}
    (hsame : ∀ state event, Inv state → (guard state event ↔ other state event))
    (hstep : ∀ state event, Inv state → other state event → Inv (step state event))
    (events : List ε) {start : σ} (hstart : Inv start) :
    Guarded step guard start events ↔ Guarded step other start events := by
  induction events generalizing start with
  | nil => exact Iff.rfl
  | cons event events ih =>
    calc
      Guarded step guard start (event :: events)
        ↔ other start event ∧ Guarded step guard (step start event) events :=
          and_congr_left' (hsame start event hstart)
      _ ↔ other start event ∧ Guarded step other (step start event) events :=
          and_congr_right fun hother ↦ ih (hstep start event hstart hother)

/-- A guard is exact for a property if the property fails as soon as an event does not meet it. -/
theorem forall_prefix_iff_guarded (Inv P : σ → Prop) {guard : σ → ε → Prop}
    (hstep : ∀ state event, Inv state → guard state event → Inv (step state event))
    (hholds : ∀ state, Inv state → P state)
    (hfails : ∀ state event, Inv state → ¬guard state event → ¬P (step state event))
    (events : List ε) {start : σ} (hstart : Inv start) :
    (∀ before, before <+: events → P (run step start before)) ↔
      Guarded step guard start events := by
  constructor
  · intro hall
    induction events generalizing start with
    | nil => trivial
    | cons event events ih =>
      have hguard : guard start event := by
        by_contra hnot
        exact hfails start event hstart hnot
          (hall [event] (List.prefix_append [event] events))
      refine ⟨hguard, ih (hstep start event hstart hguard) ?_⟩
      intro before hbefore
      exact hall (event :: before) (List.cons_prefix_cons.mpr ⟨rfl, hbefore⟩)
  · intro hguarded before hbefore
    obtain ⟨after, rfl⟩ := hbefore
    have hprefix : Guarded step guard start before := by
      clear hfails
      induction before generalizing start with
      | nil => trivial
      | cons event before ih =>
        exact ⟨hguarded.1, ih (hstep start event hstart hguarded.1) hguarded.2⟩
    exact hholds _ (run_invariant_of_guarded step Inv hstep before hstart hprefix)

end Icecast.Lib.Machine
