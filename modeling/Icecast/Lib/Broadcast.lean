import Mathlib.Data.List.Basic
import Mathlib.Data.List.Forall2
import Mathlib.Data.List.Infix

/-!
# Broadcasting

A log grows at its end and is forgotten from its front. A listener begins at an item that is fit for it and
is given one item after the other; what it has not been given yet is not forgotten. A program that keeps only
the window of the log may be compared with this machine.
-/

namespace Icecast.Lib.Broadcast

variable {α : Type*}

/-- Where a listener has begun, and where it is. -/
structure Place where
  start : ℕ
  position : ℕ
  deriving DecidableEq

/-- The items before `first` have been forgotten. -/
structure State (α : Type*) where
  log : List α
  first : ℕ
  places : List (Option Place)

def State.empty : State α := ⟨[], 0, []⟩

inductive Action (α : Type*) where
  | publish (item : α)
  | forget
  | join
  | enter (i start : ℕ)
  | advance (i : ℕ)
  | quit (i : ℕ)
  | leave (i : ℕ)

def Action.item : Action α → Option α
  | .publish item => some item
  | _ => none

section Steps

variable (fit : α → Bool)

/-- No listener is given up, none begins where it may not, and none goes on where there is nothing. -/
def step (s : State α) : Action α → Option (State α)
  | .publish item => some { s with log := s.log ++ [item] }
  | .forget =>
    if s.first < s.log.length ∧ ∀ place ∈ s.places, place.map Place.position ≠ some s.first then
      some { s with first := s.first + 1 }
    else none
  | .join => some { s with places := s.places ++ [none] }
  | .enter i start =>
    if s.places[i]? = some none ∧ s.first ≤ start ∧ s.log[start]?.any fit then
      some { s with places := s.places.set i (some ⟨start, start⟩) }
    else none
  | .advance i =>
    match s.places[i]? with
    | some (some place) =>
      if place.position + 1 < s.log.length then
        some { s with places := s.places.set i (some { place with position := place.position + 1 }) }
      else none
    | _ => none
  | .quit i => some { s with places := s.places.set i none }
  | .leave i => some { s with places := s.places.eraseIdx i }

def run (s : State α) (actions : List (Action α)) : Option (State α) := actions.foldlM (step fit) s

/-- What a listener has been given since it has begun. -/
def given (log : List α) : Option Place → List α
  | none => []
  | some place => (log.drop place.start).take (place.position + 1 - place.start)

structure Sound (s : State α) : Prop where
  first : s.first ≤ s.log.length
  order : ∀ place, some place ∈ s.places → place.start ≤ place.position ∧ s.first ≤ place.position ∧
    place.position < s.log.length
  fits : ∀ place, some place ∈ s.places → s.log[place.start]?.any fit

end Steps

variable {fit : α → Bool} {s s' : State α}

theorem run_cons {action : Action α} {actions : List (Action α)} (h : step fit s action = some s') :
    run fit s (action :: actions) = run fit s' actions := by
  rw [run, List.foldlM_cons, h]
  rfl

theorem run_append {actions more : List (Action α)} (h : run fit s actions = some s') :
    run fit s (actions ++ more) = run fit s' more := by
  rw [run] at h
  rw [run, List.foldlM_append, h]
  rfl

theorem run_singleton (action : Action α) : run fit s [action] = step fit s action := by
  rw [run, List.foldlM_cons]
  cases step fit s action <;> rfl

/-! ## What listeners are given -/

/-- What has been given stays what it was when the log grows. -/
theorem given_publish {log : List α} (item : α) {place : Option Place}
    (horder : ∀ found, place = some found → found.start ≤ found.position ∧ found.position < log.length) :
    given (log ++ [item]) place = given log place := by
  cases place with
  | none => rfl
  | some place =>
    obtain ⟨hstart, hposition⟩ := horder place rfl
    rw [given, given, List.drop_append_of_le_length (by omega), List.take_append_of_le_length]
    rw [List.length_drop]
    omega

theorem given_enter {log : List α} {start : ℕ} {item : α} (hitem : log[start]? = some item) :
    given log (some ⟨start, start⟩) = [item] := by
  obtain ⟨hlt, rfl⟩ := List.getElem?_eq_some_iff.mp hitem
  rw [given, List.drop_eq_getElem_cons hlt, Nat.add_sub_cancel_left]
  rfl

/-- The next item comes behind the others. -/
theorem given_advance {log : List α} {place : Place} (horder : place.start ≤ place.position) {item : α}
    (hitem : log[place.position + 1]? = some item) :
    given log (some { place with position := place.position + 1 }) = given log (some place) ++ [item] := by
  obtain ⟨hlt, rfl⟩ := List.getElem?_eq_some_iff.mp hitem
  have hcount : place.position + 1 + 1 - place.start = place.position + 1 - place.start + 1 := by omega
  have hlength : place.position + 1 - place.start < (log.drop place.start).length := by
    rw [List.length_drop]
    omega
  have hindex : place.start + (place.position + 1 - place.start) = place.position + 1 := by omega
  rw [given, given, hcount, List.take_add_one, List.getElem?_eq_getElem hlength, List.getElem_drop]
  simp only [hindex, Option.toList_some]

/-- Nothing is left out between the first item a listener has been given and the last one. -/
theorem Sound.log_eq (h : Sound fit s) {place : Place} (hplace : some place ∈ s.places) :
    s.log = s.log.take place.start ++ given s.log (some place) ++ s.log.drop (place.position + 1) := by
  obtain ⟨hstart, -⟩ := h.order place hplace
  have hdrop : s.log.drop (place.position + 1) =
      (s.log.drop place.start).drop (place.position + 1 - place.start) := by
    rw [List.drop_drop]
    congr 1
    omega
  rw [given, hdrop, List.append_assoc, List.take_append_drop, List.take_append_drop]

/-- The first item a listener has been given is fit for that. -/
theorem Sound.given_head (h : Sound fit s) {place : Place} (hplace : some place ∈ s.places) :
    ∃ item rest, given s.log (some place) = item :: rest ∧ fit item := by
  obtain ⟨hstart, -⟩ := h.order place hplace
  obtain ⟨item, hitem, hfit⟩ := (Option.any_eq_true _ _).mp (h.fits place hplace)
  obtain ⟨hlt, rfl⟩ := List.getElem?_eq_some_iff.mp hitem
  obtain ⟨count, hcount⟩ : ∃ count, place.position + 1 - place.start = count + 1 :=
    ⟨place.position - place.start, by omega⟩
  refine ⟨s.log[place.start], (s.log.drop (place.start + 1)).take count, ?_, hfit⟩
  rw [given, List.drop_eq_getElem_cons hlt, hcount, List.take_succ_cons]

/-- The last item a listener has been given is the one it is at. -/
theorem Sound.given_getLast? (h : Sound fit s) {place : Place} (hplace : some place ∈ s.places) :
    (given s.log (some place)).getLast? = s.log[place.position]? := by
  obtain ⟨hstart, -, hposition⟩ := h.order place hplace
  have hlength : (given s.log (some place)).length = place.position + 1 - place.start := by
    rw [given, List.length_take, List.length_drop]
    omega
  have hindex : place.start + (place.position + 1 - place.start - 1) = place.position := by omega
  rw [List.getLast?_eq_getElem?, hlength, given, List.getElem?_take_of_lt (by omega), List.getElem?_drop,
    hindex]

/-! ## Runs -/

theorem sound_empty : Sound fit (State.empty : State α) := by
  refine ⟨Nat.le_refl 0, ?_, ?_⟩
  · rintro place ⟨⟩
  · rintro place ⟨⟩

theorem getElem?_append_any {log : List α} {start : ℕ} (h : log[start]?.any fit) (item : α) :
    (log ++ [item])[start]?.any fit := by
  obtain ⟨found, hfound, -⟩ := (Option.any_eq_true _ _).mp h
  rwa [List.getElem?_append_left (List.getElem?_eq_some_iff.mp hfound).1]

theorem Sound.set (h : Sound fit s) (i : ℕ) {place : Option Place}
    (horder : ∀ found, place = some found → found.start ≤ found.position ∧ s.first ≤ found.position ∧
      found.position < s.log.length) (hfits : ∀ found, place = some found → s.log[found.start]?.any fit) :
    Sound fit { s with places := s.places.set i place } := by
  refine ⟨h.first, fun found hfound ↦ ?_, fun found hfound ↦ ?_⟩
  · rcases List.mem_or_eq_of_mem_set hfound with hold | hnew
    · exact h.order found hold
    · exact horder found hnew.symm
  · rcases List.mem_or_eq_of_mem_set hfound with hold | hnew
    · exact h.fits found hold
    · exact hfits found hnew.symm

theorem Sound.step {action : Action α} (h : Sound fit s) (hstep : step fit s action = some s') :
    Sound fit s' := by
  cases action with
  | publish item =>
    rw [← Option.some.inj hstep]
    refine ⟨?_, fun place hplace ↦ ?_, fun place hplace ↦ getElem?_append_any (h.fits place hplace) item⟩
    · rw [List.length_append]
      exact Nat.le_add_right_of_le h.first
    · obtain ⟨hstart, hfirst, hposition⟩ := h.order place hplace
      refine ⟨hstart, hfirst, ?_⟩
      rw [List.length_append]
      exact Nat.lt_add_right _ hposition
  | forget =>
    rw [Broadcast.step] at hstep
    split at hstep
    · rename_i hguard
      rw [← Option.some.inj hstep]
      refine ⟨hguard.1, fun place hplace ↦ ?_, h.fits⟩
      obtain ⟨hstart, hfirst, hposition⟩ := h.order place hplace
      have hne : place.position ≠ s.first := fun heq ↦ hguard.2 _ hplace (congrArg some heq)
      exact ⟨hstart, Nat.lt_of_le_of_ne hfirst (Ne.symm hne), hposition⟩
    · cases hstep
  | join =>
    rw [← Option.some.inj hstep]
    have hmem {place : Place} (hplace : some place ∈ s.places ++ [none]) : some place ∈ s.places := by
      simpa using hplace
    exact ⟨h.first, fun place hplace ↦ h.order place (hmem hplace),
      fun place hplace ↦ h.fits place (hmem hplace)⟩
  | enter i start =>
    rw [Broadcast.step] at hstep
    split at hstep
    · rename_i hguard
      obtain ⟨-, hfirst, hfit⟩ := hguard
      rw [← Option.some.inj hstep]
      apply h.set i
      · rintro found ⟨⟩
        obtain ⟨item, hitem, -⟩ := (Option.any_eq_true _ _).mp hfit
        exact ⟨Nat.le_refl _, hfirst, (List.getElem?_eq_some_iff.mp hitem).1⟩
      · rintro found ⟨⟩
        exact hfit
    · cases hstep
  | advance i =>
    rw [Broadcast.step] at hstep
    split at hstep
    · rename_i place hplace
      have hmem := List.mem_of_getElem? hplace
      split at hstep
      · rename_i hguard
        rw [← Option.some.inj hstep]
        apply h.set i
        · rintro found ⟨⟩
          obtain ⟨hstart, hfirst, -⟩ := h.order place hmem
          exact ⟨Nat.le_succ_of_le hstart, Nat.le_succ_of_le hfirst, hguard⟩
        · rintro found ⟨⟩
          exact h.fits place hmem
      · cases hstep
    · cases hstep
  | quit i =>
    rw [← Option.some.inj hstep]
    apply h.set i
    · rintro found ⟨⟩
    · rintro found ⟨⟩
  | leave i =>
    rw [← Option.some.inj hstep]
    exact ⟨h.first, fun place hplace ↦ h.order place (List.mem_of_mem_eraseIdx hplace),
      fun place hplace ↦ h.fits place (List.mem_of_mem_eraseIdx hplace)⟩

theorem Sound.run {actions : List (Action α)} (h : Sound fit s) (hrun : run fit s actions = some s') :
    Sound fit s' := by
  induction actions generalizing s with
  | nil => rwa [← Option.some.inj hrun]
  | cons action actions ih =>
    rw [Broadcast.run, List.foldlM_cons] at hrun
    obtain ⟨middle, hmiddle, hrest⟩ := Option.bind_eq_some_iff.mp hrun
    exact ih (h.step hmiddle) hrest

/-- The log is what has been published. -/
theorem step_log {action : Action α} (hstep : step fit s action = some s') :
    s'.log = s.log ++ action.item.toList := by
  cases action with
  | publish item =>
    rw [← Option.some.inj hstep]
    rfl
  | forget =>
    rw [step] at hstep
    split at hstep
    · rw [← Option.some.inj hstep]
      exact (List.append_nil _).symm
    · cases hstep
  | enter i start =>
    rw [step] at hstep
    split at hstep
    · rw [← Option.some.inj hstep]
      exact (List.append_nil _).symm
    · cases hstep
  | advance i =>
    rw [step] at hstep
    split at hstep
    · split at hstep
      · rw [← Option.some.inj hstep]
        exact (List.append_nil _).symm
      · cases hstep
    · cases hstep
  | join =>
    rw [← Option.some.inj hstep]
    exact (List.append_nil _).symm
  | quit i =>
    rw [← Option.some.inj hstep]
    exact (List.append_nil _).symm
  | leave i =>
    rw [← Option.some.inj hstep]
    exact (List.append_nil _).symm

theorem run_log {actions : List (Action α)} (hrun : run fit s actions = some s') :
    s'.log = s.log ++ actions.filterMap Action.item := by
  induction actions generalizing s with
  | nil =>
    rw [← Option.some.inj hrun]
    exact (List.append_nil _).symm
  | cons action actions ih =>
    rw [run, List.foldlM_cons] at hrun
    obtain ⟨middle, hmiddle, hrest⟩ := Option.bind_eq_some_iff.mp hrun
    rw [ih hrest, step_log hmiddle, List.append_assoc, List.filterMap_cons]
    cases action.item <;> rfl

/-- A window is forgotten item by item. -/
theorem run_forget {count : ℕ} (hfirst : s.first + count ≤ s.log.length)
    (hplaces : ∀ place, some place ∈ s.places → s.first + count ≤ place.position) :
    run fit s (List.replicate count .forget) = some { s with first := s.first + count } := by
  induction count generalizing s with
  | zero => rfl
  | succ count ih =>
    have hguard : s.first < s.log.length ∧ ∀ place ∈ s.places, place.map Place.position ≠ some s.first := by
      refine ⟨by omega, fun place hplace heq ↦ ?_⟩
      obtain ⟨found, rfl, hposition⟩ := Option.map_eq_some_iff.mp heq
      have hle := hplaces found hplace
      omega
    have hstep : step fit s .forget = some { s with first := s.first + 1 } := by
      rw [step, if_pos hguard]
    rw [List.replicate_succ, run_cons hstep, ih]
    · dsimp only
      rw [Nat.add_assoc, Nat.add_comm 1 count]
    · dsimp only
      omega
    · intro place hplace
      have hle := hplaces place hplace
      dsimp only
      omega

/-! ## Pairs of lists -/

section Pairs

variable {β γ : Type*} {R : β → γ → Prop} {l : List β} {l' : List γ}

theorem forall₂_set (h : List.Forall₂ R l l') (i : ℕ) {b : β} {c : γ} (hpair : R b c) :
    List.Forall₂ R (l.set i b) (l'.set i c) := by
  induction h generalizing i with
  | nil => exact List.Forall₂.nil
  | cons hhead htail ih =>
    cases i with
    | zero => exact List.Forall₂.cons hpair htail
    | succ i => exact List.Forall₂.cons hhead (ih i)

theorem forall₂_eraseIdx (h : List.Forall₂ R l l') (i : ℕ) :
    List.Forall₂ R (l.eraseIdx i) (l'.eraseIdx i) := by
  induction h generalizing i with
  | nil => exact List.Forall₂.nil
  | cons hhead htail ih =>
    cases i with
    | zero => exact htail
    | succ i => exact List.Forall₂.cons hhead (ih i)

theorem forall₂_concat (h : List.Forall₂ R l l') {b : β} {c : γ} (hpair : R b c) :
    List.Forall₂ R (l ++ [b]) (l' ++ [c]) := by
  induction h with
  | nil => exact List.Forall₂.cons hpair List.Forall₂.nil
  | cons hhead htail ih => exact List.Forall₂.cons hhead ih

theorem forall₂_getElem? (h : List.Forall₂ R l l') {i : ℕ} {b : β} (hb : l[i]? = some b) :
    ∃ c, l'[i]? = some c ∧ R b c := by
  induction h generalizing i with
  | nil => cases hb
  | cons hhead htail ih =>
    cases i with
    | zero =>
      rw [List.getElem?_cons_zero, Option.some.injEq] at hb
      exact ⟨_, rfl, hb ▸ hhead⟩
    | succ i => exact ih hb

end Pairs

end Icecast.Lib.Broadcast
