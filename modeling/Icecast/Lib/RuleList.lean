import Mathlib.Data.List.Basic

/-!
# Rules with a wildcard

A sequence of rules, each about one key or about every key, is meant to be read so that the last rule
about a key decides. A table of exceptions with a default keeps less: a rule about one key is put at
the end of the exceptions, a rule about every key becomes the default and drops the exceptions that
agree with it, and a key is looked up from the front. `lookup_eq_lastWriter_iff` says for which
sequences the two come to the same.
-/

namespace Icecast.Lib.RuleList

variable {κ π : Type*}

/-- The key `none` stands for every key. -/
structure Rule (κ π : Type*) where
  key : Option κ
  policy : π
  deriving DecidableEq

/-! ## Rules that are settled on a policy -/

/-- Every rule about the key that is against the policy has been dropped by a later wildcard, or
stands behind a rule about the key that is for the policy and has not been dropped. -/
def Settled (policy : π) (rules : List (Rule κ π)) (key : κ) : Prop :=
  ∀ before after other, rules = before ++ ⟨some key, other⟩ :: after → other ≠ policy →
    ⟨none, other⟩ ∈ after ∨
      ∃ front back, before = front ++ ⟨some key, policy⟩ :: back ∧ ⟨none, policy⟩ ∉ back ++ after

theorem settled_nil (policy : π) (key : κ) : Settled policy ([] : List (Rule κ π)) key := by
  intro before after other h
  simp at h

/-- A rule about something else in front makes no difference. -/
theorem settled_cons_of_ne {policy : π} {key : κ} {rule : Rule κ π} (h : rule.key ≠ some key)
    (rules : List (Rule κ π)) : Settled policy (rule :: rules) key ↔ Settled policy rules key := by
  constructor
  · intro hsettled before after other hrules hother
    refine (hsettled (rule :: before) after other (by rw [hrules]; rfl) hother).imp_right ?_
    rintro ⟨front, back, hbefore, hback⟩
    rcases List.cons_eq_append_iff.mp hbefore with ⟨rfl, hhead⟩ | ⟨front', rfl, hfront⟩
    · have heq : rule = ⟨some key, policy⟩ := (List.cons.inj hhead).1.symm
      exact absurd (congrArg Rule.key heq) h
    · exact ⟨front', back, hfront, hback⟩
  · intro hsettled before after other hrules hother
    rcases List.cons_eq_append_iff.mp hrules with ⟨rfl, hhead⟩ | ⟨before', rfl, htail⟩
    · have heq : rule = ⟨some key, other⟩ := (List.cons.inj hhead).1.symm
      exact absurd (congrArg Rule.key heq) h
    · refine (hsettled before' after other htail hother).imp_right ?_
      rintro ⟨front, back, rfl, hback⟩
      exact ⟨rule :: front, back, rfl, hback⟩

/-- A rule about the key that is dropped later makes no difference either. -/
theorem settled_cons_of_dropped {policy other : π} {key : κ} {rules : List (Rule κ π)}
    (h : ⟨none, other⟩ ∈ rules) :
    Settled policy (⟨some key, other⟩ :: rules) key ↔ Settled policy rules key := by
  constructor
  · intro hsettled before after third hrules hthird
    refine (hsettled (⟨some key, other⟩ :: before) after third (by rw [hrules]; rfl) hthird).imp_right ?_
    rintro ⟨front, back, hbefore, hback⟩
    rcases List.cons_eq_append_iff.mp hbefore with ⟨rfl, hhead⟩ | ⟨front', rfl, hfront⟩
    · obtain ⟨heq, rfl⟩ := List.cons.inj hhead
      have hpolicy : policy = other := congrArg Rule.policy heq
      rw [hrules, hpolicy.symm] at h
      simp only [List.mem_append, List.mem_cons, Rule.mk.injEq, reduceCtorEq, false_and,
        false_or] at h hback
      exact absurd h hback
    · exact ⟨front', back, hfront, hback⟩
  · intro hsettled before after third hrules hthird
    rcases List.cons_eq_append_iff.mp hrules with ⟨rfl, hhead⟩ | ⟨before', rfl, htail⟩
    · obtain ⟨heq, rfl⟩ := List.cons.inj hhead
      have hpolicy : third = other := congrArg Rule.policy heq
      exact Or.inl (hpolicy ▸ h)
    · refine (hsettled before' after third htail hthird).imp_right ?_
      rintro ⟨front, back, rfl, hback⟩
      exact ⟨⟨some key, other⟩ :: front, back, rfl, hback⟩

/-- The oldest rule about the key that stays decides. -/
theorem settled_cons_of_not_dropped {policy other : π} {key : κ} {rules : List (Rule κ π)}
    (h : ⟨none, other⟩ ∉ rules) :
    Settled policy (⟨some key, other⟩ :: rules) key ↔ other = policy := by
  constructor
  · intro hsettled
    by_contra hother
    rcases hsettled [] rules other rfl hother with hdropped | ⟨front, back, hbefore, -⟩
    · exact h hdropped
    · simp at hbefore
  · rintro rfl before after third hrules hthird
    rcases List.cons_eq_append_iff.mp hrules with ⟨rfl, hhead⟩ | ⟨before', rfl, htail⟩
    · obtain ⟨heq, -⟩ := List.cons.inj hhead
      exact absurd (congrArg Rule.policy heq) hthird
    · right
      refine ⟨[], before', rfl, ?_⟩
      rw [htail] at h
      simp only [List.mem_append, List.mem_cons, Rule.mk.injEq, reduceCtorEq, false_and,
        false_or] at h ⊢
      exact h

/-! ## The last rule about a key -/

variable [DecidableEq κ]

/-- The policy of the last rule about the key. -/
def lastWriter (start : π) (rules : List (Rule κ π)) (key : κ) : π :=
  rules.foldl
    (fun current rule ↦ if rule.key = none ∨ rule.key = some key then rule.policy else current) start

theorem lastWriter_append (start : π) (rules others : List (Rule κ π)) (key : κ) :
    lastWriter start (rules ++ others) key = lastWriter (lastWriter start rules key) others key := by
  exact List.foldl_append

@[simp] theorem lastWriter_cons_wildcard (start policy : π) (rules : List (Rule κ π)) (key : κ) :
    lastWriter start (⟨none, policy⟩ :: rules) key = lastWriter policy rules key := by
  simp [lastWriter]

@[simp] theorem lastWriter_cons_self (start policy : π) (rules : List (Rule κ π)) (key : κ) :
    lastWriter start (⟨some key, policy⟩ :: rules) key = lastWriter policy rules key := by
  simp [lastWriter]

theorem lastWriter_cons_of_ne {key other : κ} (h : other ≠ key) (start policy : π)
    (rules : List (Rule κ π)) :
    lastWriter start (⟨some other, policy⟩ :: rules) key = lastWriter start rules key := by
  simp [lastWriter, h]

/-- One rule alone is always settled. -/
theorem settled_lastWriter_single (start : π) (rule : Rule κ π) (key : κ) :
    Settled (lastWriter start [rule] key) [rule] key := by
  by_cases hkey : rule.key = some key
  · obtain ⟨_, policy⟩ := rule
    subst hkey
    rw [settled_cons_of_not_dropped List.not_mem_nil]
    simp [lastWriter]
  · rw [settled_cons_of_ne hkey]
    exact settled_nil _ key

/-! ## The table -/

structure Table (κ π : Type*) where
  entries : List (κ × π)
  default : π

def Table.lookup (table : Table κ π) (key : κ) : π :=
  match table.entries.find? (·.1 = key) with
  | some (_, policy) => policy
  | none => table.default

variable [DecidableEq π]

def Table.apply (table : Table κ π) (rule : Rule κ π) : Table κ π :=
  match rule.key with
  | none => ⟨table.entries.filter fun entry ↦ entry.2 ≠ rule.policy, rule.policy⟩
  | some key => ⟨table.entries ++ [(key, rule.policy)], table.default⟩

def Table.run (table : Table κ π) (rules : List (Rule κ π)) : Table κ π :=
  rules.foldl Table.apply table

/-- The rules about single keys that no later wildcard has dropped. -/
def survivors : List (Rule κ π) → List (κ × π)
  | [] => []
  | ⟨none, _⟩ :: rules => survivors rules
  | ⟨some key, policy⟩ :: rules =>
    if ⟨none, policy⟩ ∈ rules then survivors rules else (key, policy) :: survivors rules

theorem Table.run_entries (table : Table κ π) (rules : List (Rule κ π)) :
    (table.run rules).entries =
      (table.entries.filter fun entry ↦ (⟨none, entry.2⟩ : Rule κ π) ∉ rules) ++ survivors rules := by
  induction rules generalizing table with
  | nil => simp [run, survivors]
  | cons rule rules ih =>
    have hstep : table.run (rule :: rules) = (table.apply rule).run rules := rfl
    rw [hstep, ih]
    rcases rule with ⟨_ | key, policy⟩
    · simp only [apply, survivors, List.filter_filter]
      congr 1
      apply List.filter_congr
      intro entry _
      by_cases hpolicy : entry.2 = policy <;> simp [hpolicy]
    · simp only [apply, survivors, List.filter_append, List.append_assoc]
      congr 1
      · apply List.filter_congr
        intro entry _
        simp
      · by_cases hdropped : (⟨none, policy⟩ : Rule κ π) ∈ rules <;> simp [hdropped]

/-- The policy of the oldest survivor, or the default. -/
theorem Table.lookup_run (policy : π) (rules : List (Rule κ π)) (key : κ) :
    ((⟨[], policy⟩ : Table κ π).run rules).lookup key =
      match (survivors rules).find? (·.1 = key) with
      | some (_, other) => other
      | none => ((⟨[], policy⟩ : Table κ π).run rules).default := by
  unfold lookup
  rw [run_entries]
  simp

omit [DecidableEq κ] in
theorem Table.run_default (table other : Table κ π) (h : table.default = other.default)
    (rules : List (Rule κ π)) : (table.run rules).default = (other.run rules).default := by
  induction rules generalizing table other with
  | nil => exact h
  | cons rule rules ih =>
    apply ih (table.apply rule) (other.apply rule)
    rcases rule with ⟨_ | key, policy⟩
    · rfl
    · exact h

/-! ## When the last rule decides -/

/-- Which policy it is that the rules are settled on does not matter, as long as it is the default
when no rule about the key stays. -/
theorem find?_survivors_iff (policy default : π) (rules : List (Rule κ π)) (key : κ)
    (h : (survivors rules).find? (·.1 = key) = none → default = policy) :
    (match (survivors rules).find? (·.1 = key) with
      | some (_, other) => other
      | none => default) = policy ↔ Settled policy rules key := by
  induction rules with
  | nil =>
    simp only [survivors, List.find?_nil] at h ⊢
    simp [settled_nil, h]
  | cons rule rules ih =>
    rcases rule with ⟨_ | other, against⟩
    · rw [settled_cons_of_ne (by simp)]
      exact ih h
    · by_cases hdropped : (⟨none, against⟩ : Rule κ π) ∈ rules
      · simp only [survivors, hdropped, if_true] at h ⊢
        rw [ih h]
        by_cases hkey : other = key
        · rw [hkey, settled_cons_of_dropped hdropped]
        · rw [settled_cons_of_ne (by simpa using hkey)]
      · simp only [survivors, hdropped, if_false] at h ⊢
        by_cases hkey : other = key
        · rw [hkey, settled_cons_of_not_dropped hdropped]
          simp
        · rw [settled_cons_of_ne (by simpa using hkey)]
          simp only [List.find?_cons, hkey, decide_false] at h ⊢
          exact ih h

/-- The last rule about a key is a wildcard if no rule about that key stays. -/
theorem default_eq_lastWriter (policy : π) (rules : List (Rule κ π)) (key : κ)
    (h : (survivors rules).find? (·.1 = key) = none) :
    ((⟨[], policy⟩ : Table κ π).run rules).default = lastWriter policy rules key := by
  induction rules generalizing policy with
  | nil => rfl
  | cons rule rules ih =>
    have hstep : (⟨[], policy⟩ : Table κ π).run (rule :: rules) =
        ((⟨[], policy⟩ : Table κ π).apply rule).run rules := rfl
    rw [hstep]
    rcases rule with ⟨_ | other, against⟩
    · rw [lastWriter_cons_wildcard]
      exact ih against h
    · have hdefault : (((⟨[], policy⟩ : Table κ π).apply ⟨some other, against⟩).run rules).default =
          ((⟨[], policy⟩ : Table κ π).run rules).default := by
        apply Table.run_default
        rfl
      rw [hdefault]
      by_cases hdropped : (⟨none, against⟩ : Rule κ π) ∈ rules
      · simp only [survivors, hdropped, if_true] at h
        rw [ih policy h]
        -- A later wildcard makes the value at the start irrelevant.
        obtain ⟨front, back, rfl⟩ := List.append_of_mem hdropped
        by_cases hkey : other = key
        · rw [hkey, lastWriter_cons_self]
          simp [lastWriter_append]
        · rw [lastWriter_cons_of_ne hkey]
      · simp only [survivors, hdropped, if_false] at h
        have hkey : other ≠ key := by
          intro hkey
          simp [hkey] at h
        rw [lastWriter_cons_of_ne hkey]
        simp only [List.find?_cons, hkey, decide_false] at h
        exact ih policy h

theorem Table.lookup_eq_lastWriter_iff (policy : π) (rules : List (Rule κ π)) (key : κ) :
    ((⟨[], policy⟩ : Table κ π).run rules).lookup key = lastWriter policy rules key ↔
      Settled (lastWriter policy rules key) rules key := by
  rw [lookup_run]
  exact find?_survivors_iff _ _ rules key (default_eq_lastWriter policy rules key)

end Icecast.Lib.RuleList
