import Mathlib.Init

/-!
Loops that end with a result or go on with another configuration. A loop whose rounds make
progress ends exactly when it meets no configuration that a round leaves as it is.
-/

set_option autoImplicit false
set_option relaxedAutoImplicit false

namespace SqlOptimizer.Logic.Iteration

variable {C R : Type}

/-- The loop with a bound on the number of its rounds. -/
def iterate (next : C → R ⊕ C) : Nat → C → Option R
  | 0, _ => none
  | n + 1, c =>
      match next c with
      | .inl r => some r
      | .inr c' => iterate next n c'

/-- The rounds lead from one configuration to another one. -/
inductive Leads (next : C → R ⊕ C) : C → C → Prop
  | refl (c : C) : Leads next c c
  | head {c c' c'' : C} : next c = .inr c' → Leads next c' c'' → Leads next c c''

/-- The loop comes to a configuration that a round leaves as it is. -/
def Stuck (next : C → R ⊕ C) (c : C) : Prop := ∃ c', Leads next c c' ∧ next c' = .inr c'

section

variable {next : C → R ⊕ C} {c c' : C} {r : R}

theorem iterate_of_inl (h : next c = .inl r) (n : Nat) : iterate next (n + 1) c = some r := by
  rw [iterate, h]

theorem iterate_of_inr (h : next c = .inr c') (n : Nat) :
    iterate next (n + 1) c = iterate next n c' := by
  rw [iterate, h]

/-- What holds of the results of the last rounds holds of the result of the loop. -/
theorem of_iterate_eq_some {P : R → Prop} (h : ∀ c r, next c = .inl r → P r) {n : Nat}
    (hrun : iterate next n c = some r) : P r := by
  induction n generalizing c with
  | zero => cases hrun
  | succ n ih =>
    cases hnext : next c with
    | inl r' =>
      rw [iterate_of_inl hnext] at hrun
      exact Option.some.inj hrun ▸ h c r' hnext
    | inr c' =>
      rw [iterate_of_inr hnext] at hrun
      exact ih hrun

/-- What every round keeps holds of all configurations that the rounds lead to. -/
theorem Leads.keeps {P : C → Prop} (h : Leads next c c')
    (hkeeps : ∀ c c', P c → next c = .inr c' → P c') (hc : P c) : P c' := by
  induction h with
  | refl c => exact hc
  | head hnext _ ih => exact ih (hkeeps _ _ hc hnext)

/-- A loop that is stuck does not end. -/
theorem Stuck.iterate_eq_none (h : Stuck next c) (n : Nat) : iterate next n c = none := by
  obtain ⟨c', hleads, hself⟩ := h
  induction hleads generalizing n with
  | refl c =>
    induction n with
    | zero => rfl
    | succ n ih => rw [iterate_of_inr hself, ih]
  | head hnext _ ih =>
    cases n with
    | zero => rfl
    | succ n => rw [iterate_of_inr hnext, ih n hself]

/-- Every round that changes the configuration keeps the invariant and takes from the measure. -/
structure Progresses (next : C → R ⊕ C) (I : C → Prop) (measure : C → Nat) : Prop where
  keeps : ∀ c c', I c → next c = .inr c' → c' ≠ c → I c'
  decreases : ∀ c c', I c → next c = .inr c' → c' ≠ c → measure c' < measure c

variable {I : C → Prop} {measure : C → Nat}

theorem Progresses.keeps_always (h : Progresses next I measure) (c c' : C) (hc : I c)
    (hnext : next c = .inr c') : I c' := by
  by_cases heq : c' = c
  · exact heq ▸ hc
  · exact h.keeps c c' hc hnext heq

/-- Enough rounds are enough unless the loop is stuck. -/
theorem Progresses.iterate_isSome_iff (h : Progresses next I measure) (hc : I c) {n : Nat}
    (hn : measure c < n) : (iterate next n c).isSome = true ↔ ¬ Stuck next c := by
  constructor
  · intro hsome hstuck
    rw [hstuck.iterate_eq_none] at hsome
    cases hsome
  · intro hfree
    induction n generalizing c with
    | zero => exact absurd hn (Nat.not_lt_zero _)
    | succ n ih =>
      cases hnext : next c with
      | inl r => rw [iterate_of_inl hnext]; rfl
      | inr c' =>
        have hne : c' ≠ c := by
          rintro rfl
          exact hfree ⟨_, .refl _, hnext⟩
        have hlt := h.decreases c c' hc hnext hne
        rw [iterate_of_inr hnext]
        refine ih (h.keeps c c' hc hnext hne) (by omega) ?_
        rintro ⟨c'', hleads, hself⟩
        exact hfree ⟨c'', .head hnext hleads, hself⟩

end

end SqlOptimizer.Logic.Iteration
