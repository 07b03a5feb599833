import Mathlib.Data.List.Forall2
import Mathlib.Order.Basic

/-!
Loops over a list of steps that may fail. An invariant relates the steps that are still
to come with the state; what it gives for one step holds for the whole run.
-/

set_option autoImplicit false
set_option relaxedAutoImplicit false

namespace SqlOptimizer.Logic.Runs

variable {σ α : Type} {step : σ → α → Option σ}

/-- A loop that computes one result for each element. -/
theorem mapM_eq_some_iff {β : Type} {f : α → Option β} {l : List α} {l' : List β} :
    l.mapM f = some l' ↔ List.Forall₂ (fun a b => f a = some b) l l' := by
  induction l generalizing l' with
  | nil => simp [eq_comm]
  | cons a l ih =>
    simp only [List.mapM_cons, Option.bind_eq_bind, Option.bind_eq_some_iff, Option.pure_def,
      Option.some.injEq, List.forall₂_cons_left_iff]
    constructor
    · rintro ⟨b, hb, bs, hbs, rfl⟩
      exact ⟨b, bs, hb, ih.mp hbs, rfl⟩
    · rintro ⟨b, bs, hb, hbs, rfl⟩
      exact ⟨b, hb, bs, ih.mpr hbs, rfl⟩

theorem exists_of_mem_mapM {β : Type} {f : α → Option β} {l : List α} {l' : List β}
    (h : l.mapM f = some l') {b : β} (hb : b ∈ l') : ∃ a ∈ l, f a = some b := by
  rw [mapM_eq_some_iff] at h
  induction h with
  | nil => cases hb
  | @cons a b' l l' hab _ ih =>
    rcases List.mem_cons.mp hb with rfl | hb
    · exact ⟨a, List.mem_cons_self, hab⟩
    · obtain ⟨a', ha', hfa'⟩ := ih hb
      exact ⟨a', List.mem_cons_of_mem _ ha', hfa'⟩

theorem exists_of_mapM {β : Type} {f : α → Option β} {l : List α} {l' : List β}
    (h : l.mapM f = some l') {a : α} (ha : a ∈ l) : ∃ b, f a = some b := by
  rw [mapM_eq_some_iff] at h
  induction h with
  | nil => cases ha
  | @cons a' b l l' hab _ ih =>
    rcases List.mem_cons.mp ha with rfl | ha
    · exact ⟨b, hab⟩
    · exact ih ha

/-- What every step keeps, a run keeps. -/
theorem run_invariant {I : σ → Prop} (hI : ∀ a s s', I s → step s a = some s' → I s')
    {as : List α} {s s' : σ} (hrun : as.foldlM step s = some s') (h : I s) : I s' := by
  induction as generalizing s with
  | nil => exact Option.some.inj hrun ▸ h
  | cons a as ih =>
    rw [List.foldlM_cons, Option.bind_eq_bind, Option.bind_eq_some_iff] at hrun
    obtain ⟨s₁, hstep, hrest⟩ := hrun
    exact ih hrest (hI a s s₁ h hstep)

/-- `P` holds of every step of the run and of the state in which the step is taken. -/
def AtEveryStep (step : σ → α → Option σ) (P : σ → α → Prop) : List α → σ → Prop
  | [], _ => True
  | a :: as, s => P s a ∧ ∀ s', step s a = some s' → AtEveryStep step P as s'

instance decidableAtEveryStep (step : σ → α → Option σ) (P : σ → α → Prop)
    [∀ s a, Decidable (P s a)] : ∀ as s, Decidable (AtEveryStep step P as s)
  | [], _ => .isTrue trivial
  | a :: as, s =>
      match h : step s a with
      | none => decidable_of_iff (P s a) (by simp [AtEveryStep, h])
      | some s' =>
          have := decidableAtEveryStep step P as s'
          decidable_of_iff (P s a ∧ AtEveryStep step P as s') (by simp [AtEveryStep, h])

/-- The invariant `I` of the pending steps and the state lets every step be taken. -/
def Carries (step : σ → α → Option σ) (I : List α → σ → Prop) : Prop :=
  ∀ a as s, I (a :: as) s → ∃ s', step s a = some s' ∧ I as s'

/-- A run under an invariant ends. -/
theorem Carries.exists_run {I : List α → σ → Prop} (hI : Carries step I) {as : List α} {s : σ}
    (h : I as s) : ∃ s', as.foldlM step s = some s' ∧ I [] s' := by
  induction as generalizing s with
  | nil => exact ⟨s, rfl, h⟩
  | cons a as ih =>
    obtain ⟨s₁, hs₁, hI₁⟩ := hI a as s h
    obtain ⟨s₂, hs₂, hI₂⟩ := ih hI₁
    exact ⟨s₂, by simp [List.foldlM_cons, hs₁, hs₂], hI₂⟩

/-- A second invariant, kept by the steps for which `P` holds. -/
theorem Carries.exists_run_of_atEveryStep {I J : List α → σ → Prop} (hI : Carries step I)
    {P : σ → α → Prop}
    (hJ : ∀ a as s s', I (a :: as) s → J (a :: as) s → P s a → step s a = some s' → J as s')
    {as : List α} {s : σ} (h : I as s) (hj : J as s) (hP : AtEveryStep step P as s) :
    ∃ s', as.foldlM step s = some s' ∧ I [] s' ∧ J [] s' := by
  induction as generalizing s with
  | nil => exact ⟨s, rfl, h, hj⟩
  | cons a as ih =>
    obtain ⟨s₁, hs₁, hI₁⟩ := hI a as s h
    have hj₁ := hJ a as s s₁ h hj hP.1 hs₁
    obtain ⟨s₂, hs₂, hend⟩ := ih hI₁ hj₁ (hP.2 s₁ hs₁)
    exact ⟨s₂, by simp [List.foldlM_cons, hs₁, hs₂], hend⟩

/-- `P` holds at every step when the invariants give it for the next one. -/
theorem Carries.atEveryStep_of {I J : List α → σ → Prop} (hI : Carries step I)
    {P : σ → α → Prop} (hP : ∀ a as s, I (a :: as) s → J (a :: as) s → P s a)
    (hJ : ∀ a as s s', I (a :: as) s → J (a :: as) s → step s a = some s' → J as s')
    {as : List α} {s : σ} (h : I as s) (hj : J as s) : AtEveryStep step P as s := by
  induction as generalizing s with
  | nil => trivial
  | cons a as ih =>
    refine ⟨hP a as s h hj, fun s₁ hs₁ => ?_⟩
    obtain ⟨s₂, hs₂, hI₂⟩ := hI a as s h
    obtain rfl : s₂ = s₁ := Option.some.inj (hs₂.symm.trans hs₁)
    exact ih hI₂ (hJ a as s s₂ h hj hs₁)

/-- A property of the steps taken that the invariant reduces to a property of the step
alone. -/
theorem Carries.atEveryStep_iff {I : List α → σ → Prop} (hI : Carries step I)
    {P : σ → α → Prop} {Q : α → Prop} (hPQ : ∀ a as s, I (a :: as) s → (P s a ↔ Q a))
    {as : List α} {s : σ} (h : I as s) : AtEveryStep step P as s ↔ ∀ a ∈ as, Q a := by
  induction as generalizing s with
  | nil => simp [AtEveryStep]
  | cons a as ih =>
    obtain ⟨s₁, hs₁, hI₁⟩ := hI a as s h
    simp only [AtEveryStep, hs₁, Option.some.injEq, forall_eq', List.forall_mem_cons,
      hPQ a as s h, ih hI₁]

/-- A quantity that a step keeps exactly when `P` holds, and lowers otherwise, is kept
by the run exactly when `P` holds at every step. -/
theorem Carries.run_eq_iff {β : Type} [PartialOrder β] {I : List α → σ → Prop}
    (hI : Carries step I) {μ : List α → σ → β} {P : σ → α → Prop}
    (hle : ∀ a as s s', I (a :: as) s → step s a = some s' → μ as s' ≤ μ (a :: as) s)
    (hP : ∀ a as s s', I (a :: as) s → step s a = some s' →
      (μ as s' = μ (a :: as) s ↔ P s a))
    {as : List α} {s s' : σ} (h : I as s) (hrun : as.foldlM step s = some s') :
    μ [] s' ≤ μ as s ∧ (μ [] s' = μ as s ↔ AtEveryStep step P as s) := by
  induction as generalizing s with
  | nil =>
    cases hrun
    simp [AtEveryStep]
  | cons a as ih =>
    obtain ⟨s₁, hs₁, hI₁⟩ := hI a as s h
    rw [List.foldlM_cons, hs₁] at hrun
    obtain ⟨hle₁, hiff⟩ := ih hI₁ hrun
    have hstep := hle a as s s₁ h hs₁
    refine ⟨hle₁.trans hstep, ?_⟩
    simp only [AtEveryStep, hs₁, Option.some.injEq, forall_eq', ← hP a as s s₁ h hs₁, ← hiff]
    constructor
    · intro heq
      have h₁ : μ as s₁ = μ (a :: as) s := le_antisymm hstep (heq ▸ hle₁)
      exact ⟨h₁, heq.trans h₁.symm⟩
    · rintro ⟨h₁, h₂⟩
      exact h₂.trans h₁

end SqlOptimizer.Logic.Runs
