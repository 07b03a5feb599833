import Mathlib.Order.Lattice
import Mathlib.Order.Fin.Basic
import Mathlib.Order.ModularLattice
import Mathlib.Data.Fintype.Basic

/-!
Kleene's three-valued logic as SQL uses it. The truth values form a chain, so
conjunction and disjunction are the meet and the join of a bounded lattice and
the general lattice lemmas apply to them.
-/

set_option autoImplicit false
set_option relaxedAutoImplicit false

namespace SqlOptimizer.Logic.ThreeValued

/-- The truth values of SQL conditions. -/
inductive Truth where
  | ff
  | unknown
  | tt
  deriving DecidableEq, Repr

namespace Truth

/-- Position in the truth order `ff < unknown < tt`. -/
def rank : Truth → Fin 3
  | ff => 0
  | unknown => 1
  | tt => 2

theorem rank_injective : Function.Injective rank := by
  intro a b h
  cases a <;> cases b <;> first | rfl | cases h

instance : Fintype Truth where
  elems := {ff, unknown, tt}
  complete := by
    intro t
    cases t <;> decide

instance : LinearOrder Truth := LinearOrder.lift' rank rank_injective

instance : BoundedOrder Truth where
  top := tt
  le_top := by decide
  bot := ff
  bot_le := by decide

/-- Negation exchanges the ends and keeps `unknown`. -/
def not : Truth → Truth
  | ff => tt
  | unknown => unknown
  | tt => ff

/-- The truth value of a Boolean. -/
def ofBool : Bool → Truth
  | false => ff
  | true => tt

@[simp] theorem top_eq : (⊤ : Truth) = tt := rfl

@[simp] theorem bot_eq : (⊥ : Truth) = ff := rfl

@[simp] theorem not_not (t : Truth) : t.not.not = t := by
  cases t <;> rfl

@[simp] theorem tt_inf (t : Truth) : tt ⊓ t = t := top_inf_eq t

@[simp] theorem inf_tt (t : Truth) : t ⊓ tt = t := inf_top_eq t

@[simp] theorem ff_inf (t : Truth) : ff ⊓ t = ff := bot_inf_eq t

@[simp] theorem inf_ff (t : Truth) : t ⊓ ff = ff := inf_bot_eq t

@[simp] theorem ff_sup (t : Truth) : ff ⊔ t = t := bot_sup_eq t

@[simp] theorem sup_ff (t : Truth) : t ⊔ ff = t := sup_bot_eq t

@[simp] theorem tt_sup (t : Truth) : tt ⊔ t = tt := top_sup_eq t

@[simp] theorem sup_tt (t : Truth) : t ⊔ tt = tt := sup_top_eq t

theorem inf_eq_tt {a b : Truth} : a ⊓ b = tt ↔ a = tt ∧ b = tt :=
  inf_eq_top_iff

theorem ofBool_eq_tt {b : Bool} : ofBool b = tt ↔ b = true := by
  cases b <;> simp [ofBool]

/-- The conjunction of a list of truth values. -/
def conj (l : List Truth) : Truth := l.foldr (· ⊓ ·) ⊤

/-- The disjunction of a list of truth values. -/
def disj (l : List Truth) : Truth := l.foldr (· ⊔ ·) ⊥

@[simp] theorem conj_nil : conj [] = tt := rfl

@[simp] theorem conj_cons (t : Truth) (l : List Truth) : conj (t :: l) = t ⊓ conj l := rfl

@[simp] theorem disj_nil : disj [] = ff := rfl

@[simp] theorem disj_cons (t : Truth) (l : List Truth) : disj (t :: l) = t ⊔ disj l := rfl

@[simp] theorem conj_append (l l' : List Truth) : conj (l ++ l') = conj l ⊓ conj l' := by
  induction l with
  | nil => simp
  | cons t l ih => simp [ih, inf_assoc]

@[simp] theorem disj_append (l l' : List Truth) : disj (l ++ l') = disj l ⊔ disj l' := by
  induction l with
  | nil => simp
  | cons t l ih => simp [ih, sup_assoc]

theorem conj_eq_tt {l : List Truth} : conj l = tt ↔ ∀ t ∈ l, t = tt := by
  induction l with
  | nil => simp
  | cons t l ih => simp [inf_eq_tt, ih]

theorem disj_le {l : List Truth} {b : Truth} : disj l ≤ b ↔ ∀ t ∈ l, t ≤ b := by
  induction l with
  | nil => simpa using (bot_le : (⊥ : Truth) ≤ b)
  | cons t l ih => simp [ih]

end Truth

/-- In a modular lattice a misplaced meet is harmless exactly when the joinand it
leaves out already lies below it. -/
theorem sup_inf_eq_sup_inf_iff {α : Type} [Lattice α] [IsModularLattice α] {d l r : α} :
    d ⊔ (l ⊓ r) = (d ⊔ l) ⊓ r ↔ d ≤ r := by
  constructor
  · intro h
    calc d ≤ d ⊔ (l ⊓ r) := le_sup_left
      _ = (d ⊔ l) ⊓ r := h
      _ ≤ r := inf_le_right
  · intro h
    exact (sup_inf_assoc_of_le l h).symm

/-- The same when a further meet is lost altogether. -/
theorem sup_inf_eq_sup_inf_inf_iff {α : Type} [Lattice α] [IsModularLattice α] {d l r s : α} :
    d ⊔ (l ⊓ r) = (d ⊔ l) ⊓ r ⊓ s ↔ d ≤ r ∧ (d ⊔ l) ⊓ r ≤ s := by
  constructor
  · intro h
    have hd : d ≤ r := calc
      d ≤ d ⊔ (l ⊓ r) := le_sup_left
      _ = (d ⊔ l) ⊓ r ⊓ s := h
      _ ≤ r := inf_le_left.trans inf_le_right
    rw [sup_inf_eq_sup_inf_iff.mpr hd] at h
    exact ⟨hd, h.le.trans inf_le_right⟩
  · rintro ⟨hd, hs⟩
    rw [sup_inf_eq_sup_inf_iff.mpr hd, inf_eq_left.mpr hs]

end SqlOptimizer.Logic.ThreeValued
