import Mathlib.Algebra.BigOperators.Fin
import Mathlib.Algebra.BigOperators.Ring.Finset
import Mathlib.Algebra.Order.BigOperators.Group.Finset
import SqlOptimizer.Logic.NestedLoops

/-!
A dependent join with both of its inputs, and the join of two dependent joins with one input
each. They give the same bag exactly when the condition of the second holds for the combinations
of one position of the outer list and for no others.
-/

set_option autoImplicit false
set_option relaxedAutoImplicit false

namespace SqlOptimizer.Logic.SplitJoins

open NestedLoops
open scoped BigOperators

variable {α β δ : Type}

/-- The combinations for the same outer element, element by element. -/
def samePairs (outer : List δ) (l : δ → List α) (r : δ → List β) : List (α × β) :=
  outer.flatMap fun d => innerJoin Prod.mk (fun _ => true) (l d) (r d)

/-- The combinations over all outer elements that satisfy a condition. -/
def splitPairs (on : α × β → Bool) (outer : List δ) (l : δ → List α) (r : δ → List β) :
    List (α × β) :=
  innerJoin Prod.mk on (outer.flatMap l) (outer.flatMap r)

section

variable [DecidableEq α] [DecidableEq β]

private theorem count_matching (on : α × β → Bool) (a x : α) (b : β) (r : List β) :
    (matching Prod.mk on r x).count (a, b) =
      if x = a ∧ on (a, b) = true then r.count b else 0 := by
  by_cases hon : on (a, b) = true
  · rw [matching, List.count_filter hon]
    by_cases hx : x = a
    · subst hx
      rw [if_pos ⟨rfl, hon⟩]
      exact List.count_map_of_injective r (Prod.mk x) (Prod.mk_right_injective x) b
    · rw [if_neg fun h => hx h.1, List.count_eq_zero]
      intro h
      obtain ⟨y, -, hy⟩ := List.mem_map.mp h
      exact hx (Prod.mk.inj hy).1
  · rw [if_neg fun h => hon h.2, List.count_eq_zero]
    exact fun h => hon (List.mem_filter.mp h).2

private theorem count_innerJoin (on : α × β → Bool) (a : α) (b : β) (l : List α) (r : List β) :
    (innerJoin Prod.mk on l r).count (a, b) =
      if on (a, b) = true then l.count a * r.count b else 0 := by
  induction l with
  | nil => simp [innerJoin]
  | cons x l ih =>
    rw [innerJoin, List.flatMap_cons, List.count_append, ← innerJoin, ih, count_matching,
      List.count_cons]
    by_cases hon : on (a, b) = true
    · by_cases hx : x = a
      · simp [hon, hx, Nat.add_mul, Nat.add_comm]
      · simp [hon, hx]
    · simp [hon]

private theorem count_outer {γ : Type} [BEq γ] (outer : List δ) (f : δ → List γ) (c : γ) :
    (outer.flatMap f).count c = ∑ i : Fin outer.length, (f outer[i]).count c := by
  rw [List.count_flatMap, ← Fin.sum_univ_fun_getElem]
  rfl

/-- A product of sums has nothing beside its diagonal. -/
private theorem sum_mul_sum_eq_iff {n : Nat} (a b : Fin n → Nat) :
    (∑ i, a i) * ∑ j, b j = ∑ i, a i * b i ↔ ∀ i j, i ≠ j → a i * b j = 0 := by
  have hdiagonal : ∑ i, a i * b i = ∑ i, ∑ j, if i = j then a i * b j else 0 := by
    simp
  have hle (i j : Fin n) : (if i = j then a i * b j else 0) ≤ a i * b j := by
    split
    · exact Nat.le_refl _
    · exact Nat.zero_le _
  have hrow (i : Fin n) : ∑ j, (if i = j then a i * b j else 0) = ∑ j, a i * b j ↔
      ∀ j, i ≠ j → a i * b j = 0 := by
    rw [Finset.sum_eq_sum_iff_of_le fun j _ => hle i j]
    refine forall_congr' fun j => ?_
    by_cases hij : i = j
    · simp [hij]
    · simp [hij, eq_comm]
  rw [Fintype.sum_mul_sum, hdiagonal, eq_comm,
    Finset.sum_eq_sum_iff_of_le fun i _ => Finset.sum_le_sum fun j _ => hle i j]
  simp only [Finset.mem_univ, true_implies, hrow]

end

/-- The two dependent joins give the pairs of the one exactly when the condition tells the
positions of the outer list apart. -/
theorem splitPairs_perm_iff (on : α × β → Bool) (outer : List δ) (l : δ → List α)
    (r : δ → List β) :
    (splitPairs on outer l r).Perm (samePairs outer l r) ↔
      ∀ i j : Fin outer.length, ∀ x ∈ l outer[i], ∀ y ∈ r outer[j],
        (on (x, y) = true ↔ i = j) := by
  classical
  have hsplit (x : α) (y : β) : (splitPairs on outer l r).count (x, y) =
      if on (x, y) = true then (∑ i : Fin outer.length, (l outer[i]).count x) *
        ∑ j : Fin outer.length, (r outer[j]).count y else 0 := by
    rw [splitPairs, count_innerJoin, count_outer, count_outer]
  have hsame (x : α) (y : β) : (samePairs outer l r).count (x, y) =
      ∑ i : Fin outer.length, (l outer[i]).count x * (r outer[i]).count y := by
    rw [samePairs, count_outer]
    refine Finset.sum_congr rfl fun i _ => ?_
    rw [count_innerJoin, if_pos rfl]
  have hpositive {i j : Fin outer.length} {x : α} {y : β} :
      (l outer[i]).count x * (r outer[j]).count y = 0 ↔ ¬ (x ∈ l outer[i] ∧ y ∈ r outer[j]) := by
    rw [Nat.mul_eq_zero, List.count_eq_zero, List.count_eq_zero, not_and_or]
  rw [List.perm_iff_count]
  constructor
  · intro h i j x hx y hy
    have hcount := h (x, y)
    rw [hsplit, hsame] at hcount
    constructor
    · intro hon
      rw [if_pos hon, sum_mul_sum_eq_iff] at hcount
      by_contra hij
      exact hpositive.mp (hcount i j hij) ⟨hx, hy⟩
    · rintro rfl
      by_contra hon
      rw [if_neg hon, eq_comm, Finset.sum_eq_zero_iff] at hcount
      exact hpositive.mp (hcount i (Finset.mem_univ i)) ⟨hx, hy⟩
  · rintro h ⟨x, y⟩
    rw [hsplit, hsame]
    by_cases hon : on (x, y) = true
    · rw [if_pos hon, sum_mul_sum_eq_iff]
      intro i j hij
      rw [hpositive]
      rintro ⟨hx, hy⟩
      exact hij ((h i j x hx y hy).mp hon)
    · rw [if_neg hon, eq_comm, Finset.sum_eq_zero_iff]
      intro i _
      rw [hpositive]
      rintro ⟨hx, hy⟩
      exact hon ((h i i x hx y hy).mpr rfl)

end SqlOptimizer.Logic.SplitJoins
