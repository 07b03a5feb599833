import Mathlib.Data.List.Basic

/-!
Lists in which the elements with a property come before the others. Taking away as many
elements from the front as have the property leaves the others exactly for these lists.
-/

set_option autoImplicit false
set_option relaxedAutoImplicit false

namespace SqlOptimizer.Logic.Prefixes

variable {α : Type}

/-- No element with the property comes after one without it. -/
def ComesFirst (p : α → Bool) (l : List α) : Prop := l.Pairwise fun a b => p b = true → p a = true

instance (p : α → Bool) (l : List α) : Decidable (ComesFirst p l) :=
  inferInstanceAs (Decidable (l.Pairwise _))

theorem length_filter_not (p : α → Bool) (l : List α) :
    l.countP p + (l.filter fun a => !p a).length = l.length := by
  have hlen := List.length_eq_countP_add_countP p (l := l)
  rw [← List.countP_eq_length_filter]
  simpa using hlen.symm

theorem drop_countP_eq_filter_iff {p : α → Bool} {l : List α} :
    l.drop (l.countP p) = l.filter (fun a => !p a) ↔ ComesFirst p l := by
  induction l with
  | nil => simp [ComesFirst]
  | cons a l ih =>
    rw [ComesFirst, List.pairwise_cons]
    by_cases ha : p a = true
    · rw [List.countP_cons_of_pos ha, List.filter_cons_of_neg (by simp [ha]), List.drop_succ_cons,
        ih]
      simp [ComesFirst, ha]
    · rw [List.countP_cons_of_neg ha, List.filter_cons_of_pos (by simp [ha])]
      by_cases hl : ∃ b ∈ l, p b = true
      · -- the first element without the property is among those that are taken away
        obtain ⟨b, hb, hpb⟩ := hl
        have hpos : 0 < l.countP p := List.countP_pos_iff.mpr ⟨b, hb, hpb⟩
        obtain ⟨k, hk⟩ : ∃ k, l.countP p = k + 1 := Nat.exists_eq_succ_of_ne_zero (by omega)
        refine iff_of_false (fun h => ?_) fun h => ha (h.1 b hb hpb)
        have hsplit : l.countP p = (l.take k).countP p + (l.drop k).countP p := by
          rw [← List.countP_append, List.take_append_drop]
        have htake : (l.take k).countP p ≤ k :=
          Nat.le_trans List.countP_le_length (List.length_take_le k l)
        rw [hk, List.drop_succ_cons] at h
        have hzero : (l.drop k).countP p = 0 := by
          rw [h, List.countP_cons_of_neg ha, List.countP_filter]
          exact List.countP_eq_zero.mpr (by simp)
        omega
      · have hnone : ∀ b ∈ l, p b = false := by simpa using hl
        have hzero : l.countP p = 0 := List.countP_eq_zero.mpr (by simpa using hnone)
        have hfilter : l.filter (fun a => !p a) = l :=
          List.filter_eq_self.mpr fun b hb => by simp [hnone b hb]
        refine iff_of_true ?_ ⟨fun b hb h => ?_, ih.mp ?_⟩
        · rw [hzero, hfilter, List.drop_zero]
        · rw [hnone b hb] at h
          cases h
        · rw [hzero, hfilter, List.drop_zero]

end SqlOptimizer.Logic.Prefixes
