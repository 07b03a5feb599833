import Mathlib.Data.List.Basic
import Mathlib.Data.List.DropRight

/-!
Names made of a stem and a number. The number is the longest run of digits at the end of the
name when the stem does not end in a digit.
-/

set_option autoImplicit false
set_option relaxedAutoImplicit false

namespace SqlOptimizer.Logic.NumberedNames

/-- `stem + std::to_string(n)`. -/
def numbered (stem : String) (n : Nat) : String := stem ++ toString n

/-- The stem does not end in a digit. -/
def IsStem (stem : String) : Prop := stem.toList.rdropWhile Char.isDigit = stem.toList

instance (stem : String) : Decidable (IsStem stem) :=
  inferInstanceAs (Decidable (stem.toList.rdropWhile Char.isDigit = stem.toList))

private theorem rdropWhile_append {l ds : List Char} (h : ∀ c ∈ ds, c.isDigit = true) :
    (l ++ ds).rdropWhile Char.isDigit = l.rdropWhile Char.isDigit := by
  induction ds using List.reverseRecOn with
  | nil => rw [List.append_nil]
  | append_singleton ds c ih =>
    rw [← List.append_assoc, List.rdropWhile_concat_pos _ _ _ (h c (by simp))]
    exact ih fun c hc => h c (List.mem_append_left _ hc)

/-- The stem is what remains without the digits at the end. -/
private theorem rdropWhile_numbered {stem : String} (h : IsStem stem) (n : Nat) :
    (numbered stem n).toList.rdropWhile Char.isDigit = stem.toList := by
  have hdigits : ∀ c ∈ (toString n).toList, c.isDigit = true := by
    intro c hc
    rw [Nat.toString_eq_repr, Nat.toList_repr] at hc
    exact Nat.isDigit_of_mem_toDigits (by omega) (by omega) hc
  rw [numbered, String.toList_append, rdropWhile_append hdigits]
  exact h

theorem toString_nat_inj {n n' : Nat} : toString n = toString n' ↔ n = n' := by
  constructor
  · intro h
    have hdigits : Nat.toDigits 10 n = Nat.toDigits 10 n' := by
      rw [← Nat.toList_repr, ← Nat.toList_repr, ← Nat.toString_eq_repr, ← Nat.toString_eq_repr, h]
    rw [← Nat.ofDigitChars_ten_toDigits (n := n), hdigits, Nat.ofDigitChars_ten_toDigits]
  · rintro rfl
    rfl

/-- Names with different stems or numbers are different. -/
theorem numbered_inj {stem stem' : String} (h : IsStem stem) (h' : IsStem stem') {n n' : Nat} :
    numbered stem n = numbered stem' n' ↔ stem = stem' ∧ n = n' := by
  constructor
  · intro heq
    have hstem : stem = stem' := by
      rw [← String.toList_inj, ← rdropWhile_numbered h n, heq, rdropWhile_numbered h' n']
    subst hstem
    exact ⟨rfl, toString_nat_inj.mp ((String.append_right_inj stem).mp heq)⟩
  · rintro ⟨rfl, rfl⟩
    rfl

/-- A stem is no numbered name. -/
theorem numbered_ne {stem name : String} (h : IsStem stem) (h' : IsStem name) (hne : stem ≠ name)
    (n : Nat) : numbered stem n ≠ name := by
  rintro rfl
  have hstem : (numbered stem n).toList = stem.toList := by
    rw [← h', rdropWhile_numbered h]
  exact hne (String.toList_inj.mp hstem).symm

theorem numbered_ne_empty {stem : String} (h : stem ≠ "") (n : Nat) : numbered stem n ≠ "" := by
  intro heq
  have hlength := congrArg String.length heq
  rw [numbered, String.length_append] at hlength
  have hstem : stem.length = 0 := by
    rw [show ("" : String).length = 0 from rfl] at hlength
    omega
  exact h (String.length_eq_zero_iff.mp hstem)

end SqlOptimizer.Logic.NumberedNames
