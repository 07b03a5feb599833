import SqlOptimizer.Unnesting.Counterparts

/-!
The meaning of an expression after `rename_attributes`. The function does not go below
arithmetic, casts, case expressions, lists and null tests.
-/

set_option autoImplicit false
set_option relaxedAutoImplicit false

namespace SqlOptimizer.Unnesting.Renaming

open Algebra.RelationalAlgebra
open Logic.ThreeValued
open Semantics.Evaluation Semantics.References
open Attributes Counterparts

mutual

/-- The references that the renaming does not reach. -/
def hiddenReferences : Expr → List Reference
  | .attribute _ _ => []
  | .funcCall _ args _ _ => allHiddenReferences args
  | .boolPredicate _ args => allHiddenReferences args
  | .predicate l r _ => hiddenReferences l ++ hiddenReferences r
  | .selectExpression e _ => hiddenReferences e
  | e => references e

def allHiddenReferences : List Expr → List Reference
  | [] => []
  | e :: es => hiddenReferences e ++ allHiddenReferences es

end

theorem mem_allHiddenReferences {es : List Expr} {e : Expr} (he : e ∈ es) {r : Reference}
    (hr : r ∈ hiddenReferences e) : r ∈ allHiddenReferences es := by
  induction es with
  | nil => cases he
  | cons e' es ih =>
    rw [allHiddenReferences, List.mem_append]
    rcases List.mem_cons.mp he with rfl | he
    · exact .inl hr
    · exact .inr (ih he)

/-- The renaming reaches all attributes of D in the expression. -/
def Reached (e : Expr) : Prop := ∀ n, .column n "d" ∉ hiddenReferences e

/-- The renaming of a reference. -/
def renamedReference (m : RenameMap) : Reference → Reference
  | .column n a => .column (renamed m n a).1 (renamed m n a).2
  | .marker k => .marker k

theorem renamedReference_of_ne {m : RenameMap} (hm : RenamesD m) {r : Reference}
    (hr : ∀ n, r ≠ .column n "d") : renamedReference m r = r := by
  cases r with
  | column n a =>
    have ha : a ≠ "d" := fun heq => hr n (by rw [heq])
    rw [renamedReference, renamed_of_ne hm ha]
  | marker k => rfl

variable {V : Type} [DecidableEq V] (I : Interpretation V)

/-- Two expressions mean the same, each on its row. -/
structure SameMeaning (s s' : Row V) (e e' : Expr) : Prop where
  value : (meaning I e').value ⟨s', []⟩ = (meaning I e).value ⟨s, []⟩
  truth : (meaning I e').truth ⟨s', []⟩ = (meaning I e).truth ⟨s, []⟩
  operand : (meaning I e').operand ⟨s', []⟩ = (meaning I e).operand ⟨s, []⟩

section

variable {I} {s s' : Row V} {m : RenameMap}

omit [DecidableEq V] in
private theorem renameExpressions_eq_map (es : List Expr) :
    renameExpressions m es = es.map (renameExpression m) := by
  induction es with
  | nil => rfl
  | cons e es ih => rw [renameExpressions, ih, List.map_cons]

private theorem map_meanings {β : Type} {f g : Meaning V → β} {es : List Expr}
    (h : ∀ e ∈ es, f (meaning I (renameExpression m e)) = g (meaning I e)) :
    (meanings I (renameExpressions m es)).map f = (meanings I es).map g := by
  rw [renameExpressions_eq_map, meanings_eq_map, meanings_eq_map, List.map_map, List.map_map,
    List.map_map]
  exact List.map_congr_left h

theorem sameMeaning_of_value {e e' : Expr} {v v' : Context V → Option V}
    (he : meaning I e = .ofValue I v) (he' : meaning I e' = .ofValue I v')
    (h : v' ⟨s', []⟩ = v ⟨s, []⟩) : SameMeaning I s s' e e' := by
  refine ⟨?_, ?_, ?_⟩ <;> simp only [he, he', Meaning.ofValue, h]

theorem sameMeaning_of_truth {e e' : Expr} {t t' : Context V → Truth}
    (he : meaning I e = .ofTruth t) (he' : meaning I e' = .ofTruth t')
    (h : t' ⟨s', []⟩ = t ⟨s, []⟩) : SameMeaning I s s' e e' := by
  refine ⟨?_, ?_, ?_⟩ <;> simp only [he, he', Meaning.ofTruth, h]

private theorem negatedTruth_rename {e : Expr} (h : SameMeaning I s s' e (renameExpression m e)) :
    negatedTruth ⟨s', []⟩ (renameExpression m e, meaning I (renameExpression m e)) =
      negatedTruth ⟨s, []⟩ (e, meaning I e) := by
  cases e with
  | whereSubqueryMarker k type =>
    cases type <;> first | exact h.truth | exact congrArg Truth.not h.truth
  | _ => exact congrArg Truth.not h.truth

/-- A renamed expression means on the new row what the old one means on the old row, if the new row
gives for the renamed references what the old one gave. -/
theorem sameMeaning_renameExpression (hm : RenamesD m) {e : Expr}
    (h : ∀ r ∈ references e, lookup s' (renamedReference m r) = lookup s r) (hreached : Reached e) :
    SameMeaning I s s' e (renameExpression m e) := by
  -- what is not reached has no attribute of D
  have hold (e : Expr) (h : ∀ r ∈ references e, lookup s' (renamedReference m r) = lookup s r)
      (hreached : ∀ n, .column n "d" ∉ references e) : SameMeaning I s s' e e := by
    have hagree : ContextAgree (references e) (⟨s', []⟩ : Context V) ⟨s, []⟩ := by
      refine ⟨fun r hr => ?_, .nil⟩
      rw [← h r hr, renamedReference_of_ne hm]
      rintro n rfl
      exact hreached n hr
    have hd := determined I e
    exact ⟨hd.value hagree, hd.truth hagree, hd.operand hagree⟩
  induction e using Expr.ind with
  | attr n a =>
    refine sameMeaning_of_value rfl rfl ?_
    have hlookup := h (.column n a) (by simp [references])
    rw [← hlookup]
    rfl
  | funcCall f args g d ih =>
    have hargs : ∀ e ∈ args, SameMeaning I s s' e (renameExpression m e) := fun e he =>
      ih e he (fun r hr => h r (mem_allReferences he hr))
        fun n hn => hreached n (mem_allHiddenReferences he hn)
    cases g with
    | true => exact sameMeaning_of_value rfl rfl rfl
    | false =>
      refine sameMeaning_of_value rfl rfl (congrArg (I.function f) ?_)
      exact map_meanings fun e he => (hargs e he).value
  | selectExpression e n ih => exact sameMeaning_of_value rfl rfl (ih h hreached).value
  | boolPredicate op args ih =>
    have hargs : ∀ e ∈ args, SameMeaning I s s' e (renameExpression m e) := fun e he =>
      ih e he (fun r hr => h r (mem_allReferences he hr))
        fun n hn => hreached n (mem_allHiddenReferences he hn)
    cases op with
    | and =>
      exact sameMeaning_of_truth rfl rfl
        (congrArg Truth.conj (map_meanings fun e he => (hargs e he).truth))
    | or =>
      exact sameMeaning_of_truth rfl rfl
        (congrArg Truth.disj (map_meanings fun e he => (hargs e he).truth))
    | not =>
      refine sameMeaning_of_truth rfl rfl (congrArg Truth.conj ?_)
      have hzip (es : List Expr) : es.zip (meanings I es) = es.map fun e => (e, meaning I e) := by
        rw [meanings_eq_map]
        induction es with
        | nil => rfl
        | cons e es ih => simp only [List.map_cons, List.zip_cons_cons, ih]
      rw [hzip, hzip, renameExpressions_eq_map, List.map_map, List.map_map, List.map_map]
      exact List.map_congr_left fun e he => negatedTruth_rename (hargs e he)
  | predicate l r op ihl ihr =>
    have hl := ihl (fun x hx => h x (List.mem_append_left _ hx))
      fun n hn => hreached n (List.mem_append_left _ hn)
    have hr := ihr (fun x hx => h x (List.mem_append_right _ hx))
      fun n hn => hreached n (List.mem_append_right _ hn)
    refine sameMeaning_of_truth rfl rfl ?_
    simp only [hl.operand, hr.operand]
  | _ => exact hold _ h hreached

end

end SqlOptimizer.Unnesting.Renaming
