import SqlOptimizer.Semantics.Equivalence

/-!
The rows above a stack of Selections and joins. Each comes from one row below the stack, to
which the joins have added the bindings of their other sides.
-/

set_option autoImplicit false
set_option relaxedAutoImplicit false

namespace SqlOptimizer.Semantics.RowsAbove

open Algebra.RelationalAlgebra
open Tree.Frames
open Logic.NestedLoops Logic.ThreeValued
open Semantics.Evaluation Semantics.References Semantics.RowShape Semantics.Equivalence

/-- Selections, inner joins and cross products, and left joins above their preserved side. -/
def isStackFrame : Frame → Bool
  | .unary _ (.selection _) => true
  | .unary _ _ => false
  | .left _ join _ => isPlainJoin join ||
      (join.aliasName = "" ∧ join.marker = 0 ∧ join.type = .left)
  | .right _ join _ => isPlainJoin join

variable {V : Type} [DecidableEq V] (db : Database V) (I : Interpretation V) (env : Row V)

/-- A row of a tree becomes the second row above the operator. -/
def Extends : Frame → Tuple V → Tuple V → Prop
  | .unary _ (.selection p), u, t => t = u ∧ satisfies I env p t = true
  | .unary _ _, _, _ => False
  | .left _ join r, u, t =>
      (∃ b ∈ evaluate db I r env, t = beside u b ∧ satisfies I env join.predicate t = true) ∨
      join.type = .left ∧ t = beside u ⟨nullRow db r, []⟩ ∧
        ∀ b ∈ evaluate db I r env, satisfies I env join.predicate (beside u b) = false
  | .right _ join l, u, t =>
      ∃ a ∈ evaluate db I l env, t = beside a u ∧ satisfies I env join.predicate t = true

variable {db I env}

private theorem mem_evaluate_plainJoin {i : Nat} {join : Join} {l r : RaNode} {t : Tuple V}
    (h : isPlainJoin join = true) : t ∈ evaluate db I (.join i join l r) env ↔
      ∃ a ∈ evaluate db I l env, ∃ b ∈ evaluate db I r env, t = beside a b ∧
        satisfies I env join.predicate t = true := by
  simp only [isPlainJoin, decide_eq_true_eq] at h
  obtain ⟨halias, hmarker, htype⟩ := h
  have hrename (ts : List (Tuple V)) : ts.map (renameTuple join) = ts := by
    conv_rhs => rw [← List.map_id ts]
    exact List.map_congr_left fun t _ => renameTuple_eq_self halias t
  rw [evaluate, hrename, if_neg (by simp [hmarker])]
  rcases htype with htype | htype <;> simp only [htype, mem_innerJoin]

/-- The rows above an operator. -/
theorem mem_evaluate_plug {f : Frame} (h : isStackFrame f = true) {x : RaNode} {t : Tuple V} :
    t ∈ evaluate db I (f.plug x) env ↔ ∃ u ∈ evaluate db I x env, Extends db I env f u t := by
  cases f with
  | unary i op =>
    cases op with
    | selection p =>
      rw [Frame.plug, evaluate, List.mem_filter]
      simp [Extends]
    | _ => cases h
  | left i join r =>
    cases hplain : isPlainJoin join with
    | true =>
      have hne : join.type ≠ .left := by
        simp only [isPlainJoin, decide_eq_true_eq] at hplain
        rcases hplain.2.2 with htype | htype <;> simp [htype]
      rw [Frame.plug, mem_evaluate_plainJoin hplain]
      simp [Extends, hne]
    | false =>
      simp only [isStackFrame, hplain, Bool.false_or, decide_eq_true_eq] at h
      obtain ⟨halias, hmarker, htype⟩ := h
      have hrename (ts : List (Tuple V)) : ts.map (renameTuple join) = ts := by
        conv_rhs => rw [← List.map_id ts]
        exact List.map_congr_left fun t _ => renameTuple_eq_self halias t
      rw [Frame.plug, evaluate, hrename, if_neg (by simp [hmarker])]
      simp only [htype, mem_leftJoin, Extends, true_and]
  | right i join l =>
    rw [Frame.plug, mem_evaluate_plainJoin h]
    constructor
    · rintro ⟨a, ha, b, hb, h⟩
      exact ⟨b, hb, a, ha, h⟩
    · rintro ⟨b, hb, a, ha, h⟩
      exact ⟨a, ha, b, hb, h⟩

/-- The condition of an operator of the stack. -/
def conditionOf : Frame → Option Expr
  | .unary _ (.selection p) => some p
  | .unary _ _ => none
  | .left _ join _ => some join.predicate
  | .right _ join _ => some join.predicate

/-- The operator is a left join. -/
def isLeftJoin : Frame → Bool
  | .unary _ _ => false
  | .left _ join _ => join.type = .left
  | .right _ join _ => join.type = .left

/-- All rows above an operator other than a left join satisfy its condition. -/
theorem satisfies_of_extends {f : Frame} {u t : Tuple V} (h : Extends db I env f u t)
    (hleft : isLeftJoin f = false) {p : Expr} (hp : conditionOf f = some p) :
    satisfies I env p t = true := by
  cases f with
  | unary i op =>
    cases op with
    | selection q =>
      cases hp
      exact h.2
    | _ => cases hp
  | left i join r =>
    cases hp
    rcases h with ⟨b, -, -, hsat⟩ | ⟨htype, -⟩
    · exact hsat
    · simp [isLeftJoin, htype] at hleft
  | right i join l =>
    cases hp
    obtain ⟨a, -, -, hsat⟩ := h
    exact hsat

/-- What the other side of the operator does not offer is read from the row below. -/
theorem lookup_of_extends {f : Frame} {u t : Tuple V} (h : Extends db I env f u t)
    (hframe : isStackFrame f = true) {ref : Reference} (hoff : ¬ Offers (siblingRow db f) ref) :
    lookup (t.row ++ env) ref = lookup (u.row ++ env) ref := by
  have hafter {b : Row V} (hb : ¬ Offers b ref) :
      lookup (u.row ++ b ++ env) ref = lookup (u.row ++ env) ref := by
    rw [List.append_assoc]
    exact lookup_append_congr (lookup_append_left hb)
  have hshape {x : RaNode} {b : Tuple V} (hb : b ∈ evaluate db I x env)
      (hoff : ¬ Offers (nullRow db x) ref) : ¬ Offers b.row ref := by
    rw [← offers_erase, shape_evaluate db I x env b hb]
    exact hoff
  cases f with
  | unary i op =>
    cases op with
    | selection p => rw [h.1]
    | _ => cases h
  | left i join r =>
    have hmarker : join.marker = 0 := by
      simp only [isStackFrame, isPlainJoin, Bool.or_eq_true, decide_eq_true_eq] at hframe
      exact hframe.elim (fun h => h.2.1) fun h => h.2.1
    rw [siblingRow, if_neg (by simp [hmarker])] at hoff
    rcases h with ⟨b, hb, rfl, -⟩ | ⟨-, rfl, -⟩
    · exact hafter (hshape hb hoff)
    · exact hafter hoff
  | right i join l =>
    obtain ⟨a, ha, rfl, -⟩ := h
    rw [beside, List.append_assoc, lookup_append_left (hshape ha hoff)]

/-- What each operator of a stack passes on from the row below holds of all rows above. -/
theorem forall_evaluate_plug {Q : Tuple V → Prop} {L : List Frame} {x : RaNode}
    (hL : ∀ f ∈ L, isStackFrame f = true) (hx : ∀ u ∈ evaluate db I x env, Q u)
    (hstep : ∀ f ∈ L, ∀ u t, Extends db I env f u t → Q u → Q t) :
    ∀ t ∈ evaluate db I (plug L x) env, Q t := by
  induction L generalizing x with
  | nil => exact hx
  | cons f L ih =>
    rw [List.forall_mem_cons] at hL hstep
    refine ih hL.2 (fun t ht => ?_) hstep.2
    obtain ⟨u, hu, hext⟩ := (mem_evaluate_plug hL.1).mp ht
    exact hstep.1 u t hext (hx u hu)

end SqlOptimizer.Semantics.RowsAbove
