import SqlOptimizer.Semantics.RowShape
import SqlOptimizer.Tree.Frames

/-!
Trees that yield the same rows below every environment, in any position of a larger
tree, and Selections that can change places with the operator below them.
-/

set_option autoImplicit false
set_option relaxedAutoImplicit false

namespace SqlOptimizer.Semantics.Equivalence

open Algebra.RelationalAlgebra
open Logic.NestedLoops Logic.ThreeValued
open Tree.Frames
open Evaluation References RowShape

variable {V : Type} (db : Database V) [DecidableEq V] (I : Interpretation V)

/-- The trees yield the same rows and are padded by the same row of NULLs. -/
structure Equivalent (x y : RaNode) : Prop where
  rows : ∀ env, evaluate db I x env = evaluate db I y env
  padding : nullRow db x = nullRow db y

variable {db I} {x y z : RaNode}

theorem Equivalent.refl (x : RaNode) : Equivalent db I x x := ⟨fun _ => rfl, rfl⟩

theorem Equivalent.symm (h : Equivalent db I x y) : Equivalent db I y x :=
  ⟨fun env => (h.rows env).symm, h.padding.symm⟩

theorem Equivalent.trans (h : Equivalent db I x y) (h' : Equivalent db I y z) :
    Equivalent db I x z :=
  ⟨fun env => (h.rows env).trans (h'.rows env), h.padding.trans h'.padding⟩

/-- Equivalent trees can replace each other below any operator. -/
theorem Equivalent.frame (h : Equivalent db I x y) (f : Frame) :
    Equivalent db I (f.plug x) (f.plug y) := by
  cases f with
  | unary i op =>
    cases op with
    | groupBy args implicit =>
      cases implicit <;>
        exact ⟨fun env => by simp only [Frame.plug, evaluate, h.rows, h.padding], h.padding⟩
    | projection pr =>
      exact ⟨fun env => by simp only [Frame.plug, evaluate, h.rows],
        by simp only [Frame.plug, nullRow, h.padding]⟩
    | _ => exact ⟨fun env => by simp only [Frame.plug, evaluate, h.rows], h.padding⟩
  | left i join r =>
    exact ⟨fun env => by simp only [Frame.plug, evaluate, h.rows, h.padding],
      by simp only [Frame.plug, nullRow, h.padding]⟩
  | right i join l =>
    exact ⟨fun env => by simp only [Frame.plug, evaluate, h.rows, h.padding],
      by simp only [Frame.plug, nullRow, h.padding]⟩

theorem Equivalent.plug (h : Equivalent db I x y) (K : List Frame) :
    Equivalent db I (plug K x) (plug K y) := by
  induction K generalizing x y with
  | nil => exact h
  | cons f K ih => exact ih (h.frame f)

/-- A join that filters the combinations of its inputs and renames nothing. -/
def isPlainJoin (join : Join) : Bool :=
  join.aliasName = "" ∧ join.marker = 0 ∧ (join.type = .crossProduct ∨ join.type = .inner)

/-- The bindings that an operator adds to the rows of a child. -/
def siblingRow (db : Database V) : Frame → Row V
  | .unary _ _ => []
  | .left _ join r =>
      if join.marker ≠ 0 then [.subquery join.marker none .unknown] else nullRow db r
  | .right _ _ l => nullRow db l

/-- The operator lets a condition on its rows pass to this child: Selections and inner
joins do, a left join on its preserved side and a marked join on its outer side. -/
def lets : Frame → Bool
  | .unary _ (.selection _) => true
  | .unary _ _ => false
  | .left _ join _ =>
      join.aliasName = "" ∧
        (join.marker ≠ 0 ∨ join.type = .crossProduct ∨ join.type = .inner ∨ join.type = .left)
  | .right _ join _ => isPlainJoin join

/-- A condition that reads the references can be checked below the operator. -/
def Transparent (db : Database V) (rs : List Reference) (f : Frame) : Prop :=
  lets f = true ∧ ∀ r ∈ rs, ¬ Offers (siblingRow db f) r

private theorem satisfies_left {c : Expr} {env : Row V} {a b : Tuple V}
    (h : ∀ r ∈ references c, ¬ Offers b.row r) :
    satisfies I env c (beside a b) = satisfies I env c a := by
  have hagree : Agree (references c) (a.row ++ b.row ++ env) (a.row ++ env) :=
    @agree_segment _ [] _ _ _ _ (fun r _ => by simp [Offers]) h
  simp only [satisfies, beside, truth_congr I hagree]

private theorem satisfies_right {c : Expr} {env : Row V} {a b : Tuple V}
    (h : ∀ r ∈ references c, ¬ Offers a.row r) :
    satisfies I env c (beside a b) = satisfies I env c b := by
  have hagree : Agree (references c) (a.row ++ b.row ++ [] ++ env) (b.row ++ env) :=
    agree_segment h fun r _ => by simp [Offers]
  rw [List.append_nil] at hagree
  simp only [satisfies, beside, truth_congr I hagree]

private theorem not_offers_of_shape {t : RaNode} {env : Row V} {s : Tuple V} {rs : List Reference}
    (hs : s ∈ evaluate db I t env) (h : ∀ r ∈ rs, ¬ Offers (nullRow db t) r) :
    ∀ r ∈ rs, ¬ Offers s.row r := by
  intro r hr hoff
  refine h r hr ?_
  rw [← shape_evaluate db I t env s hs]
  exact offers_erase.mpr hoff

omit [DecidableEq V] in
theorem renameTuple_eq_self {join : Join} (h : join.aliasName = "") (t : Tuple V) :
    renameTuple join t = t := by
  simp [renameTuple, renameJoin, h]

/-- A Selection can change places with an operator that is transparent for it. -/
theorem selection_frame {f : Frame} {c : Expr} (h : Transparent db (references c) f) (i : Nat) :
    Equivalent db I (.selection i c (f.plug x)) (f.plug (.selection i c x)) := by
  obtain ⟨hlets, hoff⟩ := h
  cases f with
  | unary j op =>
    cases op with
    | selection p =>
      refine ⟨fun env => ?_, rfl⟩
      simp only [Frame.plug, evaluate, List.filter_filter, Bool.and_comm]
    | _ => cases hlets
  | left j join r =>
    simp only [lets, decide_eq_true_eq] at hlets
    have hrename : renameTuple (V := V) join = id := funext (renameTuple_eq_self hlets.1)
    refine ⟨fun env => ?_, by simp only [Frame.plug, nullRow]⟩
    simp only [Frame.plug, evaluate, hrename, List.map_id]
    by_cases hm : join.marker ≠ 0
    · have hoff' := hoff
      simp only [siblingRow, if_pos hm] at hoff'
      simp only [if_pos hm, List.filter_map]
      refine congrArg _ (List.filter_congr fun t ht => ?_)
      exact satisfies_left fun r hr h => hoff' r hr (offers_erase.mpr h)
    · simp only [siblingRow, if_neg hm] at hoff
      have hbeside : ∀ a ∈ evaluate db I x env, ∀ b ∈ evaluate db I r env,
          satisfies I env c (beside a b) = satisfies I env c a :=
        fun a _ b hb => satisfies_left (not_offers_of_shape hb hoff)
      simp only [if_neg hm]
      rcases hlets.2 with hm' | htype | htype | htype
      · exact absurd hm' hm
      · simp only [htype]
        exact filter_innerJoin_left hbeside
      · simp only [htype]
        exact filter_innerJoin_left hbeside
      · simp only [htype]
        exact filter_leftJoin_left hbeside fun a _ => satisfies_left hoff
  | right j join l =>
    simp only [lets, isPlainJoin, decide_eq_true_eq] at hlets
    have hrename : renameTuple (V := V) join = id := funext (renameTuple_eq_self hlets.1)
    have hm : ¬ join.marker ≠ 0 := by simp [hlets.2.1]
    refine ⟨fun env => ?_, by simp only [Frame.plug, nullRow]⟩
    have hbeside : ∀ a ∈ evaluate db I l env, ∀ b ∈ evaluate db I x env,
        satisfies I env c (beside a b) = satisfies I env c b :=
      fun a ha b _ => satisfies_right (not_offers_of_shape ha hoff)
    simp only [Frame.plug, evaluate, hrename, List.map_id, if_neg hm]
    rcases hlets.2.2 with htype | htype <;>
      · simp only [htype]
        exact filter_innerJoin_right hbeside

theorem selection_comm {p q : Expr} (i j : Nat) :
    Equivalent db I (.selection i p (.selection j q x)) (.selection j q (.selection i p x)) :=
  selection_frame (f := .unary j (.selection q)) ⟨rfl, fun _ _ => by simp [siblingRow, Offers]⟩ i

/-- A Selection can be moved down along transparent operators. -/
theorem selection_plug {D : List Frame} {c : Expr}
    (h : ∀ f ∈ D, Transparent db (references c) f) (i : Nat) :
    Equivalent db I (.selection i c (plug D x)) (plug D (.selection i c x)) := by
  induction D generalizing x with
  | nil => exact .refl _
  | cons f D ih =>
    rw [List.forall_mem_cons] at h
    exact (ih h.2).trans ((selection_frame h.1 i).plug D)

end SqlOptimizer.Semantics.Equivalence
