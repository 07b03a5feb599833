import SqlOptimizer.Tree.PushDownMeaning

/-!
`push_down_predicates` above LEFT joins. The position of a conjunct is chosen by relation
names alone, so it can end below the null-supplying side or in the ON condition.
-/

set_option autoImplicit false
set_option relaxedAutoImplicit false

namespace SqlOptimizer.Tree.OuterJoins

open Algebra.RelationalAlgebra
open Logic.ThreeValued
open Frames Walks PushDown PushDownRun PushDownConditions PushDownMeaning
open Semantics.Evaluation Semantics.References Semantics.Equivalence
open Logic.Runs (AtEveryStep)

/-- Push-down keeps the rows of the tree on the database. -/
def KeepsRows {V : Type} [DecidableEq V] (cp : Bool) (db : Database V) (t : RaTree) : Prop :=
  ∃ t', pushDownPredicates cp t = some t' ∧
    ∀ (I : Interpretation V) (env : Row V), evaluate db I t'.root env = evaluate db I t.root env

/-- If no step takes its conjunct past the null-supplying side of a LEFT join, into an ON
condition of one or past another operator that is not transparent for it, push-down keeps
the rows. -/
theorem pushDownPredicates_keepsRows {V : Type} [DecidableEq V] (db : Database V) (cp : Bool)
    {t : RaTree} (ht : WellFormed t) (hcond : ∀ s ∈ getAllSelections t.root, IsCondition s.2.1)
    (hrels : ∀ s ∈ getAllSelections t.root, ∀ c ∈ conjuncts s.2.1,
      (getPredicateRelations c).isSome)
    (h : ∀ ss, steps t.root = some ss → AtEveryStep (step cp) (Harmless cp db) ss (detached t)) :
    KeepsRows cp db t := by
  obtain ⟨ss, hss⟩ := (steps_isSome_iff hcond).mpr hrels
  obtain ⟨sss, hflat, hsels⟩ := steps_eq_some_iff.mp hss
  obtain ⟨t', ht', -⟩ := (runInvariant_carries cp t.root).exists_run (runInvariant_detached ht hss)
  have hrun : pushDownPredicates cp t = some t' := by
    rw [pushDownPredicates, hss]
    exact ht'
  refine ⟨t', hrun, fun I env => ?_⟩
  obtain ⟨t'', ht'', hequiv⟩ := pushDownPredicates_equivalent cp ht hcond hss (h ss hss) (I := I)
  obtain rfl : t'' = t' := Option.some.inj (ht''.symm.trans hrun)
  exact hequiv.rows env

/-- `left join .. on a.k=b.k`. -/
def onKeys : Join where
  type := .left
  predicate := .predicate (.attribute "k" "a") (.attribute "k" "b") "="

/-- `select * from a left join b on a.k=b.k where predicate`. -/
def leftJoinQuery (predicate : Expr) : RaTree where
  root := .projection 1 { args := [.selectExpression (.attribute "*" "") ""] }
    (.selection 2 predicate (.join 3 onKeys (.relation 4 "a" "") (.relation 5 "b" "")))
  nextId := 6

private theorem wellFormed_leftJoinQuery (p : Expr) : WellFormed (leftJoinQuery p) := by
  refine ⟨?_, ⟨trivial, trivial⟩, ?_, rfl⟩
  · simp only [Distinct, leftJoinQuery, RaNode.ids]
    decide
  · simp only [leftJoinQuery, RaNode.ids]
    decide

/-- One table `k` with the single row 1 for every relation name. -/
def oneRow : Database Nat := fun _ => ⟨["k"], [[some 1]], by simp⟩

/-- Comparisons are equality. -/
def equality : Interpretation Nat where
  constant _ _ := none
  function _ _ := none
  aggregate _ _ := none
  unary _ _ := none
  binary _ _ _ := none
  cast _ _ v := v
  compare _ l r := if l.any Option.isNone || r.any Option.isNone then .unknown else .ofBool (l = r)
  holds _ := .unknown

/-- `b.k is null` is checked before the left join pads its rows: the row that has a match
comes back without it. -/
theorem antiJoin_changes_rows :
    ¬ ∀ (cp : Bool) (t : RaTree), WellFormed t →
      (∀ s ∈ getAllSelections t.root, IsCondition s.2.1) →
      ∀ (V : Type) [DecidableEq V] (db : Database V), KeepsRows cp db t := by
  intro h
  obtain ⟨t', ht', hrows⟩ := h false (leftJoinQuery (.nullTest (.attribute "k" "b") .isNull))
    (wellFormed_leftJoinQuery _) (by
      simp only [leftJoinQuery, getAllSelections, List.append_nil, List.forall_mem_cons,
        List.not_mem_nil, false_implies, implies_true, and_true]
      exact .nullTest _ _) Nat oneRow
  obtain rfl := Option.some.inj ht'
  have hlength := congrArg List.length (hrows equality [])
  revert hlength
  decide

/-- A condition on the preserved side keeps the rows. -/
theorem preservedSide_keepsRows :
    KeepsRows false oneRow
      (leftJoinQuery (.predicate (.attribute "k" "a") (.constant "1" .int) "=")) := by
  refine pushDownPredicates_keepsRows oneRow false (wellFormed_leftJoinQuery _) ?_ ?_ ?_
  · simp only [leftJoinQuery, getAllSelections, List.append_nil, List.forall_mem_cons,
      List.not_mem_nil, false_implies, implies_true, and_true]
    exact .predicate _ _ _
  · simp only [leftJoinQuery, getAllSelections, List.append_nil, List.forall_mem_cons,
      List.not_mem_nil, false_implies, implies_true, and_true]
    decide
  · intro ss hss
    obtain rfl := Option.some.inj hss
    refine ⟨fun pos p child hpos hfind => ?_, fun _ _ => ⟨trivial, fun _ _ => trivial⟩⟩
    obtain rfl := Option.some.inj hpos
    cases hfind
    refine ⟨rfl, fun _ => ?_, fun k join l r hreceiver => ?_⟩
    · intro f hf
      change f ∈ [Frame.left 3 onKeys (.relation 5 "b" "")] at hf
      obtain rfl := List.mem_singleton.mp hf
      simp [Transparent, lets, onKeys, references, siblingRow, nullRow, qualifier, Offers, resolve]
    · cases hreceiver

end SqlOptimizer.Tree.OuterJoins
