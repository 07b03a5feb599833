import SqlOptimizer.Unnesting.LiftedConjuncts

/-!
The parser calls a subquery correlated for any outer attribute in it; the rewriting looks for
correlating predicates in its first Selection. What the rewriting needs to find there.
-/

set_option autoImplicit false
set_option relaxedAutoImplicit false

namespace SqlOptimizer.Unnesting.CorrelationAgreement

open Algebra.RelationalAlgebra
open Tree.Addresses Tree.Frames Tree.Walks
open Logic.NumberedNames Logic.Triples
open Parse.PgQuery
open Objects ExistsIn DecorrelateSubquery FirstSelection LiftedConjuncts

/-- The conjuncts of a condition. -/
def conjuncts : Expr → List Expr
  | .boolPredicate .and args => args
  | e => [e]

/-- The predicate is an AND without arguments. -/
def isEmptyAnd : Expr → Bool
  | .boolPredicate .and [] => true
  | _ => false

/-- The rewriting ends. It finds a Selection and builds a CTE with columns and a selection from it
with a condition; the Selection goes only when all its conjuncts are correlating. -/
def Agrees (join : Nat) (s : State) : Prop :=
  ∃ s' i pr body sel p, outcome (decorrelateExistsInSubquery join) s = (.ok (), s') ∧
    subqueryOf join s = some (.projection i pr body) ∧ getFirstSelection body = some (sel, p) ∧
    ∃ cteId cte cteBody i' pr' selId e relation,
      s'.tree.ctes.getLast? = some (.projection cteId cte cteBody) ∧ cte.args ≠ [] ∧
      (sel ∉ cteBody.ids →
        ∀ e ∈ conjuncts p, isCorrelatingConjunct (getRelationsAliases body) e = true) ∧
      subqueryOf join s' = some (.projection i' pr' (.selection selId e relation)) ∧
      isEmptyAnd e = false

/-- With `n` correlating predicates nothing is left of the condition. -/
def TakesAll (n : Nat) : Expr → Prop
  | .boolPredicate _ args => n = args.length
  | _ => True

instance (n : Nat) : ∀ p, Decidable (TakesAll n p)
  | .boolPredicate _ args => inferInstanceAs (Decidable (n = args.length))
  | .nullptr | .constant _ _ | .attribute _ _ | .funcCall _ _ _ _ | .typeCast _ _ _
  | .selectExpression _ _ | .expression _ _ _ | .list _ | .inList _ | .caseExpr _ _
  | .caseWhen _ _ | .predicate _ _ _ | .nullTest _ _ | .whereSubqueryMarker _ _ => .isTrue trivial

/-- The condition has so many arguments that `n` of them can be taken away. -/
def HasArgs (n : Nat) : Expr → Prop
  | .boolPredicate _ args => 2 ≤ args.length ∧ n ≤ args.length
  | _ => True

/-- What the rewriting needs: correlating predicates, arguments that can be taken away for them,
and, when all of them go, that they are the correlating conjuncts and that the Selection can go. -/
structure Analysed (subquery : RaNode) (relationsAliases : List (String × String)) (sel : Nat)
    (p : Expr) (qs : List CorrelatingPredicate) : Prop where
  found : qs ≠ []
  args : HasArgs qs.length p
  all : TakesAll qs.length p →
    (∀ e ∈ conjuncts p, isCorrelatingConjunct relationsAliases e = true) ∧ Removable sel subquery

instance (n : Nat) : ∀ p, Decidable (HasArgs n p)
  | .boolPredicate _ args => inferInstanceAs (Decidable (2 ≤ args.length ∧ n ≤ args.length))
  | .nullptr | .constant _ _ | .attribute _ _ | .funcCall _ _ _ _ | .typeCast _ _ _
  | .selectExpression _ _ | .expression _ _ _ | .list _ | .inList _ | .caseExpr _ _
  | .caseWhen _ _ | .predicate _ _ _ | .nullTest _ _ | .whereSubqueryMarker _ _ => .isTrue trivial

instance (subquery : RaNode) (relationsAliases : List (String × String)) (sel : Nat) (p : Expr)
    (qs : List CorrelatingPredicate) : Decidable (Analysed subquery relationsAliases sel p qs) :=
  decidable_of_iff (qs ≠ [] ∧ HasArgs qs.length p ∧ (TakesAll qs.length p →
      (∀ e ∈ conjuncts p, isCorrelatingConjunct relationsAliases e = true) ∧
        Removable sel subquery))
    ⟨fun h => ⟨h.1, h.2.1, h.2.2⟩, fun h => ⟨h.found, h.args, h.all⟩⟩

/-- The analysis of the subquery of a join. -/
def AnalysedAt (join : Nat) (s : State) : Prop :=
  ∃ x ∈ subqueryParts join s,
    ∃ qs ∈ getCorrelatingPredicates (getRelationsAliases x.2.2.1) x.2.2.2.2,
      Analysed (.projection x.1 x.2.1 x.2.2.1) (getRelationsAliases x.2.2.1) x.2.2.2.1 x.2.2.2.2 qs

instance (join : Nat) (s : State) : Decidable (AnalysedAt join s) :=
  inferInstanceAs (Decidable (∃ x ∈ subqueryParts join s,
    ∃ qs ∈ getCorrelatingPredicates (getRelationsAliases x.2.2.1) x.2.2.2.2,
      Analysed (.projection x.1 x.2.1 x.2.2.1) (getRelationsAliases x.2.2.1) x.2.2.2.1
        x.2.2.2.2 qs))

section

variable {n : Nat} {p : Expr} {rest : Option Expr}

theorem exists_rest_iff : (∃ rest, remainingPredicate p n = some rest) ↔ HasArgs n p := by
  cases p with
  | boolPredicate op args => exact exists_remainingPredicate_iff
  | _ => exact iff_of_true ⟨none, rfl⟩ trivial

theorem takesAll_iff (hargs : HasArgs n p) (hrest : remainingPredicate p n = some rest) :
    TakesAll n p ↔ rest = none := by
  cases p with
  | boolPredicate op args => exact (remainingPredicate_eq_none_iff hargs.2 hrest).symm
  | _ =>
    cases hrest
    exact iff_of_true trivial rfl

end

theorem isEmptyAnd_probe {cteName : String} {qs : List CorrelatingPredicate} :
    isEmptyAnd (probe cteName qs) = false ↔ qs ≠ [] := by
  match qs with
  | [] => exact iff_of_false nofun fun h => h rfl
  | [q] => exact iff_of_true rfl nofun
  | q :: q' :: qs => exact iff_of_true rfl nofun

section

variable {join : Nat} {s : State} {i : Nat} {pr : Projection} {K : List Frame} {sel : Nat}
  {p : Expr} {c : RaNode} (h : SubqueryAt join s i pr (plug K (.selection sel p c)) sel p)

include h

/-- The Selection is in the CTE unless nothing is left of it. -/
private theorem notMem_leftOver {rest : Option Expr} :
    sel ∉ (plug K (leftOver sel c rest)).ids ↔ rest = none := by
  have hd : Distinct (plug K (.selection sel p c)) := (List.nodup_cons.mp h.addressed.distinct).2
  cases rest with
  | none =>
    refine iff_of_true ?_ rfl
    rw [mem_ids_plug, not_or]
    exact ⟨hd.not_mem_context List.mem_cons_self,
      (List.nodup_cons.mp (distinct_plug.mp hd).2.1).1⟩
  | some e =>
    refine iff_of_false (fun hout => hout ?_) nofun
    exact mem_ids_plug.mpr (.inr List.mem_cons_self)

private theorem agrees_iff {qs : List CorrelatingPredicate}
    (hqs : getCorrelatingPredicates (getRelationsAliases (plug K (.selection sel p c))) p = some qs) :
    Agrees join s ↔ Analysed (.projection i pr (plug K (.selection sel p c)))
      (getRelationsAliases (plug K (.selection sel p c))) sel p qs := by
  constructor
  · rintro ⟨s', i', pr', body, sel', p', hrun, hsub, hsel, cteId, cte, cteBody, i'', pr'', selId, e,
      relation, hlast, hargs, hcor, hprobe, he⟩
    have hsub' := h.subquery.symm.trans hsub
    simp only [Option.some.injEq, RaNode.unary.injEq, UnaryOp.projection.injEq] at hsub'
    obtain ⟨rfl, rfl, rfl⟩ := hsub'
    obtain ⟨rfl, rfl⟩ := Prod.mk.inj (Option.some.inj (h.selection.symm.trans hsel))
    obtain ⟨rest, hrest, hremovable, rfl⟩ := (h.run_iff hqs).mp hrun
    have happlies := h.applies hqs hrest hremovable
    have hhas := exists_rest_iff.mp ⟨rest, hrest⟩
    simp only [Rewriting.result, rewritingTo, List.getLast?_concat, Option.some.injEq,
      RaNode.unary.injEq] at hlast
    obtain ⟨-, -, rfl⟩ := hlast
    rw [subqueryOf_result happlies, Option.some.injEq] at hprobe
    cases hprobe
    refine ⟨isEmptyAnd_probe.mp he, hhas, fun hall => ?_⟩
    have hnone := (takesAll_iff hhas hrest).mp hall
    exact ⟨hcor ((notMem_leftOver h).mpr hnone), hremovable hnone⟩
  · intro hanalysed
    obtain ⟨rest, hrest⟩ := exists_rest_iff.mpr hanalysed.args
    have htakes := takesAll_iff hanalysed.args hrest
    have hremovable (hnone : rest = none) := (hanalysed.all (htakes.mpr hnone)).2
    refine ⟨_, i, pr, _, sel, p, (h.run_iff hqs).mpr ⟨rest, hrest, hremovable, rfl⟩, h.subquery,
      h.selection, s.tree.nextId, cteProjectionOf (numbered "cte_" s.tree.counter) qs,
      plug K (leftOver sel c rest), _, _, _, _, _, ?_, ?_, fun hout => ?_,
      subqueryOf_result (h.applies hqs hrest hremovable), isEmptyAnd_probe.mpr hanalysed.found⟩
    · simp [Rewriting.result, rewritingTo]
    · simpa [cteProjectionOf] using hanalysed.found
    · exact (hanalysed.all (htakes.mpr ((notMem_leftOver h).mp hout))).1

end

private def equals (l r : List String) : PgNode := .aExpr .op "=" (.columnRef l) (.columnRef r)

/-- `select * from r where exists (select r.a from s where ..)`. -/
def existsSelecting (condition : PgNode) : PgNode :=
  .selectStmt false [.resTarget "" (.columnRef ["*"])] [.rangeVar "r" none]
    (.subLink .exists .nullptr <|
      .selectStmt false [.resTarget "" (.columnRef ["r", "a"])] [.rangeVar "s" none]
        condition [] .nullptr [] []) [] .nullptr [] []

/-- The joins of the tree with their types. -/
private def joinTypes (s : State) : List (Nat × JoinType) :=
  (Attributes.joins s.tree.root).map fun j => (j.1, j.2.type)

end SqlOptimizer.Unnesting.CorrelationAgreement
