import SqlOptimizer.Unnesting.Markers

/-!
The decorrelation of EXISTS and IN subqueries: the subquery becomes a CTE without its
correlating predicates, and a selection from the CTE takes its place.
-/

set_option autoImplicit false
set_option relaxedAutoImplicit false

namespace SqlOptimizer.Unnesting.ExistsIn

open Algebra.RelationalAlgebra
open Tree.Frames Tree.Walks
open Parse.Correlation (isTpchAttribute)
open Logic.NumberedNames Logic.Triples
open Objects Attributes Markers

/-- A correlating predicate: its outer and its inner attribute and its operator. -/
structure CorrelatingPredicate where
  outer : AttributeRef
  inner : AttributeRef
  binaryOperator : String
  deriving DecidableEq, Repr

/-- The attribute belongs to one of the relations; without a qualifier, only to one that has
no alias. -/
def foundRelation (relationsAliases : List (String × String)) (attr : AttributeRef) : Bool :=
  relationsAliases.any fun r =>
    (attr.2 ≠ "" && (attr.2 = r.1 || attr.2 = r.2)) ||
      (attr.2 = "" && r.2 = "" && isTpchAttribute attr.1 r.1)

/-- `RaTree::is_correlating_predicate`. -/
def isCorrelatingPredicate (relationsAliases : List (String × String)) (left right : Expr)
    (binaryOperator : String) : Option CorrelatingPredicate :=
  match left, right with
  | .attribute l la, .attribute r ra =>
      if foundRelation relationsAliases (r, ra) && foundRelation relationsAliases (l, la) then none
      else if !foundRelation relationsAliases (r, ra) && !foundRelation relationsAliases (l, la) then
        none
      else if !foundRelation relationsAliases (r, ra) then some ⟨(r, ra), (l, la), binaryOperator⟩
      else some ⟨(l, la), (r, ra), binaryOperator⟩
  | _, _ => none

section

variable (relationsAliases : List (String × String))

mutual

/-- `RaTree::get_correlating_predicates`. -/
def getCorrelatingPredicates : Expr → Option (List CorrelatingPredicate)
  | .nullptr => none
  | .boolPredicate _ args => getAllCorrelatingPredicates args
  | .predicate .nullptr _ _ => none
  | .predicate (.attribute _ _) .nullptr _ => none
  | .predicate l r op => some (isCorrelatingPredicate relationsAliases l r op).toList
  | _ => some []

def getAllCorrelatingPredicates : List Expr → Option (List CorrelatingPredicate)
  | [] => some []
  | e :: es =>
      (getCorrelatingPredicates e).bind fun ps => (getAllCorrelatingPredicates es).map (ps ++ ·)

end

end

/-- `RaTree::get_first_selection`: the first Selection of a depth-first walk with its
predicate. -/
def getFirstSelection : RaNode → Option (Nat × Expr)
  | .hole => none
  | .leaf _ _ => none
  | .unary i (.selection p) _ => some (i, p)
  | .unary _ _ c => getFirstSelection c
  | .join _ _ l r => (getFirstSelection l).or (getFirstSelection r)

/-- The Selection is taken out of the tree below `top`. Its parent must have a single child. -/
def removeSelection (sel : Nat) (top : RaNode) : Option RaNode :=
  match getNodeParent sel top, find? sel top with
  | some (.unary i _ _, _), some (.selection _ _ c) =>
      if c.isHole then none else some (update i (setOnlyChild c) top)
  | _, _ => none

/-- What is left of the first Selection: nothing, or a predicate. Every correlating predicate
removes the argument at position 0. -/
def remainingPredicate (p : Expr) (n : Nat) : Option (Option Expr) :=
  match p with
  | .boolPredicate op args =>
      if args.length ≤ 1 then none
      else if args.length < n then none
      else
        match args.drop n with
        | [] => some none
        | [e] => some (some e)
        | es => some (some (.boolPredicate op es))
  | _ => some none

/-- The body of the CTE: the tree below `cteProjection` after step 3.1. -/
def removeCorrelatingPredicates (sel : Nat) (p : Expr) (n : Nat) (cteProjection : RaNode) :
    Option RaNode :=
  (remainingPredicate p n).bind fun rest =>
    match rest with
    | none => removeSelection sel cteProjection
    | some e => some (update sel (setSelectionPredicate e) cteProjection)

/-- The predicate that compares a column of the CTE with the outer attribute. -/
def probePredicate (cteName : String) (p : CorrelatingPredicate) : Expr :=
  .predicate (.attribute p.inner.1 cteName) (.attribute p.outer.1 p.outer.2) p.binaryOperator

/-- The predicate of the selection from the CTE. -/
def probe (cteName : String) : List CorrelatingPredicate → Expr
  | [p] => probePredicate cteName p
  | ps => .boolPredicate .and (ps.map (probePredicate cteName))

/-- The columns of the CTE: the inner attributes. -/
def cteProjectionOf (cteName : String) (ps : List CorrelatingPredicate) : Projection where
  args := ps.map fun p => .attribute p.inner.1 p.inner.2
  subqueryAlias := cteName
  subqueryColumns := ps.map fun p => p.inner.1

/-- `childNodes[1] = child`. -/
def setRight (child : RaNode) : RaNode → RaNode
  | .join i join l _ => .join i join l child
  | t => t

/-- `RaTree::decorrelate_exists_in_subquery`. -/
def decorrelateExistsInSubquery (join : Nat) : Optimizer Unit := do
  let s ← get
  let subqueryProjection ← orCrash ((findObject s.tree join).bind fun j => j.childNodes[1]?)
  let body ← orCrash (firstChild subqueryProjection)
  let (sel, p) ← orCrash (getFirstSelection body)
  let ps ← orCrash (getCorrelatingPredicates (getRelationsAliases body) p)
  let cteId ← newNode
  let cteName ← newName "cte_"
  let cte ← orCrash (removeCorrelatingPredicates sel p ps.length
    (.projection cteId (cteProjectionOf cteName ps) body))
  let selId ← newNode
  let relId ← newNode
  let prId ← newNode
  match subqueryProjection with
  | .projection _ pr _ => do
      modifyObject join <| setRight <| .projection prId { args := pr.args } <|
        .selection selId (probe cteName ps) (.relation relId cteName "")
      pushCte cte
  | t => badCast t .projection

/-- The types of dependent EXISTS and IN subqueries. -/
def existsInTypes : List JoinType :=
  [.semiLeftDependent, .antiLeftDependent, .inLeftDependent, .antiInLeftDependent]

/-- `RaTree::decorrelate_all_exists_in_subqueries`. -/
def decorrelateAllExistsInSubqueries : Optimizer Unit :=
  forEachMarker existsInTypes fun _ join => decorrelateExistsInSubquery join

/-- A subquery with what the rewriting finds in it, and the CTE that it becomes. -/
structure Rewriting where
  projectionId : Nat
  projection : Projection
  body : RaNode
  selection : Nat
  predicate : Expr
  correlating : List CorrelatingPredicate
  cte : RaNode

namespace Rewriting

variable (w : Rewriting) (join : Nat) (s : State)

/-- The subquery is the right child of the join, and the rewriting is possible. -/
structure Applies : Prop where
  subquery : (findObject s.tree join).bind (fun j => j.childNodes[1]?) =
    some (.projection w.projectionId w.projection w.body)
  body : w.body.isHole = false
  selection : getFirstSelection w.body = some (w.selection, w.predicate)
  correlating : getCorrelatingPredicates (getRelationsAliases w.body) w.predicate =
    some w.correlating
  cte : removeCorrelatingPredicates w.selection w.predicate w.correlating.length
    (.projection s.tree.nextId
      (cteProjectionOf (numbered "cte_" s.tree.counter) w.correlating) w.body) = some w.cte

/-- The selection from the CTE. -/
def probeTree : RaNode :=
  .projection (s.tree.nextId + 3) { args := w.projection.args } <|
    .selection (s.tree.nextId + 1) (probe (numbered "cte_" s.tree.counter) w.correlating) <|
      .relation (s.tree.nextId + 2) (numbered "cte_" s.tree.counter) ""

/-- The state after the rewriting. -/
def result : State :=
  { s with
    tree := {
      root := update join (setRight (w.probeTree s)) s.tree.root
      ctes := s.tree.ctes.map (update join (setRight (w.probeTree s))) ++ [w.cte]
      counter := s.tree.counter + 1
      nextId := s.tree.nextId + 4 }
    names := s.names ++ [numbered "cte_" s.tree.counter] }

end Rewriting

private theorem firstChild_projection {i : Nat} {op : UnaryOp} {c body : RaNode} :
    firstChild (.unary i op c) = some body ↔ c.isHole = false ∧ c = body := by
  cases c <;> simp [firstChild, RaNode.childNodes, RaNode.isHole]

/-- What a call that does not fault does. -/
theorem decorrelateExistsInSubquery_eq_ok {join : Nat} {s s' : State} :
    outcome (decorrelateExistsInSubquery join) s = (.ok (), s') ↔
      ∃ w : Rewriting, w.Applies join s ∧ s' = w.result join s := by
  unfold decorrelateExistsInSubquery
  simp only [outcome_bind_eq_ok, outcome_get, outcome_orCrash_eq_ok, outcome_newNode,
    outcome_newName, Prod.mk.injEq, Except.ok.injEq]
  constructor
  · rintro ⟨_, _, ⟨rfl, rfl⟩, q, _, ⟨hq, rfl⟩, body, _, ⟨hbody, rfl⟩, ⟨sel, p⟩, _, ⟨hsel, rfl⟩, ps, _,
      ⟨hps, rfl⟩, _, _, ⟨rfl, rfl⟩, _, _, ⟨rfl, rfl⟩, cte, _, ⟨hcte, rfl⟩, _, _, ⟨rfl, rfl⟩, _, _,
      ⟨rfl, rfl⟩, _, _, ⟨rfl, rfl⟩, h⟩
    split at h
    · next i pr c =>
      obtain ⟨hhole, rfl⟩ := firstChild_projection.mp hbody
      refine ⟨⟨i, pr, c, sel, p, ps, cte⟩, ⟨hq, hhole, hsel, hps, hcte⟩, ?_⟩
      obtain ⟨_, _, hmodify, hpush⟩ := outcome_bind_eq_ok.mp h
      cases hmodify
      cases hpush
      rfl
    · exact absurd h outcome_badCast_ne_ok
  · rintro ⟨w, hw, rfl⟩
    refine ⟨_, _, ⟨rfl, rfl⟩, _, _, ⟨hw.subquery, rfl⟩, _, _,
      ⟨firstChild_projection.mpr ⟨hw.body, rfl⟩, rfl⟩, _, _, ⟨hw.selection, rfl⟩, _, _,
      ⟨hw.correlating, rfl⟩, _, _, ⟨rfl, rfl⟩, _, _, ⟨rfl, rfl⟩, _, _, ⟨hw.cte, rfl⟩, _, _, ⟨rfl, rfl⟩,
      _, _, ⟨rfl, rfl⟩, _, _, ⟨rfl, rfl⟩, ?_⟩
    rfl

end SqlOptimizer.Unnesting.ExistsIn
