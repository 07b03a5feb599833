import SqlOptimizer.Parse.ParseSqlToRa
import SqlOptimizer.Tree.PushDown
import SqlOptimizer.Unnesting.Decouple
import SqlOptimizer.Unnesting.ExistsIn

/-!
The decorrelation of scalar subqueries, and `optimize` with all its passes. A loop that has
not ended when the fuel is used up gives `outOfFuel`.
-/

set_option autoImplicit false
set_option relaxedAutoImplicit false

namespace SqlOptimizer.Unnesting.DecorrelateSubquery

open Algebra.RelationalAlgebra
open Tree.Frames Tree.Walks
open Tree.PushDown (addPredicateToSelection pushDownPredicates)
open Parse.PgQuery Parse.ParseSqlToRa
open Logic.Triples
open Objects Attributes Markers PushDownDepJoin Decouple ExistsIn

/-- Step 0: the marker is replaced with the attribute that the derived table produces. -/
def replaceMarker (marker : Nat) (subqueryAlias : String) : Optimizer Unit := do
  let search := findMarkerParent marker (.attribute "m" subqueryAlias) (← getRoot)
  logCasts search.badCasts
  match search.result with
  | .found sel p => modifyRoot (update sel (setSelectionPredicate p))
  | _ => crash

/-- Steps 1 and 2 at the join of the subquery: it becomes a cross product, and a dependent join
with an empty projection D comes below the projection on its right. -/
def openSubquery (subqueryAlias : String) (depJoin d : Nat) : RaNode → RaNode
  | .join i join l (.projection p pr body) =>
      .join i { join with type := .crossProduct, marker := 0 } l
        (.projection p { pr with
            subqueryAlias := subqueryAlias
            subqueryColumns := pr.subqueryColumns ++ ["m"] }
          (.join depJoin { type := .dependentInnerLeft }
            (.projection d { args := [], subqueryAlias := "d" } l) body))
  | t => t

/-- The attributes that D passes on, with the qualifiers they have when the loop of step 2.1
comes to them: an object that occurs twice has been renamed by then. -/
def newColumns : List (Nat × Nat) → List String → List Occurrence → List AttributeRef
  | _, _, [] => []
  | changed, seen, o :: os =>
      let aliasName := if (o.node, o.index) ∈ changed then "d" else o.aliasName
      if aliasName ++ o.name ∈ seen then newColumns ((o.node, o.index) :: changed) seen os
      else
        (o.name, aliasName) ::
          newColumns ((o.node, o.index) :: changed) ((aliasName ++ o.name) :: seen) os

/-- The address of an attribute object. -/
def objectOf (o : Occurrence) : Nat × Nat := (o.node, o.index)

/-- The qualifier that the loop finds. -/
def currentAlias (changed : List (Nat × Nat)) (o : Occurrence) : String :=
  if objectOf o ∈ changed then "d" else o.aliasName

/-- The columns of D and of the derived table. -/
def addColumnsToD (columns : List AttributeRef) : RaNode → RaNode
  | .projection i pr c =>
      .projection i { pr with
        args := pr.args ++ columns.map fun a => .attribute a.1 ""
        subqueryColumns := pr.subqueryColumns ++ columns.map Prod.fst } c
  | t => t

def addColumnsToRight (subqueryAlias : String) (columns : List AttributeRef) : RaNode → RaNode
  | .projection i pr c =>
      .projection i { pr with
        args := pr.args ++ columns.map fun a => .attribute a.1 "d"
        subqueryColumns := pr.subqueryColumns ++ columns.map fun a =>
          subqueryAlias ++ "_" ++ a.1 } c
  | t => t

/-- The condition that joins the outer query with the derived table on one column. -/
def columnPredicate (subqueryAlias : String) (a : AttributeRef) : Expr :=
  .predicate (.attribute a.1 a.2) (.attribute (subqueryAlias ++ "_" ++ a.1) subqueryAlias) "="

/-- The correlated attributes of the subtree get the qualifier `d`. -/
def qualifyByD (d subtree : RaNode) (name aliasName : String) : String × String :=
  if isCorrelated d subtree name aliasName then (name, "d") else (name, aliasName)

/-- An empty Selection above the join. -/
def aboveJoin (sel join : Nat) : RaNode → RaNode
  | .join i j l r => if i = join then .selection sel .nullptr (.join i j l r) else .join i j l r
  | t => t

/-- The parent of the join as the code finds it: a Selection, or a node between which and the join
an empty Selection is put; `original_dep_join_selection` stays at that node. -/
def selectionAbove (join : Nat) : Optimizer RaNode := do
  let root ← getRoot
  let parent ← orCrash (getNodeParent join root)
  match parent.1 with
  | .selection _ _ _ => return parent.1
  | _ => do
      let sel ← newNode
      let i ← orCrash parent.1.id?
      modifyRoot (update i (mapChildren (aboveJoin sel join)))
      return parent.1

/-- The conditions on the columns are added to the node that is taken for a Selection. -/
def addColumnPredicates (subqueryAlias : String) (columns : List AttributeRef) (above : RaNode) :
    Optimizer Unit :=
  match columns, above with
  | [], _ => pure ()
  | cs, .selection i _ _ => cs.forM fun a =>
      modifyRoot (update i (addPredicateToSelection (columnPredicate subqueryAlias a)))
  | _, t => badCast t .selection

/-- What steps 1 and 2 find before they add columns: the node that is taken for the Selection
above the join, D, the subtree below the derived table, and its attributes that belong to D. -/
structure Opened where
  above : RaNode
  dProjection : RaNode
  subtree : RaNode
  correlated : List Occurrence

namespace Opened

/-- The attributes that D passes on. -/
def columns (o : Opened) : List AttributeRef := newColumns [] [] o.correlated

end Opened

/-- Steps 1 and 2 up to the attributes that refer to the outer side. -/
def openDepJoin (join : Nat) (subqueryAlias : String) (depJoin d : Nat) (body : RaNode) :
    Optimizer Opened := do
  modifyRoot (update join (openSubquery subqueryAlias depJoin d))
  let above ← selectionAbove join
  let subtree ← orCrash (firstChild body)
  let root ← getRoot
  let dProjection ← orCrash (find? d root)
  let correlated ← orCrash (intersectCorrelatedAttributes root dProjection subtree)
  return { above, dProjection, subtree, correlated }

/-- The derived table that a subquery becomes, by the addresses of its nodes. -/
structure DerivedTable where
  rightProjection : Nat
  depJoin : Nat
  d : Nat

/-- The rest of steps 1 and 2: the columns of the derived table and of D. -/
def addColumns (subqueryAlias : String) (t : DerivedTable) (o : Opened) : Optimizer Unit := do
  modifyRoot (update t.rightProjection (addColumnsToRight subqueryAlias o.columns))
  modifyRoot (update t.d (addColumnsToD o.columns))
  addColumnPredicates subqueryAlias o.columns o.above
  modifyRoot (updateAll (mapNodeAttributes (qualifyByD o.dProjection o.subtree))
    (o.correlated.map Occurrence.node))

/-- Step 3: the queue of dependent joins, and those that are pushed down already. -/
def pushDownLoop (rightProjection : Nat) : Nat → List Nat → List Nat → Optimizer (List Nat)
  | 0, _, _ => throw .outOfFuel
  | _ + 1, [], pushed => pure pushed
  | fuel + 1, depJoin :: queue, pushed => do
      let root ← getRoot
      match find? depJoin root with
      | some (.join _ _ d r) => do
          let correlated ← orCrash (intersectCorrelatedAttributes root d r)
          if correlated.isEmpty then pushDownLoop rightProjection fuel queue (pushed ++ [depJoin])
          else do
            let next ← pushDownDepJoin depJoin rightProjection
            pushDownLoop rightProjection fuel (depJoin :: (queue ++ next.toList)) pushed
      | _ => crash

def setJoinType (type : JoinType) : RaNode → RaNode
  | .join i join l r => .join i { join with type := type } l r
  | t => t

def setLeft (child : RaNode) : RaNode → RaNode
  | .join i join _ r => .join i join child r
  | t => t

/-- `childNodes[1]` in the place of the join. -/
def keepRight : RaNode → RaNode
  | .join _ _ _ r => r
  | t => t

/-- Step 4: the dependent join is dropped, and the attributes of D are replaced by those that
equal them. -/
def dropDepJoin (depJoin : Nat) (parentProjection : Nat) (renames : RenameMap) :
    Optimizer Unit := do
  modifyRoot (update depJoin keepRight)
  let root ← getRoot
  let it ← orCrash (find? parentProjection root)
  let renamed ← orCrash (renameAttributes renames none it root)
  modifyRoot fun _ => renamed
  let it ← orCrash (find? parentProjection renamed)
  (getAllSelections it).forM fun s => do
    let root ← orCrash (removeRedundantIn s.1 (← getRoot))
    modifyRoot fun _ => root

/-- The projection of the CTE over the outer side. -/
def outerProjection (cteName : String) (attributes : List AttributeRef) : Projection where
  args := (distinctAttributes [] attributes).map fun a => .selectExpression (.attribute a.1 a.2) ""
  subqueryAlias := cteName

/-- The qualifiers of the relations of the CTE become its name. -/
def cteRenames (cteName : String) (relations : List (String × String)) : RenameMap :=
  relations.foldl (fun m r => m.set (visibleName r) "" cteName "") []

/-- Step 5: the outer side is moved to a CTE. -/
def moveToCte (join d : Nat) : Optimizer Unit := do
  let outer ← orCrash ((find? join (← getRoot)).bind fun j =>
    match j with
    | .join _ _ l _ => some l
    | _ => none)
  let cteId ← newNode
  let cteName ← newName "cte_"
  let relations := getRelationsAliases outer
  let relId ← newNode
  let relation := RaNode.relation relId cteName ""
  modifyRoot (update join (setLeft relation))
  modifyRoot (update d (setOnlyChild relation))
  let root ← getRoot
  let attributes ← orCrash
    (findAttributesUsingAlias (relations.map visibleName) none false root)
  pushCte (.projection cteId (outerProjection cteName attributes) outer)
  let renamed ← orCrash (renameAttributes (cteRenames cteName relations) none root root)
  modifyRoot fun _ => renamed

/-- One dependent join in the loop of steps 4 and 5: whether the CTE is set up, and the rename map,
before and after. -/
def decoupleDepJoin (join d rightProjection : Nat) (s : Bool × RenameMap) (depJoin : Nat) :
    Optimizer (Bool × RenameMap) := do
  modifyRoot (update depJoin (setJoinType .crossProduct))
  let top ← orCrash (find? rightProjection (← getRoot))
  let above ← orCrash (ancestors depJoin top)
  let parentProjection ← orCrash (above.find? isProjection)
  let i ← orCrash parentProjection.id?
  let (decoupled, renames) ← orCrash (canDecouple depJoin parentProjection s.2)
  if decoupled then do
    dropDepJoin depJoin i renames
    return (s.1, renames)
  else if s.1 then return (true, renames)
  else do
    moveToCte join d
    return (true, renames)

/-- The steps of `decorrelate_subquery` up to the attributes that refer to the outer side. -/
def openTable (marker join : Nat) (subqueryAlias : String) : Optimizer (DerivedTable × Opened) := do
  replaceMarker marker subqueryAlias
  let s ← get
  match findObject s.tree join with
  | some (.join _ j l (.projection rightProjection _ body)) => do
      assert (j.predicate.isPresent = false ∧ l.isHole = false ∧ body.isHole = false)
      let depJoin ← newNode
      let d ← newNode
      logName "d"
      let o ← openDepJoin join subqueryAlias depJoin d body
      return ({ rightProjection, depJoin, d }, o)
  | some (.join _ j l r) => do
      assert (j.predicate.isPresent = false ∧ l.isHole = false ∧ r.isHole = false)
      badCast r .projection
  | _ => crash

/-- Steps 0 to 2. -/
def setUpTable (marker join : Nat) (subqueryAlias : String) : Optimizer DerivedTable := do
  let (t, o) ← openTable marker join subqueryAlias
  addColumns subqueryAlias t o
  return t

/-- The steps of `decorrelate_subquery` once the derived table has its alias. -/
def replaceSubquery (fuel marker join : Nat) (subqueryAlias : String) : Optimizer Unit := do
  let t ← setUpTable marker join subqueryAlias
  let depJoins ← pushDownLoop t.rightProjection fuel [t.depJoin] []
  let _ ← depJoins.foldlM (decoupleDepJoin join t.d t.rightProjection) (false, [])

/-- `RaTree::decorrelate_subquery`. -/
def decorrelateSubquery (fuel marker join : Nat) : Optimizer Unit := do
  let subqueryAlias ← newName "t"
  replaceSubquery fuel marker join subqueryAlias

/-- `RaTree::general_query_unnesting`. -/
def generalQueryUnnesting (fuel : Nat) : Optimizer Unit :=
  forEachMarker [.dependentInnerLeft] (decorrelateSubquery fuel)

/-- `push_down_predicates(false)`, which is also its second call: `convert_cp_to_join` is
false. -/
def pushDown : Optimizer Unit := do
  let s ← get
  let tree ← orCrash (pushDownPredicates false s.tree)
  set { s with tree := tree }

/-- `RaTree::optimize`. -/
def optimize (fuel : Nat) : Optimizer Unit := do
  pushDown
  decorrelateAllExistsInSubqueries
  generalQueryUnnesting fuel
  pushDown

/-- The state in which `optimize` ends for a statement, unless it faults. -/
def rewritten (stmt : PgNode) (fuel : Nat) : Option State :=
  (parse stmt).bind fun p =>
    match outcome (optimize fuel) (ofParser p.1 p.2) with
    | (.ok _, s) => some s
    | (.error _, _) => none

theorem rewritten_eq_some {stmt : PgNode} {fuel : Nat} {s' : State} :
    rewritten stmt fuel = some s' ↔ ∃ t s, parse stmt = some (t, s) ∧
      outcome (optimize fuel) (ofParser t s) = (.ok (), s') := by
  simp only [rewritten, Option.bind_eq_some_iff]
  constructor
  · rintro ⟨⟨t, s⟩, hparse, hrun⟩
    refine ⟨t, s, hparse, ?_⟩
    split at hrun
    · next h => exact Option.some.inj hrun ▸ h
    · cases hrun
  · rintro ⟨t, s, hparse, hrun⟩
    exact ⟨(t, s), hparse, by rw [hrun]⟩

/-- The state in which the pass over the EXISTS and IN subqueries of a statement starts. -/
def beforeExistsIn (stmt : PgNode) : Option State :=
  (parse stmt).bind fun p =>
    match outcome pushDown (ofParser p.1 p.2) with
    | (.ok _, s) => some s
    | (.error _, _) => none

theorem beforeExistsIn_eq_some {stmt : PgNode} {s₁ : State} :
    beforeExistsIn stmt = some s₁ ↔ ∃ t s, parse stmt = some (t, s) ∧
      outcome pushDown (ofParser t s) = (.ok (), s₁) := by
  simp only [beforeExistsIn, Option.bind_eq_some_iff]
  constructor
  · rintro ⟨⟨t, s⟩, hparse, hrun⟩
    refine ⟨t, s, hparse, ?_⟩
    split at hrun
    · next h => exact Option.some.inj hrun ▸ h
    · cases hrun
  · rintro ⟨t, s, hparse, hrun⟩
    exact ⟨(t, s), hparse, by rw [hrun]⟩

end SqlOptimizer.Unnesting.DecorrelateSubquery
