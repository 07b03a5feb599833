import SqlOptimizer.Parse.Correlation
import SqlOptimizer.Unnesting.Objects

/-!
The walks over attributes in `ra_tree.cc`. Several of them visit the same nodes: they
collect attributes, compare them with relations or change their qualifiers.
-/

set_option autoImplicit false
set_option relaxedAutoImplicit false

namespace SqlOptimizer.Unnesting.Attributes

open Algebra.RelationalAlgebra
open Tree.Frames Tree.Walks
open Parse.Correlation (isTpchAttribute)

/-- The name and the qualifier of an attribute. -/
abbrev AttributeRef := String × String

/-- What the collectors meet in an expression or predicate. -/
inductive Item where
  | attribute (name aliasName : String)
  | marker (marker : Nat) (type : JoinType)
  deriving DecidableEq, Repr

mutual

/-- `RaTree::get_expression_attributes`. -/
def getExpressionAttributes : Expr → Option (List Item)
  | .nullptr => none
  | .attribute name aliasName => some [.attribute name aliasName]
  | .expression .nullptr .nullptr _ => some []
  | .expression .nullptr r _ => getExpressionAttributes r
  | .expression l .nullptr _ => getExpressionAttributes l
  | .expression l r _ =>
      (getExpressionAttributes l).bind fun as => (getExpressionAttributes r).map (as ++ ·)
  | .funcCall _ args _ _ => getAllExpressionAttributes args
  | .typeCast _ _ e => getExpressionAttributes e
  | _ => some []

def getAllExpressionAttributes : List Expr → Option (List Item)
  | [] => some []
  | e :: es =>
      (getExpressionAttributes e).bind fun as => (getAllExpressionAttributes es).map (as ++ ·)

end

mutual

/-- `RaTree::get_predicate_attributes`; a marker leads to its join. -/
def getPredicateAttributes : Expr → Option (List Item)
  | .nullptr => none
  | .boolPredicate _ args => getAllPredicateAttributes args
  | .predicate l r _ =>
      (getExpressionAttributes l).bind fun as => (getExpressionAttributes r).map (as ++ ·)
  | .whereSubqueryMarker m type => some [.marker m type]
  | _ => some []

def getAllPredicateAttributes : List Expr → Option (List Item)
  | [] => some []
  | e :: es =>
      (getPredicateAttributes e).bind fun as => (getAllPredicateAttributes es).map (as ++ ·)

end

/-- What `get_subtree_attributes` meets at a node itself. -/
def nodeItems : RaNode → Option (List Item)
  | .selection _ p _ => getPredicateAttributes p
  | .projection _ pr _ => getAllExpressionAttributes pr.args
  | .groupBy _ args _ _ => getAllExpressionAttributes args
  | .join _ join _ _ =>
      if join.predicate.isPresent then getPredicateAttributes join.predicate else some []
  | _ => some []

/-- An attribute object: its node, its number there, its name and its qualifier. -/
structure Occurrence where
  node : Nat
  index : Nat
  name : String
  aliasName : String
  deriving DecidableEq, Repr

/-- The joins of a tree in the order of a depth-first walk. -/
def joins : RaNode → List (Nat × Join)
  | .hole => []
  | .leaf _ _ => []
  | .unary _ _ c => joins c
  | .join i join l r => (i, join) :: (joins l ++ joins r)

/-- A marker with its join, once the join is found. -/
structure MarkerJoin where
  marker : Nat
  type : JoinType
  join : Option Nat := none
  deriving DecidableEq, Repr

/-- The loop of `find_joins_by_markers` at one join. -/
def assignJoin (j : Nat × Join) : List MarkerJoin → Option (List MarkerJoin)
  | [] => some []
  | p :: ps =>
      if j.2.marker = p.marker then
        if j.2.type = p.type ∧ p.join = none then some ({ p with join := some j.1 } :: ps) else none
      else (assignJoin j ps).map (p :: ·)

/-- `RaTree::find_joins_by_markers`. -/
def findJoinsByMarkers (it : RaNode) (markersJoins : List MarkerJoin) : Option (List MarkerJoin) :=
  (joins it).foldlM (fun ps j => assignJoin j ps) markersJoins

/-- The join that carries a marker; a missing join is a null pointer. -/
def markerJoin (root : RaNode) (marker : Nat) (type : JoinType) : Option RaNode :=
  (findJoinsByMarkers root [⟨marker, type, none⟩]).bind fun ps =>
    (ps.head?.bind MarkerJoin.join).bind fun i => find? i root

/-- The attributes met at one node, in order; `jump` gives those of a marker's join. -/
def itemOccurrences (jump : Nat → JoinType → Option (List Occurrence)) (node : Nat) :
    Nat → List Item → Option (List Occurrence)
  | _, [] => some []
  | k, .attribute name aliasName :: items =>
      (itemOccurrences jump node (k + 1) items).map (⟨node, k, name, aliasName⟩ :: ·)
  | k, .marker m type :: items =>
      (jump m type).bind fun os => (itemOccurrences jump node (k + 1) items).map (os ++ ·)

/-- The attributes met at a node itself. -/
def nodeOccurrences (jump : Nat → JoinType → Option (List Occurrence)) (it : RaNode) :
    Option (List Occurrence) :=
  (nodeItems it).bind (itemOccurrences jump (it.id?.getD 0) 0)

/-- A walk over the nodes below `it`. -/
def subtreeOccurrences (jump : Nat → JoinType → Option (List Occurrence)) :
    RaNode → Option (List Occurrence)
  | .hole => some []
  | .leaf _ _ => some []
  | .unary i op c =>
      (nodeOccurrences jump (.unary i op c)).bind fun os =>
        (subtreeOccurrences jump c).map (os ++ ·)
  | .join i join l r =>
      (nodeOccurrences jump (.join i join l r)).bind fun os =>
        (subtreeOccurrences jump l).bind fun ls =>
          (subtreeOccurrences jump r).map fun rs => os ++ ls ++ rs

/-- `RaTree::get_subtree_attributes` with at most `fuel` markers followed one inside the
other. -/
def subtreeAttributes (root : RaNode) : Nat → RaNode → Option (List Occurrence)
  | 0, _ => none
  | fuel + 1, it =>
      subtreeOccurrences (fun m type => (markerJoin root m type).bind (subtreeAttributes root fuel))
        it

/-- `RaTree::get_subtree_attributes`: following more markers than there are nodes means
following one of them forever. -/
def getSubtreeAttributes (root it : RaNode) : Option (List Occurrence) :=
  subtreeAttributes root (root.ids.length + 1) it

/-- An attribute belongs to one of the relations. -/
def isCovered (relations : List (String × String)) (name aliasName : String) : Bool :=
  relations.any fun r =>
    (aliasName ≠ "" && (aliasName = r.1 || aliasName = r.2)) ||
      (aliasName = "" && isTpchAttribute name r.1)

/-- The relations that the projection D stands for; once it has arguments, these are its
own. -/
def leftRelationsAliases : RaNode → List (String × String)
  | .projection _ pr c => if pr.args.isEmpty then getRelationsAliases c else [("", "d")]
  | _ => []

/-- The attribute is not defined in the subtree, but on the left side. -/
def isCorrelated (dProjection subtree : RaNode) (name aliasName : String) : Bool :=
  !isCovered (getRelationsAliases subtree) name aliasName &&
    isCovered (leftRelationsAliases dProjection) name aliasName

/-- `RaTree::intersect_correlated_attributes`. -/
def intersectCorrelatedAttributes (root dProjection subtree : RaNode) : Option (List Occurrence) :=
  (getSubtreeAttributes root subtree).map
    (List.filter fun o => isCorrelated dProjection subtree o.name o.aliasName)

section

variable (f : String → String → String × String)

/-- The change of an attribute. -/
def mapAttribute (name aliasName : String) : Expr :=
  .attribute (f name aliasName).1 (f name aliasName).2

mutual

/-- The change of the attributes that `get_expression_attributes` collects. -/
def mapExpressionAttributes : Expr → Expr
  | .attribute name aliasName => mapAttribute f name aliasName
  | .expression l r op => .expression (mapExpressionAttributes l) (mapExpressionAttributes r) op
  | .funcCall name args g d => .funcCall name (mapAllExpressionAttributes args) g d
  | .typeCast type mod e => .typeCast type mod (mapExpressionAttributes e)
  | e => e

def mapAllExpressionAttributes : List Expr → List Expr
  | [] => []
  | e :: es => mapExpressionAttributes e :: mapAllExpressionAttributes es

end

mutual

/-- The change of the attributes that `get_predicate_attributes` collects. -/
def mapPredicateAttributes : Expr → Expr
  | .boolPredicate op args => .boolPredicate op (mapAllPredicateAttributes args)
  | .predicate l r op =>
      .predicate (mapExpressionAttributes f l) (mapExpressionAttributes f r) op
  | e => e

def mapAllPredicateAttributes : List Expr → List Expr
  | [] => []
  | e :: es => mapPredicateAttributes e :: mapAllPredicateAttributes es

end

/-- The change of the attributes that `get_subtree_attributes` meets at a node itself. -/
def mapNodeAttributes : RaNode → RaNode
  | .selection i p c => .selection i (mapPredicateAttributes f p) c
  | .projection i pr c =>
      .projection i { pr with args := mapAllExpressionAttributes f pr.args } c
  | .groupBy i args implicit c => .groupBy i (mapAllExpressionAttributes f args) implicit c
  | .join i join l r =>
      .join i { join with predicate := mapPredicateAttributes f join.predicate } l r
  | t => t

end

section

variable (aliases : List String) (stop : Option Nat)

mutual

/-- `RaTree::find_attributes_using_alias` in an expression: a null pointer is the stop node
when there is none. -/
def findInExpression : Expr → Option (List AttributeRef)
  | .nullptr => if stop.isNone then some [] else none
  | .attribute name aliasName =>
      some (if aliasName ∈ aliases ∨ (aliasName = "" ∧ ∃ a ∈ aliases, isTpchAttribute name a = true)
        then [(name, aliasName)] else [])
  | .funcCall _ args _ _ => findInExpressions args
  | .boolPredicate _ args => findInExpressions args
  | .predicate l r _ => (findInExpression l).bind fun ls => (findInExpression r).map (ls ++ ·)
  | .selectExpression e _ => findInExpression e
  | .expression l r _ => (findInExpression l).bind fun ls => (findInExpression r).map (ls ++ ·)
  | .typeCast _ _ e => findInExpression e
  | _ => some []

def findInExpressions : List Expr → Option (List AttributeRef)
  | [] => some []
  | e :: es => (findInExpression e).bind fun as => (findInExpressions es).map (as ++ ·)

end

/-- `RaTree::find_attributes_using_alias`; Having nodes and relations end the walk. -/
def findAttributesUsingAlias (inclStop : Bool) : RaNode → Option (List AttributeRef)
  | .hole => some []
  | .leaf _ _ => some []
  | .unary i op c =>
      if some i = stop && !inclStop then some []
      else
        let below := if some i = stop then some [] else findAttributesUsingAlias inclStop c
        let own := fun es => (findInExpressions aliases stop es).bind fun as => below.map (as ++ ·)
        match op with
        | .projection pr => own pr.args
        | .selection p => own [p]
        | .orderBy args _ => own args
        | .groupBy args _ => own args
        | .root => some []
        | .having _ => some []
  | .join i join l r =>
      if some i = stop && !inclStop then some []
      else
        (if join.predicate.isPresent then findInExpression aliases stop join.predicate
          else some []).bind fun as =>
          if some i = stop then some as
          else
            (findAttributesUsingAlias inclStop l).bind fun ls =>
              (findAttributesUsingAlias inclStop r).map fun rs => as ++ ls ++ rs

end

/-- A map from qualifier and name to qualifier and name. -/
abbrev RenameMap := List (AttributeRef × AttributeRef)

/-- `rename_map[{alias, name}] = {newAlias, newName}`. -/
def RenameMap.set (m : RenameMap) (aliasName name newAlias newName : String) : RenameMap :=
  ((aliasName, name), (newAlias, newName)) :: m

/-- The new name and qualifier of an attribute. -/
def renamed (m : RenameMap) (name aliasName : String) : String × String :=
  match m.lookup (aliasName, name) with
  | some (newAlias, newName) => (newName, newAlias)
  | none =>
      match m.lookup (aliasName, "") with
      | some (newAlias, _) => (name, newAlias)
      | none => (name, aliasName)

section

variable (m : RenameMap)

mutual

/-- `RaTree::rename_attributes` in an expression. -/
def renameExpression : Expr → Expr
  | .attribute name aliasName => .attribute (renamed m name aliasName).1 (renamed m name aliasName).2
  | .funcCall name args g d => .funcCall name (renameExpressions args) g d
  | .boolPredicate op args => .boolPredicate op (renameExpressions args)
  | .predicate l r op => .predicate (renameExpression l) (renameExpression r) op
  | .selectExpression e rename => .selectExpression (renameExpression e) rename
  | e => e

def renameExpressions : List Expr → List Expr
  | [] => []
  | e :: es => renameExpression e :: renameExpressions es

end

/-- The renaming in the expressions of one node. -/
def renameNode : RaNode → RaNode
  | .selection i p c => .selection i (renameExpression m p) c
  | .projection i pr c => .projection i { pr with args := renameExpressions m pr.args } c
  | .groupBy i args implicit c => .groupBy i (renameExpressions m args) implicit c
  | .join i join l r => .join i { join with predicate := renameExpression m join.predicate } l r
  | t => t

end

mutual

/-- No null pointer is met below the expression. -/
def visitsNodes : Expr → Bool
  | .nullptr => false
  | .funcCall _ args _ _ => allVisitNodes args
  | .boolPredicate _ args => allVisitNodes args
  | .predicate l r _ => visitsNodes l && visitsNodes r
  | .selectExpression e _ => visitsNodes e
  | _ => true

def allVisitNodes : List Expr → Bool
  | [] => true
  | e :: es => visitsNodes e && allVisitNodes es

end

/-- The nodes that `rename_attributes` visits, in order. It does not go below Order_By and
Having nodes; with a stop node, a null pointer is followed. -/
def renameVisits (stop : Option Nat) : RaNode → Option (List Nat)
  | .hole => none
  | .leaf _ _ => some []
  | .unary i op c =>
      if some i = stop then some []
      else
        let visit := fun es => if stop.isNone || allVisitNodes es then
          (renameVisits stop c).map (i :: ·) else none
        match op with
        | .projection pr => visit pr.args
        | .selection p => visit [p]
        | .groupBy args _ => visit args
        | _ => some []
  | .join i join l r =>
      if some i = stop then some []
      else if stop.isNone || !join.predicate.isPresent || visitsNodes join.predicate then
        (renameVisits stop l).bind fun ls => (renameVisits stop r).map fun rs => i :: (ls ++ rs)
      else none

/-- The objects with the given addresses are changed, one after the other. -/
def updateAll (f : RaNode → RaNode) (is : List Nat) (root : RaNode) : RaNode :=
  is.foldl (fun t i => update i f t) root

/-- `RaTree::rename_attributes` on the subtree `it` of `root`. -/
def renameAttributes (m : RenameMap) (stop : Option Nat) (it root : RaNode) : Option RaNode :=
  (renameVisits stop it).map fun is => updateAll (renameNode m) is root

end SqlOptimizer.Unnesting.Attributes
