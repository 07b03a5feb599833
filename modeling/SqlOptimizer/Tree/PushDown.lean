import SqlOptimizer.Tree.Walks

/-!
`RaTree::push_down_predicates`. The conjuncts of all Selections are detached and then
attached again one after the other, each at the lowest node that defines the relations
it mentions. Dereferencing a null pointer gives `none`.
-/

set_option autoImplicit false
set_option relaxedAutoImplicit false

namespace SqlOptimizer.Tree.PushDown

open Algebra.RelationalAlgebra
open Frames Walks

/-- The text of an attribute name before its first underscore. -/
def attributePrefix (name : String) : String :=
  String.ofList (name.toList.takeWhile (· ≠ '_'))

/-- `RaTree::get_tpch_relation_name`. -/
def getTpchRelationName (name : String) : String :=
  match attributePrefix name with
  | "p" => "part"
  | "s" => "supplier"
  | "ps" => "partsupp"
  | "c" => "customer"
  | "n" => "nation"
  | "l" => "lineitem"
  | "r" => "region"
  | "o" => "orders"
  | _ => ""

/-- `RaTree::get_relation_from_attribute`. -/
def getRelationFromAttribute (name aliasName : String) : String :=
  if aliasName ≠ "" then aliasName else getTpchRelationName name

mutual

/-- `RaTree::get_expression_relations`. -/
def getExpressionRelations : Expr → Option (List String)
  | .nullptr => none
  | .attribute name aliasName => some [getRelationFromAttribute name aliasName]
  | .expression lArg rArg _ =>
      (getExpressionRelations lArg).bind fun l =>
        (getExpressionRelations rArg).map fun r => l ++ r
  | .funcCall _ args _ _ => getExpressionsRelations args
  | .typeCast _ _ e => getExpressionRelations e
  | .whereSubqueryMarker m _ => some ["marker_" ++ toString m]
  | _ => some []

def getExpressionsRelations : List Expr → Option (List String)
  | [] => some []
  | e :: es =>
      (getExpressionRelations e).bind fun l =>
        (getExpressionsRelations es).map fun r => l ++ r

end

mutual

/-- `RaTree::get_predicate_relations`. -/
def getPredicateRelations : Expr → Option (List String)
  | .nullptr => none
  | .predicate left right _ =>
      (getExpressionRelations left).bind fun l =>
        (getExpressionRelations right).map fun r => l ++ r
  | .whereSubqueryMarker m type => getExpressionRelations (.whereSubqueryMarker m type)
  | .boolPredicate _ args => getPredicatesRelations args
  | .nullTest arg _ => getExpressionRelations arg
  -- the other node cases only print a message
  | _ => some []

def getPredicatesRelations : List Expr → Option (List String)
  | [] => some []
  | e :: es =>
      (getPredicateRelations e).bind fun l =>
        (getPredicatesRelations es).map fun r => l ++ r

end

mutual

/-- `RaTree::split_selection_predicates`. -/
def splitSelectionPredicates : Expr → Option (List Expr)
  | .nullptr => none
  | .whereSubqueryMarker m type => some [.whereSubqueryMarker m type]
  | .nullTest arg type => some [.nullTest arg type]
  | .predicate l r op => some [.predicate l r op]
  | .boolPredicate .and args => splitAll args
  | .boolPredicate .or args => some [.boolPredicate .or args]
  | .boolPredicate .not args => some [.boolPredicate .not args]
  -- the other node cases only print a message
  | _ => some []

def splitAll : List Expr → Option (List Expr)
  | [] => some []
  | e :: es =>
      (splitSelectionPredicates e).bind fun l => (splitAll es).map fun r => l ++ r

end

mutual

/-- `RaTree::predicate_contains_subquery`. -/
def predicateContainsSubquery : Expr → Bool
  | .boolPredicate _ args => anyContainsSubquery args
  | .predicate l r _ => predicateContainsSubquery l || predicateContainsSubquery r
  | .whereSubqueryMarker _ _ => true
  | _ => false

def anyContainsSubquery : List Expr → Bool
  | [] => false
  | e :: es => predicateContainsSubquery e || anyContainsSubquery es

end

/-- What `RaTree::add_predicate_to_selection` and `RaTree::add_predicate_to_join` make of
the predicate that a node carries when another one arrives. -/
def addPredicate (present predicate : Expr) : Expr :=
  match present with
  | .nullptr => predicate
  | .boolPredicate .and args => .boolPredicate .and (args ++ [predicate])
  | .boolPredicate op args => .boolPredicate .and [.boolPredicate op args, predicate]
  | .predicate l r op => .boolPredicate .and [.predicate l r op, predicate]
  | .nullTest arg type => .boolPredicate .and [.nullTest arg type, predicate]
  -- no branch of the source mentions the other node cases
  | e => e

/-- `RaTree::add_predicate_to_selection`. -/
def addPredicateToSelection (predicate : Expr) : RaNode → RaNode
  | .selection i p c => .selection i (addPredicate p predicate) c
  | t => t

/-- `RaTree::add_predicate_to_join`. -/
def addPredicateToJoin (predicate : Expr) : RaNode → RaNode
  | .join i join l r =>
      .join i { join with
        type := if join.type = .crossProduct then .inner else join.type
        predicate := addPredicate join.predicate predicate } l r
  | t => t

/-- `RaTree::has_relations_defined`. -/
def hasRelationsDefined (node : RaNode) (relations : List String) : Bool :=
  relations.all fun needed =>
    (getRelationsAliases node).any fun defined => needed = defined.1 || needed = defined.2

/-- `RaTree::find_node_where_relations_defined`. -/
def findNodeWhereRelationsDefined (relations : List String) : RaNode → Option RaNode
  | .hole => none
  | .leaf i op =>
      if hasRelationsDefined (.leaf i op) relations then some (.leaf i op) else none
  | .unary i op c =>
      if hasRelationsDefined (.unary i op c) relations then
        some ((findNodeWhereRelationsDefined relations c).getD (.unary i op c))
      else none
  | .join i join l r =>
      if hasRelationsDefined (.join i join l r) relations then
        some (((findNodeWhereRelationsDefined relations l).or
          (findNodeWhereRelationsDefined relations r)).getD (.join i join l r))
      else none

/-- The node that a detached conjunct is attached to: a join, a Selection, or a new
Selection between a node and the child at `index`. -/
inductive Position where
  | join (id : Nat)
  | selection (id : Nat)
  | newSelection (parent index : Nat) (child : RaNode)

/-- The condition of the node at a position before a conjunct arrives there. -/
def Position.present (root : RaNode) : Position → Expr
  | .join i =>
      match find? i root with
      | some (.join _ j _ _) => j.predicate
      | _ => .nullptr
  | .selection i =>
      match find? i root with
      | some (.selection _ p _) => p
      | _ => .nullptr
  | .newSelection _ _ _ => .nullptr

/-- The node that carries the conjunct once it is attached. -/
def Position.receiver (nextId : Nat) : Position → Nat
  | .join i => i
  | .selection i => i
  | .newSelection _ _ _ => nextId

/-- A conjunct goes to the parent of `it` when that is a Selection, and to a new
Selection between the two otherwise. -/
def positionAbove (root it : RaNode) : Option Position :=
  it.id?.bind fun i =>
    (getNodeParent i root).bind fun r =>
      match r.1 with
      | .selection j _ _ => some (.selection j)
      | parent => parent.id?.map fun j => .newSelection j r.2 it

/-- The second half of `RaTree::find_lowest_child_insert_selection`: the position for a
conjunct whose relations are defined at `it`. -/
def insertPosition (cpToJoin : Bool) (root it : RaNode) (predicate : Expr) : Option Position :=
  match it with
  | .join i join l r =>
      if cpToJoin && !predicateContainsSubquery predicate then some (.join i)
      else positionAbove root (.join i join l r)
  | it => positionAbove root it

/-- `RaTree::find_lowest_child_insert_selection`, or the original Selection when no lower
node defines the relations. -/
def position (cpToJoin : Bool) (root : RaNode) (selection : Nat) (child : RaNode)
    (predicate : Expr) (relations : List String) : Option Position :=
  match findNodeWhereRelationsDefined relations child with
  | some it => insertPosition cpToJoin root it predicate
  | none => some (.selection selection)

/-- The tree with the conjunct attached. -/
def attach (predicate : Expr) (t : RaTree) : Position → RaTree
  | .join i => { t with root := update i (addPredicateToJoin predicate) t.root }
  | .selection i => { t with root := update i (addPredicateToSelection predicate) t.root }
  | .newSelection parent index child =>
      { t with
        root := update parent (setChild index (.selection t.nextId predicate child)) t.root
        nextId := t.nextId + 1 }

/-- One step of the second loop of `push_down_predicates`. -/
inductive Step where
  | place (selection : Nat) (predicate : Expr) (relations : List String)
  | removeIfEmpty (selection : Nat)

/-- The Selection that a step works for. -/
def Step.selection : Step → Nat
  | .place i _ _ => i
  | .removeIfEmpty i => i

/-- Where a step attaches its conjunct. -/
def stepPosition (cpToJoin : Bool) (t : RaTree) (selection : Nat) (predicate : Expr)
    (relations : List String) : Option Position :=
  match find? selection t.root with
  | some (.selection _ _ child) => position cpToJoin t.root selection child predicate relations
  | _ => none

def step (cpToJoin : Bool) (t : RaTree) : Step → Option RaTree
  | .place selection predicate relations =>
      (stepPosition cpToJoin t selection predicate relations).map (attach predicate t)
  | .removeIfEmpty selection =>
      match find? selection t.root with
      | some (.selection _ .nullptr child) =>
          (getNodeParent selection t.root).bind fun (parent, index) =>
            parent.id?.map fun i => { t with root := update i (setChild index child) t.root }
      | some _ => some t
      | none => none

/-- The conjuncts of one Selection with the relations they mention. -/
def selectionSteps (i : Nat) (predicate : Expr) : Option (List Step) :=
  (splitSelectionPredicates predicate).bind fun cs =>
    (cs.mapM fun c => (getPredicateRelations c).map (Step.place i c)).map fun steps =>
      steps ++ [.removeIfEmpty i]

/-- The first loop of `push_down_predicates`: the work for all Selections. -/
def steps (root : RaNode) : Option (List Step) :=
  ((getAllSelections root).mapM fun s => selectionSteps s.1 s.2.1).map List.flatten

/-- `sel->predicate = nullptr` for all Selections. -/
def detachPredicates : RaNode → RaNode
  | .hole => .hole
  | .leaf i op => .leaf i op
  | .unary i (.selection _) c => .selection i .nullptr (detachPredicates c)
  | .unary i op c => .unary i op (detachPredicates c)
  | .join i join l r => .join i join (detachPredicates l) (detachPredicates r)

/-- The state in which the second loop starts. -/
def detached (t : RaTree) : RaTree := { t with root := detachPredicates t.root }

/-- `RaTree::push_down_predicates`. -/
def pushDownPredicates (cpToJoin : Bool) (t : RaTree) : Option RaTree :=
  (steps t.root).bind fun ss => ss.foldlM (step cpToJoin) (detached t)

end SqlOptimizer.Tree.PushDown
