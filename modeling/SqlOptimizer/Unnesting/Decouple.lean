import SqlOptimizer.Unnesting.Markers
import SqlOptimizer.Unnesting.PushDownDepJoin

/-!
Decoupling: a dependent join is dropped when every attribute of D that is used above it
equals another attribute, which takes its place.
-/

set_option autoImplicit false
set_option relaxedAutoImplicit false

namespace SqlOptimizer.Unnesting.Decouple

open Algebra.RelationalAlgebra
open Tree.Frames Tree.Walks
open Logic.Triples
open Objects Attributes Markers

section

variable (name : String)

mutual

/-- `RaTree::has_equivalent_attribute`: the rename map with the attribute that the D attribute
equals, if there is one. -/
def hasEquivalentAttribute : Expr → RenameMap → Option RenameMap
  | .boolPredicate .and args, m => anyEquivalentAttribute args m
  | .predicate (.attribute l la) (.attribute r ra) op, m =>
      if op = "=" then
        if la = "d" ∧ l = name ∧ ra ≠ "d" then some (m.set "d" name ra r)
        else if ra = "d" ∧ r = name ∧ la ≠ "d" then some (m.set "d" name la l)
        else none
      else none
  | _, _ => none

def anyEquivalentAttribute : List Expr → RenameMap → Option RenameMap
  | [], _ => none
  | e :: es, m => (hasEquivalentAttribute e m).or (anyEquivalentAttribute es m)

end

end

/-- The predicate of a Selection or a join. -/
def predicateOf : RaNode → Option Expr
  | .selection _ p _ => some p
  | .join _ join _ _ => some join.predicate
  | _ => none

/-- The nodes up to the first projection above the dependent join. -/
def upToProjection : List RaNode → List RaNode
  | [] => []
  | .projection _ _ _ :: _ => []
  | t :: ts => t :: upToProjection ts

/-- The loop of `can_decouple` over the attributes of D; the rename map keeps the entries made
before a failure. -/
def findEquivalents (predicates : List Expr) : List AttributeRef → RenameMap → Bool × RenameMap
  | [], m => (true, m)
  | a :: as, m =>
      match predicates.findSome? fun p => hasEquivalentAttribute a.1 p m with
      | some m => findEquivalents predicates as m
      | none => (false, m)

/-- `RaTree::can_decouple`. -/
def canDecouple (depJoin : Nat) (parentProjection : RaNode) (m : RenameMap) :
    Option (Bool × RenameMap) :=
  (ancestors depJoin parentProjection).bind fun above =>
    (find? depJoin parentProjection).bind fun dep =>
      let predicates := ((dep :: upToProjection above).filterMap predicateOf).filter Expr.isPresent
      (findAttributesUsingAlias ["d"] (some depJoin) false parentProjection).map fun attributes =>
        findEquivalents predicates attributes m

/-- The value of a predicate pointer after `remove_redundant_predicates`, and what the function
stores in the pointer of the parent. -/
structure Remainder where
  predicate : Expr
  parent : Option Expr := none

/-- The end of the Bool_Predicate case, from what the arguments have become. A nested predicate
with one argument left replaces the one around it. -/
def remainderOfArgs (op : BoolOperator) (rs : List Remainder) : Remainder :=
  let args := (rs.map Remainder.predicate).filter Expr.isPresent
  let predicate := (rs.filterMap Remainder.parent).getLast?.getD (.boolPredicate op args)
  match args with
  | [] => { predicate := .nullptr }
  | [e] => { predicate := predicate, parent := some e }
  | _ => { predicate := predicate }

mutual

/-- `RaTree::remove_redundant_predicates` on a predicate. -/
def removeRedundantPredicates : Expr → Option Remainder
  | .nullptr => none
  | .boolPredicate op args => (removeAllRedundantPredicates args).map (remainderOfArgs op)
  | .predicate .nullptr _ _ => none
  | .predicate (.attribute _ _) .nullptr _ => none
  | .predicate (.attribute l la) (.attribute r ra) op =>
      some ⟨if l = r ∧ la = ra then .nullptr else
        .predicate (.attribute l la) (.attribute r ra) op, none⟩
  | e => some ⟨e, none⟩

def removeAllRedundantPredicates : List Expr → Option (List Remainder)
  | [] => some []
  | e :: es =>
      (removeRedundantPredicates e).bind fun r => (removeAllRedundantPredicates es).map (r :: ·)

end

/-- `sel->childNodes.clear()`. -/
def clearChild : RaNode → RaNode
  | .unary i op _ => .unary i op .hole
  | t => t

/-- The child of the Selection in its place. -/
def belowSelection (sel : Nat) : RaNode → RaNode
  | .selection i p c => if i = sel then c else .selection i p c
  | t => t

/-- `RaTree::remove_redundant_predicates` on a Selection of the main tree: it is taken out when
nothing is left of its predicate. -/
def removeRedundantIn (sel : Nat) (root : RaNode) : Option RaNode :=
  match find? sel root with
  | some (.selection _ p c) =>
      (removeRedundantPredicates p).bind fun r =>
        let root := update sel (setSelectionPredicate r.predicate) root
        if r.predicate.isPresent then some root
        else if c.isHole then none
        else
          (getNodeParent sel root).bind fun parent =>
            parent.1.id?.map fun i =>
              update sel clearChild (update i (mapChildren (belowSelection sel)) root)
  | _ => none

end SqlOptimizer.Unnesting.Decouple
