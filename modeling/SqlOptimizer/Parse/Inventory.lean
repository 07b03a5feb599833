import SqlOptimizer.Parse.Builder
import SqlOptimizer.Parse.PgQuery
import Mathlib.Algebra.BigOperators.Group.Multiset.Basic
import Mathlib.Algebra.Group.InjSurj
import Mathlib.Data.Multiset.AddSub
import Mathlib.Algebra.Order.Group.Multiset
import Mathlib.Algebra.Group.Action.Defs
import Mathlib.Tactic.Abel

/-!
What a tree is made of: its empty places, the addresses of its nodes, the markers of
its joins and of its predicates, and its FROM items and subqueries. All of them add up
over the nodes of the tree.
-/

set_option autoImplicit false
set_option relaxedAutoImplicit false

namespace SqlOptimizer.Parse.Inventory

open Algebra.RelationalAlgebra
open Tree.Frames
open PgQuery Builder

/-- A FROM item, a CTE or a subquery. -/
inductive Item where
  | relation (name aliasName : String)
  | derived (aliasName : String) (columns : List String)
  | join (type : PgJoinType) (aliasName : String) (columns : List String)
  | subquery (type : SubLinkType)
  deriving DecidableEq, Repr

mutual

/-- The subquery markers that occur in an expression. -/
def markers : Expr → List Nat
  | .funcCall _ args _ _ => allMarkers args
  | .typeCast _ _ e => markers e
  | .selectExpression e _ => markers e
  | .expression l r _ => markers l ++ markers r
  | .list args => allMarkers args
  | .inList args => allMarkers args
  | .caseExpr args e => allMarkers args ++ markers e
  | .caseWhen w t => markers w ++ markers t
  | .boolPredicate _ args => allMarkers args
  | .predicate l r _ => markers l ++ markers r
  | .nullTest e _ => markers e
  | .whereSubqueryMarker m _ => [m]
  | _ => []

def allMarkers : List Expr → List Nat
  | [] => []
  | e :: es => markers e ++ allMarkers es

end

theorem allMarkers_eq_flatMap (es : List Expr) : allMarkers es = es.flatMap markers := by
  induction es with
  | nil => rfl
  | cons e es ih => simp [allMarkers, ih]

/-- The kind of subquery that a marked join stands for. -/
def sublinkType : JoinType → SubLinkType
  | .crossProduct | .dependentInnerLeft => .expr
  | .semiLeft | .semiLeftDependent | .antiLeft | .antiLeftDependent => .exists
  | .inLeft | .inLeftDependent | .antiInLeft | .antiInLeftDependent => .any
  | _ => .other

/-- A join with a marker carries a subquery; an unmarked cross product only lists FROM
items. -/
def joinItems (join : Join) : List Item :=
  if join.marker > 0 then [.subquery (sublinkType join.type)]
  else
    match join.type with
    | .inner => [.join .inner join.aliasName join.columns]
    | .left => [.join .left join.aliasName join.columns]
    | _ => []

def leafItems : LeafOp → List Item
  | .relation name aliasName => [.relation name aliasName]
  | _ => []

/-- A projection with an alias is a derived table or a CTE. -/
def unaryItems : UnaryOp → List Item
  | .projection pr =>
      if pr.subqueryAlias = "" then [] else [.derived pr.subqueryAlias pr.subqueryColumns]
  | _ => []

/-- The expressions of an operator. -/
def unaryExprs : UnaryOp → List Expr
  | .root => []
  | .projection pr => pr.args
  | .selection predicate => [predicate]
  | .orderBy args _ => args
  | .groupBy args _ => args
  | .having predicate => [predicate]

def leafExprs : LeafOp → List Expr
  | .values values _ _ => values
  | _ => []

/-- The parts of a tree or of several trees. -/
@[ext]
structure Parts where
  holes : Nat := 0
  ids : Multiset Nat := 0
  joinMarkers : Multiset Nat := 0
  markers : Multiset Nat := 0
  items : Multiset Item := 0

namespace Parts

instance : Zero Parts := ⟨{}⟩

instance : Add Parts :=
  ⟨fun a b => ⟨a.holes + b.holes, a.ids + b.ids, a.joinMarkers + b.joinMarkers,
    a.markers + b.markers, a.items + b.items⟩⟩

instance : SMul Nat Parts :=
  ⟨fun n a => ⟨n • a.holes, n • a.ids, n • a.joinMarkers, n • a.markers, n • a.items⟩⟩

private def toProd (a : Parts) :
    Nat × Multiset Nat × Multiset Nat × Multiset Nat × Multiset Item :=
  (a.holes, a.ids, a.joinMarkers, a.markers, a.items)

private theorem toProd_injective : Function.Injective toProd := by
  intro a b h
  simpa [toProd, Parts.ext_iff] using h

instance : AddCancelCommMonoid Parts :=
  toProd_injective.addCancelCommMonoid toProd rfl (fun _ _ => rfl) (fun _ _ => rfl)

@[simp] theorem holes_zero : (0 : Parts).holes = 0 := rfl
@[simp] theorem ids_zero : (0 : Parts).ids = 0 := rfl
@[simp] theorem joinMarkers_zero : (0 : Parts).joinMarkers = 0 := rfl
@[simp] theorem markers_zero : (0 : Parts).markers = 0 := rfl
@[simp] theorem items_zero : (0 : Parts).items = 0 := rfl

@[simp] theorem holes_add (a b : Parts) : (a + b).holes = a.holes + b.holes := rfl
@[simp] theorem ids_add (a b : Parts) : (a + b).ids = a.ids + b.ids := rfl
@[simp] theorem joinMarkers_add (a b : Parts) :
    (a + b).joinMarkers = a.joinMarkers + b.joinMarkers := rfl
@[simp] theorem markers_add (a b : Parts) : (a + b).markers = a.markers + b.markers := rfl
@[simp] theorem items_add (a b : Parts) : (a + b).items = a.items + b.items := rfl

end Parts

/-- What a single node consists of. -/
def nodeParts (i : Nat) (exprs : List Expr) (items : List Item) : Parts where
  ids := {i}
  markers := allMarkers exprs
  items := items

/-- The marker of a join. -/
def markerParts (join : Join) : Parts where
  joinMarkers := if join.marker > 0 then {join.marker} else 0

/-- The parts of a tree. -/
def parts : RaNode → Parts
  | .hole => { holes := 1 }
  | .leaf i op => nodeParts i (leafExprs op) (leafItems op)
  | .unary i op c => nodeParts i (unaryExprs op) (unaryItems op) + parts c
  | .join i join l r =>
      nodeParts i [join.predicate] (joinItems join) + markerParts join + parts l + parts r

/-- The parts of several trees. -/
def allParts (ts : List RaNode) : Parts := (ts.map parts).sum

/-- The markers of an expression that is not yet part of a tree. -/
def exprParts (e : Expr) : Parts where
  markers := markers e

@[simp] theorem allParts_nil : allParts [] = 0 := rfl

@[simp] theorem allParts_cons (t : RaNode) (ts : List RaNode) :
    allParts (t :: ts) = parts t + allParts ts := by
  simp [allParts]

@[simp] theorem allParts_append (ts us : List RaNode) :
    allParts (ts ++ us) = allParts ts + allParts us := by
  simp [allParts]

/-- The parts of the frames around a position. -/
def frameParts : Frame → Parts
  | .unary i op => nodeParts i (unaryExprs op) (unaryItems op)
  | .left i join r =>
      nodeParts i [join.predicate] (joinItems join) + markerParts join + parts r
  | .right i join l =>
      nodeParts i [join.predicate] (joinItems join) + markerParts join + parts l

def contextParts (K : List Frame) : Parts := (K.map frameParts).sum

theorem parts_plug (K : List Frame) (t : RaNode) : parts (plug K t) = contextParts K + parts t := by
  induction K generalizing t with
  | nil => simp [contextParts]
  | cons f K ih =>
    have hf : parts (f.plug t) = frameParts f + parts t := by
      cases f with
      | unary i op => rfl
      | left i join r =>
        simp only [Frame.plug, parts, frameParts]
        abel
      | right i join l => rfl
    rw [plug_cons, ih, hf, contextParts, contextParts, List.map_cons, List.sum_cons]
    abel

/-- A subtree at the end of the left spine takes an empty place. -/
theorem parts_graft {base : RaNode} (hb : LeftOpen base) (sub : RaNode) :
    parts (graft sub base) + parts .hole = parts base + parts sub := by
  fun_induction LeftOpen base with
  | case1 i op => simp only [graft, parts]; abel
  | case2 i op c hc ih =>
    have h := ih hb
    simp only [graft, parts] at h ⊢
    rw [add_assoc, h, add_assoc]
  | case3 i join r => simp only [graft, parts]; abel
  | case4 i join l r hl ih =>
    have h := ih hb.2
    simp only [graft, parts] at h ⊢
    rw [add_right_comm, add_assoc _ (parts (graft sub l)), h]
    abel
  | case5 => exact hb.elim

@[simp] theorem ids_parts (t : RaNode) : (parts t).ids = t.ids := by
  induction t with
  | hole => rfl
  | leaf i op => rfl
  | unary i op c ih => simp [parts, nodeParts, ih, RaNode.ids]
  | join i join l r ihl ihr =>
    simp [parts, nodeParts, markerParts, ihl, ihr, RaNode.ids]

/-- A tree is full when it has no empty place. -/
theorem full_iff_holes {t : RaNode} : t.Full ↔ (parts t).holes = 0 := by
  induction t with
  | hole => simp [RaNode.Full, parts]
  | leaf i op => simp [RaNode.Full, parts, nodeParts]
  | unary i op c ih => simp [RaNode.Full, parts, nodeParts, ih]
  | join i join l r ihl ihr => simp [RaNode.Full, parts, nodeParts, markerParts, ihl, ihr]

end SqlOptimizer.Parse.Inventory
