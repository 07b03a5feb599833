import Mathlib.Data.List.Basic

/-!
The nodes of `relational_algebra.h`. The expression and predicate nodes, which have
no `childNodes`, form the type `Expr`; the relational operators form `RaNode`.

A pointer that may be null is `Expr.nullptr` in an expression and `RaNode.hole` in a
`childNodes` vector that is shorter than `n_children`. Operators carry the address
of their object as `id`: the source compares nodes by pointer.
-/

set_option autoImplicit false
set_option relaxedAutoImplicit false

namespace SqlOptimizer.Algebra.RelationalAlgebra

/-- `Ra__Join__JoinType`. -/
inductive JoinType where
  | crossProduct
  | inner
  | dependentInnerLeft
  | left
  | semiLeft
  | semiLeftDependent
  | antiLeft
  | antiLeftDependent
  | inLeft
  | inLeftDependent
  | antiInLeft
  | antiInLeftDependent
  | fullOuter
  deriving DecidableEq, Repr

/-- `Ra__Bool_Operator__OperatorCase`. -/
inductive BoolOperator where
  | and
  | or
  | not
  deriving DecidableEq, Repr

/-- `Ra__Const_DataType__DataType`. -/
inductive DataType where
  | int
  | float
  | string
  deriving DecidableEq, Repr

/-- `Ra__Order_By__SortDirection`. -/
inductive SortDirection where
  | default
  | asc
  | desc
  deriving DecidableEq, Repr

/-- `Ra__Null_Test__Type`. -/
inductive NullTestType where
  | isNull
  | isNotNull
  deriving DecidableEq, Repr

/-- Expression and predicate nodes. -/
inductive Expr where
  | nullptr
  | constant (data : String) (dataType : DataType)
  | attribute (name aliasName : String)
  | funcCall (funcName : String) (args : List Expr) (isAggregating aggDistinct : Bool)
  | typeCast (type typMod : String) (expression : Expr)
  | selectExpression (expression : Expr) (rename : String)
  | expression (lArg rArg : Expr) (operator : String)
  | list (args : List Expr)
  | inList (args : List Expr)
  | caseExpr (args : List Expr) (elseDefault : Expr)
  | caseWhen (when_ then_ : Expr)
  | boolPredicate (boolOperator : BoolOperator) (args : List Expr)
  | predicate (left right : Expr) (binaryOperator : String)
  | nullTest (arg : Expr) (type : NullTestType)
  | whereSubqueryMarker (marker : Nat) (type : JoinType)
  deriving Repr

namespace Expr

/-- Induction over expressions with the hypothesis for every argument of a list. -/
@[elab_as_elim]
theorem ind {P : Expr → Prop}
    (nullptr : P .nullptr)
    (constant : ∀ d t, P (.constant d t))
    (attr : ∀ n a, P (.attribute n a))
    (funcCall : ∀ f args g d, (∀ e ∈ args, P e) → P (.funcCall f args g d))
    (typeCast : ∀ t m e, P e → P (.typeCast t m e))
    (selectExpression : ∀ e r, P e → P (.selectExpression e r))
    (expression : ∀ l r op, P l → P r → P (.expression l r op))
    (list : ∀ args, (∀ e ∈ args, P e) → P (.list args))
    (inList : ∀ args, (∀ e ∈ args, P e) → P (.inList args))
    (caseExpr : ∀ args d, (∀ e ∈ args, P e) → P d → P (.caseExpr args d))
    (caseWhen : ∀ w t, P w → P t → P (.caseWhen w t))
    (boolPredicate : ∀ op args, (∀ e ∈ args, P e) → P (.boolPredicate op args))
    (predicate : ∀ l r op, P l → P r → P (.predicate l r op))
    (nullTest : ∀ e t, P e → P (.nullTest e t))
    (whereSubqueryMarker : ∀ m t, P (.whereSubqueryMarker m t))
    (e : Expr) : P e := by
  refine Expr.rec (motive_1 := P) (motive_2 := fun es => ∀ e ∈ es, P e)
    nullptr constant attr (fun f args g d h => funcCall f args g d h)
    typeCast selectExpression expression list inList caseExpr caseWhen
    (fun op args h => boolPredicate op args h) predicate nullTest whereSubqueryMarker
    ?_ ?_ e
  · simp
  · intro e es he hes
    simpa using ⟨he, hes⟩

/-- `node_case == RA__NODE__BOOL_PREDICATE`. -/
def isBoolPredicate : Expr → Bool
  | boolPredicate _ _ => true
  | _ => false

/-- The pointer is not null. -/
def isPresent : Expr → Bool
  | nullptr => false
  | _ => true

end Expr

/-- The fields of `Ra__Node__Projection`; the arguments are select expressions. -/
structure Projection where
  args : List Expr
  subqueryAlias : String := ""
  subqueryColumns : List String := []
  distinct : Bool := false
  deriving Repr

/-- The fields of `Ra__Node__Join`; `marker` is the number of its
`right_where_subquery_marker`, 0 when the right side is no WHERE subquery. -/
structure Join where
  type : JoinType
  predicate : Expr := .nullptr
  aliasName : String := ""
  columns : List String := []
  marker : Nat := 0
  deriving Repr

/-- The operators with `n_children == 0`. -/
inductive LeafOp where
  | relation (name aliasName : String)
  | values (values : List Expr) (aliasName column : String)
  | dummy
  deriving Repr

/-- The operators with `n_children == 1`. -/
inductive UnaryOp where
  | root
  | projection (pr : Projection)
  | selection (predicate : Expr)
  | orderBy (args : List Expr) (directions : List SortDirection)
  | groupBy (args : List Expr) (implicit : Bool)
  | having (predicate : Expr)
  deriving Repr

/-- Trees of relational operators. `hole` stands for a child that is not yet
attached: `childNodes` of a join with one child is its right child. -/
inductive RaNode where
  | hole
  | leaf (id : Nat) (op : LeafOp)
  | unary (id : Nat) (op : UnaryOp) (child : RaNode)
  | join (id : Nat) (join : Join) (left right : RaNode)
  deriving Repr

namespace RaNode

@[match_pattern] abbrev relation (id : Nat) (name aliasName : String) : RaNode :=
  .leaf id (.relation name aliasName)

@[match_pattern] abbrev projection (id : Nat) (pr : Projection) (child : RaNode) : RaNode :=
  .unary id (.projection pr) child

@[match_pattern] abbrev selection (id : Nat) (predicate : Expr) (child : RaNode) : RaNode :=
  .unary id (.selection predicate) child

@[match_pattern] abbrev orderBy (id : Nat) (args : List Expr) (directions : List SortDirection)
    (child : RaNode) : RaNode :=
  .unary id (.orderBy args directions) child

@[match_pattern] abbrev groupBy (id : Nat) (args : List Expr) (implicit : Bool)
    (child : RaNode) : RaNode :=
  .unary id (.groupBy args implicit) child

@[match_pattern] abbrev having (id : Nat) (predicate : Expr) (child : RaNode) : RaNode :=
  .unary id (.having predicate) child

/-- The child is missing. -/
def isHole : RaNode → Bool
  | hole => true
  | _ => false

/-- The `childNodes` vector. -/
def childNodes : RaNode → List RaNode
  | hole => []
  | leaf _ _ => []
  | unary _ _ hole => []
  | unary _ _ c => [c]
  | join _ _ hole hole => []
  | join _ _ hole r => [r]
  | join _ _ l r => [l, r]

/-- `Ra__Node::is_full`. -/
def isFull : RaNode → Bool
  | hole => false
  | leaf _ _ => true
  | unary _ _ c => !c.isHole
  | join _ _ l r => !l.isHole && !r.isHole

/-- Every node of the tree is full. -/
def Full : RaNode → Prop
  | hole => False
  | leaf _ _ => True
  | unary _ _ c => c.Full
  | join _ _ l r => l.Full ∧ r.Full

/-- The addresses of the nodes, in the order of a depth-first walk. -/
def ids : RaNode → List Nat
  | hole => []
  | leaf i _ => [i]
  | unary i _ c => i :: c.ids
  | join i _ l r => i :: (l.ids ++ r.ids)

/-- The address of the node, if there is one. -/
def id? : RaNode → Option Nat
  | hole => none
  | leaf i _ => some i
  | unary i _ _ => some i
  | join i _ _ _ => some i

theorem isHole_of_full {t : RaNode} (h : t.Full) : t.isHole = false := by
  cases t with
  | hole => exact h.elim
  | _ => rfl

@[simp] theorem isFull_of_full {t : RaNode} (h : t.Full) : t.isFull = true := by
  cases t with
  | hole => exact h.elim
  | leaf i op => rfl
  | unary i op c => simp [isFull, isHole_of_full (t := c) h]
  | join i j l r => simp [isFull, isHole_of_full (t := l) h.1, isHole_of_full (t := r) h.2]

end RaNode

end SqlOptimizer.Algebra.RelationalAlgebra
