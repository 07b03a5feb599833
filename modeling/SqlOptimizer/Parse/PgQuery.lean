import SqlOptimizer.Algebra.RelationalAlgebra

/-!
The part of libpg_query's protobuf AST that `parse_sql_to_ra.cc` reads. A pointer that
may be null is `PgNode.nullptr`; `PgNode.other` stands for the node kinds that the
source has no case for.
-/

set_option autoImplicit false
set_option relaxedAutoImplicit false

namespace SqlOptimizer.Parse.PgQuery

open Algebra.RelationalAlgebra (BoolOperator SortDirection NullTestType)

/-- The value of an `A_Const`. -/
inductive ConstVal where
  | integer (ival : Int)
  | float (str : String)
  | string (str : String)
  | other
  deriving DecidableEq, Repr

/-- `PgQuery__AExprKind`. -/
inductive AExprKind where
  | op
  | like
  | between
  | inList
  | other
  deriving DecidableEq, Repr

/-- `PgQuery__SubLinkType`. -/
inductive SubLinkType where
  | exists
  | any
  | expr
  | other
  deriving DecidableEq, Repr

/-- `PgQuery__JoinType`. -/
inductive PgJoinType where
  | inner
  | left
  | other
  deriving DecidableEq, Repr

/-- `PgQuery__Alias`. -/
structure Alias where
  aliasname : String
  colnames : List String := []
  deriving DecidableEq, Repr

/-- AST nodes. The fields of a column reference are their texts, `*` for `A_Star`. -/
inductive PgNode where
  | nullptr
  | columnRef (fields : List String)
  | aConst (val : ConstVal)
  | aExpr (kind : AExprKind) (name : String) (lexpr rexpr : PgNode)
  | funcCall (funcname : String) (args : List PgNode) (aggStar aggDistinct : Bool)
  | typeCast (typeName : String) (typmod : Option Int) (arg : PgNode)
  | caseExpr (args : List PgNode) (defresult : PgNode)
  | caseWhen (expr result : PgNode)
  | list (items : List PgNode)
  | boolExpr (boolop : BoolOperator) (args : List PgNode)
  | nullTest (arg : PgNode) (nulltesttype : NullTestType)
  | subLink (subLinkType : SubLinkType) (testexpr subselect : PgNode)
  | resTarget (name : String) (val : PgNode)
  | sortBy (node : PgNode) (sortbyDir : SortDirection)
  | rangeVar (relname : String) (tableAlias : Option Alias)
  | rangeSubselect (subquery : PgNode) (tableAlias : Alias)
  | joinExpr (jointype : PgJoinType) (larg rarg quals : PgNode) (tableAlias : Option Alias)
  | commonTableExpr (ctename : String) (aliascolnames : List String) (ctequery : PgNode)
  | selectStmt (distinct : Bool) (targetList fromClause : List PgNode) (whereClause : PgNode)
      (groupClause : List PgNode) (havingClause : PgNode) (sortClause withClause : List PgNode)
  | other
  deriving Repr

/-- Induction over AST nodes with the hypothesis for every element of a list. -/
@[elab_as_elim]
theorem PgNode.ind {P : PgNode → Prop}
    (nullptr : P .nullptr)
    (columnRef : ∀ fields, P (.columnRef fields))
    (aConst : ∀ val, P (.aConst val))
    (aExpr : ∀ kind name lexpr rexpr, P lexpr → P rexpr → P (.aExpr kind name lexpr rexpr))
    (funcCall : ∀ f args star distinct, (∀ n ∈ args, P n) → P (.funcCall f args star distinct))
    (typeCast : ∀ type typmod arg, P arg → P (.typeCast type typmod arg))
    (caseExpr : ∀ args d, (∀ n ∈ args, P n) → P d → P (.caseExpr args d))
    (caseWhen : ∀ expr result, P expr → P result → P (.caseWhen expr result))
    (list : ∀ items, (∀ n ∈ items, P n) → P (.list items))
    (boolExpr : ∀ op args, (∀ n ∈ args, P n) → P (.boolExpr op args))
    (nullTest : ∀ arg type, P arg → P (.nullTest arg type))
    (subLink : ∀ type testexpr subselect, P testexpr → P subselect →
      P (.subLink type testexpr subselect))
    (resTarget : ∀ name val, P val → P (.resTarget name val))
    (sortBy : ∀ node dir, P node → P (.sortBy node dir))
    (rangeVar : ∀ relname a, P (.rangeVar relname a))
    (rangeSubselect : ∀ subquery a, P subquery → P (.rangeSubselect subquery a))
    (joinExpr : ∀ type larg rarg quals a, P larg → P rarg → P quals →
      P (.joinExpr type larg rarg quals a))
    (commonTableExpr : ∀ name cols query, P query → P (.commonTableExpr name cols query))
    (selectStmt : ∀ distinct targetList fromClause whereClause groupClause havingClause
      sortClause withClause, (∀ n ∈ targetList, P n) → (∀ n ∈ fromClause, P n) → P whereClause →
      (∀ n ∈ groupClause, P n) → P havingClause → (∀ n ∈ sortClause, P n) →
      (∀ n ∈ withClause, P n) →
      P (.selectStmt distinct targetList fromClause whereClause groupClause havingClause sortClause
        withClause))
    (other : P .other)
    (n : PgNode) : P n := by
  refine PgNode.rec (motive_1 := P) (motive_2 := fun ns => ∀ n ∈ ns, P n)
    nullptr columnRef aConst aExpr (fun f args star d h => funcCall f args star d h) typeCast
    (fun args d h hd => caseExpr args d h hd) caseWhen (fun items h => list items h)
    (fun op args h => boolExpr op args h) nullTest subLink resTarget sortBy rangeVar
    rangeSubselect joinExpr commonTableExpr ?_ other ?_ ?_ n
  · exact fun d ts fs w gs h ss ws ht hf hw hg hh hs hws =>
      selectStmt d ts fs w gs h ss ws ht hf hw hg hh hs hws
  · simp
  · intro n ns hn hns
    simpa using ⟨hn, hns⟩

/-- The pointer is null. -/
def PgNode.isNull : PgNode → Bool
  | nullptr => true
  | _ => false

end SqlOptimizer.Parse.PgQuery
