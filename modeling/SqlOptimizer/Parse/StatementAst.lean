import SqlOptimizer.Parse.PgQuery

/-!
libpg_query's AST with the fields that `parse_sql_to_ra.cc` does not read. Without these fields it
is the AST of `PgQuery`.
-/

set_option autoImplicit false
set_option relaxedAutoImplicit false

namespace SqlOptimizer.Parse.StatementAst

open Algebra.RelationalAlgebra (BoolOperator SortDirection NullTestType)
open PgQuery

/-- `PgQuery__SetOperation`. -/
inductive SetOperation where
  | none
  | union
  | intersect
  | except
  deriving DecidableEq, Repr

/-- AST nodes. A DISTINCT clause without expressions has one null node; the operator of an ANY
sublink is empty for IN. -/
inductive AstNode where
  | nullptr
  | columnRef (fields : List String)
  | aConst (val : ConstVal)
  | aExpr (kind : AExprKind) (name : String) (lexpr rexpr : AstNode)
  | funcCall (funcname : String) (args : List AstNode) (aggStar aggDistinct : Bool)
  | typeCast (typeName : String) (typmod : Option Int) (arg : AstNode)
  | caseExpr (args : List AstNode) (defresult : AstNode)
  | caseWhen (expr result : AstNode)
  | list (items : List AstNode)
  | boolExpr (boolop : BoolOperator) (args : List AstNode)
  | nullTest (arg : AstNode) (nulltesttype : NullTestType)
  | booleanTest (arg : AstNode)
  | subLink (subLinkType : SubLinkType) (testexpr : AstNode) (operName : String)
      (subselect : AstNode)
  | resTarget (name : String) (val : AstNode)
  | sortBy (node : AstNode) (sortbyDir : SortDirection)
  | rangeVar (relname : String) (tableAlias : Option Alias)
  | rangeSubselect (subquery : AstNode) (tableAlias : Alias)
  | joinExpr (jointype : PgJoinType) (isNatural : Bool) (larg rarg : AstNode)
      (usingClause : List String) (quals : AstNode) (tableAlias : Option Alias)
  | commonTableExpr (ctename : String) (aliascolnames : List String) (ctequery : AstNode)
  | selectStmt (distinctClause targetList fromClause : List AstNode) (whereClause : AstNode)
      (groupClause : List AstNode) (havingClause : AstNode)
      (windowClause valuesLists sortClause : List AstNode) (limitOffset limitCount : AstNode)
      (withClause : List AstNode) (op : SetOperation) (larg rarg : AstNode)
  | other
  deriving Repr

namespace AstNode

def isNull : AstNode → Bool
  | nullptr => true
  | _ => false

/-- Induction with a hypothesis for every child. -/
@[elab_as_elim]
theorem ind {P : AstNode → Prop}
    (nullptr : P .nullptr)
    (columnRef : ∀ fields, P (.columnRef fields))
    (aConst : ∀ val, P (.aConst val))
    (aExpr : ∀ kind name lexpr rexpr, P lexpr → P rexpr → P (.aExpr kind name lexpr rexpr))
    (funcCall : ∀ f args star distinct, (∀ n ∈ args, P n) → P (.funcCall f args star distinct))
    (typeCast : ∀ type typmod arg, P arg → P (.typeCast type typmod arg))
    (caseExpr : ∀ args d, (∀ n ∈ args, P n) → P d → P (.caseExpr args d))
    (caseWhen : ∀ expr result, P expr → P result → P (.caseWhen expr result))
    (list : ∀ items, (∀ n ∈ items, P n) → P (.list items))
    (boolExpr : ∀ op args, (∀ n ∈ args, P n) → P (.boolExpr op args))
    (nullTest : ∀ arg type, P arg → P (.nullTest arg type))
    (booleanTest : ∀ arg, P arg → P (.booleanTest arg))
    (subLink : ∀ type testexpr operName subselect, P testexpr → P subselect →
      P (.subLink type testexpr operName subselect))
    (resTarget : ∀ name val, P val → P (.resTarget name val))
    (sortBy : ∀ node dir, P node → P (.sortBy node dir))
    (rangeVar : ∀ relname a, P (.rangeVar relname a))
    (rangeSubselect : ∀ subquery a, P subquery → P (.rangeSubselect subquery a))
    (joinExpr : ∀ type natural larg rarg usings quals a, P larg → P rarg → P quals →
      P (.joinExpr type natural larg rarg usings quals a))
    (commonTableExpr : ∀ name cols query, P query → P (.commonTableExpr name cols query))
    (selectStmt : ∀ distinctClause targetList fromClause whereClause groupClause havingClause
      windowClause valuesLists sortClause limitOffset limitCount withClause op larg rarg,
      (∀ n ∈ distinctClause, P n) → (∀ n ∈ targetList, P n) → (∀ n ∈ fromClause, P n) →
      P whereClause → (∀ n ∈ groupClause, P n) → P havingClause → (∀ n ∈ windowClause, P n) →
      (∀ n ∈ valuesLists, P n) → (∀ n ∈ sortClause, P n) → P limitOffset → P limitCount →
      (∀ n ∈ withClause, P n) → P larg → P rarg →
      P (.selectStmt distinctClause targetList fromClause whereClause groupClause havingClause
        windowClause valuesLists sortClause limitOffset limitCount withClause op larg rarg))
    (other : P .other)
    (n : AstNode) : P n := by
  refine AstNode.rec (motive_1 := P) (motive_2 := fun ns => ∀ n ∈ ns, P n)
    nullptr columnRef aConst aExpr (fun f args star d h => funcCall f args star d h) typeCast
    (fun args d h hd => caseExpr args d h hd) caseWhen (fun items h => list items h)
    (fun op args h => boolExpr op args h) nullTest booleanTest subLink resTarget sortBy rangeVar
    rangeSubselect joinExpr commonTableExpr ?_ other ?_ ?_ n
  · exact fun d ts fs w gs h wins vals ss off cnt ws op l r hd ht hf hw hg hh hwins hvals hs hoff
      hcnt hws hl hr => selectStmt d ts fs w gs h wins vals ss off cnt ws op l r hd ht hf hw hg hh
        hwins hvals hs hoff hcnt hws hl hr
  · simp
  · intro n ns hn hns
    simpa using ⟨hn, hns⟩

end AstNode

mutual

/-- What the parser sees of the AST. -/
def erase : AstNode → PgNode
  | .nullptr => .nullptr
  | .columnRef fields => .columnRef fields
  | .aConst val => .aConst val
  | .aExpr kind name lexpr rexpr => .aExpr kind name (erase lexpr) (erase rexpr)
  | .funcCall f args star distinct => .funcCall f (eraseAll args) star distinct
  | .typeCast type typmod arg => .typeCast type typmod (erase arg)
  | .caseExpr args d => .caseExpr (eraseAll args) (erase d)
  | .caseWhen expr result => .caseWhen (erase expr) (erase result)
  | .list items => .list (eraseAll items)
  | .boolExpr op args => .boolExpr op (eraseAll args)
  | .nullTest arg type => .nullTest (erase arg) type
  | .booleanTest _ => .other
  | .subLink type testexpr _ subselect => .subLink type (erase testexpr) (erase subselect)
  | .resTarget name val => .resTarget name (erase val)
  | .sortBy node dir => .sortBy (erase node) dir
  | .rangeVar relname a => .rangeVar relname a
  | .rangeSubselect subquery a => .rangeSubselect (erase subquery) a
  | .joinExpr type _ larg rarg _ quals a => .joinExpr type (erase larg) (erase rarg) (erase quals) a
  | .commonTableExpr name cols query => .commonTableExpr name cols (erase query)
  | .selectStmt distinctClause targetList fromClause whereClause groupClause havingClause _ _
      sortClause _ _ withClause _ _ _ =>
      .selectStmt (!distinctClause.isEmpty) (eraseAll targetList) (eraseAll fromClause)
        (erase whereClause) (eraseAll groupClause) (erase havingClause) (eraseAll sortClause)
        (eraseAll withClause)
  | .other => .other

def eraseAll : List AstNode → List PgNode
  | [] => []
  | n :: ns => erase n :: eraseAll ns

end

theorem isNull_erase (n : AstNode) : (erase n).isNull = n.isNull := by
  cases n <;> rfl

theorem eraseAll_eq_map (ns : List AstNode) : eraseAll ns = ns.map erase := by
  induction ns with
  | nil => rfl
  | cons n ns ih => rw [eraseAll, ih, List.map_cons]

theorem isEmpty_eraseAll (ns : List AstNode) : (eraseAll ns).isEmpty = ns.isEmpty := by
  cases ns <;> rfl

end SqlOptimizer.Parse.StatementAst
