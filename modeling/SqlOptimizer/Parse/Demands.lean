import SqlOptimizer.Parse.Inventory
import SqlOptimizer.Parse.ParseSqlToRa
import SqlOptimizer.Parse.StatementAst

/-!
What a statement asks for: the boolean leaves of its conditions and its clauses. A tree has some
of them in its operators; the statements that the parser keeps whole are described by their AST.
-/

set_option autoImplicit false
set_option relaxedAutoImplicit false

namespace SqlOptimizer.Parse.Demands

open Algebra.RelationalAlgebra
open PgQuery Correlation ParseSqlToRa StatementAst
open Inventory (sublinkType)

/-- The operator of a boolean leaf. A comparison with ANY is an IN with an operator of its own. -/
inductive LeafOperator where
  | comparison (op : String)
  | nullTest (type : NullTestType)
  | subquery (type : SubLinkType)
  | anyOperator (op : String)
  | unsupported
  deriving DecidableEq, Repr

/-- The clause of a condition. -/
inductive Condition where
  | where
  | having
  | on
  deriving DecidableEq, Repr

/-- The other clauses of a statement and of its joins. -/
inductive Clause where
  | distinct
  | distinctOn
  | groupBy
  | having
  | window
  | values
  | orderBy
  | limit
  | offset
  | setOperation
  | natural
  | using
  deriving DecidableEq, Repr

inductive Part where
  | leaf (condition : Condition) (operator : LeafOperator)
  | clause (clause : Clause)
  deriving DecidableEq, Repr

/-- The comparison of an `A_Expr`, if the algebra has it. -/
def comparisonOf : AExprKind → String → LeafOperator
  | .op, name => if name = "" then .unsupported else .comparison name
  | .like, name =>
      if name.toList.head? = some '!' then .comparison " not like " else .comparison " like "
  | .between, _ => .comparison " between "
  | .inList, name =>
      if name = "=" then .comparison " in "
      else if name = "<>" then .comparison " not in " else .unsupported
  | .other, _ => .unsupported

/-- An IN, or `= ANY`. -/
def isIn (operName : String) : Bool := operName = "" || operName = "="

mutual

/-- The boolean leaves of a condition. -/
def conditionLeaves : AstNode → List LeafOperator
  | .nullptr => []
  | .boolExpr _ args => allConditionLeaves args
  | .aExpr kind name _ _ => [comparisonOf kind name]
  | .nullTest _ type => [.nullTest type]
  | .subLink .exists _ _ _ => [.subquery .exists]
  | .subLink .any _ operName _ =>
      .subquery .any :: if isIn operName then [] else [.anyOperator operName]
  | _ => [.unsupported]

def allConditionLeaves : List AstNode → List LeafOperator
  | [] => []
  | n :: ns => conditionLeaves n ++ allConditionLeaves ns

end

/-- A clause that is there under a condition. -/
def clauseIf (c : Clause) (present : Bool) : List Part := if present then [.clause c] else []

/-- The clauses that the parser does not read. -/
def unreadClauses (distinctClause windowClause valuesLists : List AstNode)
    (limitOffset limitCount : AstNode) (op : SetOperation) : List Part :=
  clauseIf .distinctOn (distinctClause.any fun n => !n.isNull) ++
    clauseIf .window (!windowClause.isEmpty) ++ clauseIf .values (!valuesLists.isEmpty) ++
    clauseIf .offset (!limitOffset.isNull) ++ clauseIf .limit (!limitCount.isNull) ++
    clauseIf .setOperation (op ≠ .none)

/-- The condition of a clause. -/
def leaves (c : Condition) (n : AstNode) : List Part := (conditionLeaves n).map (.leaf c)

mutual

/-- What the node and the nodes below it ask for, with or without the WITH queries. -/
def demands (withQueries : Bool) : AstNode → List Part
  | .aExpr _ _ lexpr rexpr => demands withQueries lexpr ++ demands withQueries rexpr
  | .funcCall _ args _ _ => allDemands withQueries args
  | .typeCast _ _ arg => demands withQueries arg
  | .caseExpr args d => allDemands withQueries args ++ demands withQueries d
  | .caseWhen expr result => demands withQueries expr ++ demands withQueries result
  | .list items => allDemands withQueries items
  | .boolExpr _ args => allDemands withQueries args
  | .nullTest arg _ => demands withQueries arg
  | .booleanTest arg => demands withQueries arg
  | .subLink _ testexpr _ subselect => demands withQueries testexpr ++ demands withQueries subselect
  | .resTarget _ val => demands withQueries val
  | .sortBy node _ => demands withQueries node
  | .rangeSubselect subquery _ => demands withQueries subquery
  | .joinExpr _ natural larg rarg usings quals _ =>
      clauseIf .natural natural ++ clauseIf .using (!usings.isEmpty) ++ leaves .on quals ++
        demands withQueries larg ++ demands withQueries rarg ++ demands withQueries quals
  | .commonTableExpr _ _ query => demands withQueries query
  | .selectStmt distinctClause targetList fromClause whereClause groupClause havingClause
      windowClause valuesLists sortClause limitOffset limitCount withClause op larg rarg =>
      (if withQueries then allDemands withQueries withClause else []) ++
        clauseIf .distinct (!distinctClause.isEmpty) ++ allDemands withQueries targetList ++
        clauseIf .orderBy (!sortClause.isEmpty) ++ allDemands withQueries sortClause ++
        clauseIf .having (!havingClause.isNull) ++ leaves .having havingClause ++
        demands withQueries havingClause ++
        clauseIf .groupBy (!groupClause.isEmpty) ++ allDemands withQueries groupClause ++
        leaves .where whereClause ++ demands withQueries whereClause ++
        allDemands withQueries fromClause ++
        (unreadClauses distinctClause windowClause valuesLists limitOffset limitCount op ++
          allDemands withQueries distinctClause ++ allDemands withQueries windowClause ++
          allDemands withQueries valuesLists ++ demands withQueries limitOffset ++
          demands withQueries limitCount ++ demands withQueries larg ++ demands withQueries rarg)
  | _ => []

def allDemands (withQueries : Bool) : List AstNode → List Part
  | [] => []
  | n :: ns => demands withQueries n ++ allDemands withQueries ns

end

mutual

/-- The boolean leaves of a predicate. An operator that has been left empty stands for nothing. -/
def predicateLeaves : Expr → List LeafOperator
  | .boolPredicate _ args => allPredicateLeaves args
  | .predicate _ _ op => if op = "" then [] else [.comparison op]
  | .nullTest _ type => [.nullTest type]
  | .whereSubqueryMarker _ type =>
      match sublinkType type with
      | .exists => [.subquery .exists]
      | .any => [.subquery .any]
      | _ => []
  | _ => []

def allPredicateLeaves : List Expr → List LeafOperator
  | [] => []
  | e :: es => predicateLeaves e ++ allPredicateLeaves es

end

/-- The leaves and clauses that an operator stands for. -/
def operatorParts : UnaryOp → List Part
  | .root => []
  | .projection pr => clauseIf .distinct pr.distinct
  | .selection p => (predicateLeaves p).map (.leaf .where)
  | .orderBy _ _ => [.clause .orderBy]
  | .groupBy _ implicit => clauseIf .groupBy (!implicit)
  | .having p => [.clause .having] ++ (predicateLeaves p).map (.leaf .having)

/-- The predicate of a join with a marker is the probe of its subquery. -/
def joinParts (join : Join) : List Part :=
  if join.marker > 0 then [] else (predicateLeaves join.predicate).map (.leaf .on)

/-- The leaves and clauses in a tree. -/
def represented : RaNode → Multiset Part
  | .hole => 0
  | .leaf _ _ => 0
  | .unary _ op c => operatorParts op + represented c
  | .join _ join l r => joinParts join + represented l + represented r

/-- The leaves and clauses in several trees. -/
def allRepresented (ts : List RaNode) : Multiset Part := (ts.map represented).sum

/-- Every boolean leaf and every clause of the statement is in the tree or in a CTE. -/
def NothingDropped (stmt : AstNode) (t : RaNode) (ctes : List RaNode) : Prop :=
  (demands true stmt : Multiset Part) ≤ represented t + allRepresented ctes

instance (stmt : AstNode) (t : RaNode) (ctes : List RaNode) :
    Decidable (NothingDropped stmt t ctes) :=
  inferInstanceAs (Decidable ((demands true stmt : Multiset Part) ≤ _))

/-- Nothing is asked for in these nodes. -/
def isPlain (ns : List AstNode) : Bool := (allDemands true ns).isEmpty

mutual

/-- Statements without clauses that the parser does not read, and with nothing but expressions
without subqueries in the other ones. -/
def keepsStatement : AstNode → Bool
  | .selectStmt distinctClause targetList fromClause whereClause groupClause havingClause
      windowClause valuesLists sortClause limitOffset limitCount withClause op larg rarg =>
      (unreadClauses distinctClause windowClause valuesLists limitOffset limitCount op).isEmpty &&
        isPlain [larg, rarg] &&
        keepsCtes withClause && isPlain targetList && isPlain sortClause && isPlain groupClause &&
        (havingClause.isNull || keepsCondition havingClause) &&
        (whereClause.isNull || keepsCondition whereClause) && keepsFromItems fromClause
  | _ => false

/-- Conditions whose leaves are comparisons, null tests, EXISTS and IN. -/
def keepsCondition : AstNode → Bool
  | .boolExpr _ args => keepsConditions args
  | .aExpr kind name lexpr rexpr =>
      comparisonOf kind name ≠ .unsupported &&
        if kind = .inList then isPlain [lexpr, rexpr] else keepsOperand lexpr && keepsOperand rexpr
  | .nullTest arg _ => isPlain [arg]
  | .subLink type testexpr operName subselect =>
      (type = .exists || isIn operName) && isPlain [testexpr] &&
        keepsStatement subselect
  | _ => false

def keepsConditions : List AstNode → Bool
  | [] => true
  | n :: ns => keepsCondition n && keepsConditions ns

/-- Operands of comparisons. -/
def keepsOperand : AstNode → Bool
  | .subLink _ testexpr _ subselect => isPlain [testexpr] && keepsStatement subselect
  | n => isPlain [n]

/-- FROM items. A subquery that is taken for a correlated one is left out. -/
def keepsFromItem : AstNode → Bool
  | .rangeSubselect subquery _ =>
      keepsStatement subquery &&
        (isCorrelatedSubquery (erase subquery) ≠ some true || (demands false subquery).isEmpty)
  | .joinExpr _ natural larg rarg usings quals _ =>
      !natural && usings.isEmpty && isPlain [larg, rarg] && (quals.isNull || keepsCondition quals)
  | n => isPlain [n]

def keepsFromItems : List AstNode → Bool
  | [] => true
  | n :: ns => keepsFromItem n && keepsFromItems ns

def keepsCte : AstNode → Bool
  | .commonTableExpr _ _ query => keepsStatement query
  | _ => false

def keepsCtes : List AstNode → Bool
  | [] => true
  | n :: ns => keepsCte n && keepsCtes ns

end

end SqlOptimizer.Parse.Demands
