import SqlOptimizer.Parse.PgQuery
import SqlOptimizer.Tree.PushDown

/-!
How the parser decides that a subquery is correlated: some attribute of its select list,
its WHERE clause or its join conditions matches no item of its FROM clause. Following
a null pointer gives `none`.
-/

set_option autoImplicit false
set_option relaxedAutoImplicit false

namespace SqlOptimizer.Parse.Correlation

open PgQuery
open Tree.PushDown (attributePrefix)

/-- An attribute as a pair of name and qualifier. -/
abbrev AttributeRef := String × String

/-- The attribute of a column reference; other numbers of fields leave a null pointer. -/
def columnRefAttribute : List String → Option AttributeRef
  | [name] => some (name, "")
  | [aliasName, name] => some (name, aliasName)
  | _ => none

/-- `SQLtoRA::is_tpch_attribute`. -/
def isTpchAttribute (attr relation : String) : Bool :=
  (attributePrefix attr, relation) ∈
    [("p", "part"), ("s", "supplier"), ("ps", "partsupp"), ("c", "customer"), ("n", "nation"),
      ("l", "lineitem"), ("r", "region"), ("o", "orders")]

mutual

/-- `SQLtoRA::find_where_expression_attributes`. -/
def findWhereExpressionAttributes : PgNode → Option (List AttributeRef)
  | .nullptr => none
  | .boolExpr _ args => findAllWhereAttributes args
  | .aExpr _ _ lexpr rexpr =>
      (findExpressionAttributes lexpr).bind fun l =>
        (findExpressionAttributes rexpr).map fun r => l ++ r
  | _ => some []

def findAllWhereAttributes : List PgNode → Option (List AttributeRef)
  | [] => some []
  | n :: ns =>
      (findWhereExpressionAttributes n).bind fun l =>
        (findAllWhereAttributes ns).map fun r => l ++ r

/-- `SQLtoRA::find_expression_attributes`. -/
def findExpressionAttributes : PgNode → Option (List AttributeRef)
  | .nullptr => none
  | .columnRef fields => (columnRefAttribute fields).map fun a => [a]
  | .aExpr _ _ .nullptr .nullptr => some []
  | .aExpr _ _ .nullptr rexpr => findExpressionAttributes rexpr
  | .aExpr _ _ lexpr .nullptr => findExpressionAttributes lexpr
  | .aExpr _ _ lexpr rexpr =>
      (findExpressionAttributes lexpr).bind fun l =>
        (findExpressionAttributes rexpr).map fun r => l ++ r
  | .funcCall _ args _ _ => findAllExpressionAttributes args
  | .joinExpr _ _ _ quals _ => findWhereExpressionAttributes quals
  | _ => some []

def findAllExpressionAttributes : List PgNode → Option (List AttributeRef)
  | [] => some []
  | n :: ns =>
      (findExpressionAttributes n).bind fun l =>
        (findAllExpressionAttributes ns).map fun r => l ++ r

end

/-- The name of a relation and its alias, empty when there is none. -/
def rangeVarAlias (relname : String) (tableAlias : Option Alias) : String × String :=
  (relname, (tableAlias.map Alias.aliasname).getD "")

/-- The relations and aliases of a FROM clause. -/
def fromRelationsAliases : List PgNode → Option (List (String × String))
  | [] => some []
  | .rangeVar relname tableAlias :: ns =>
      (fromRelationsAliases ns).map fun r => rangeVarAlias relname tableAlias :: r
  | .joinExpr _ (.rangeVar lname lalias) (.rangeVar rname ralias) _ _ :: ns =>
      (fromRelationsAliases ns).map fun r =>
        rangeVarAlias lname lalias :: rangeVarAlias rname ralias :: r
  | .joinExpr _ _ _ _ _ :: _ => none
  | _ :: ns => fromRelationsAliases ns

def targetValue : PgNode → PgNode
  | .resTarget _ val => val
  | _ => .nullptr

/-- Some item of the FROM clause defines the attribute. -/
def isDefined (relationsAliases : List (String × String)) (attr : AttributeRef) : Bool :=
  attr.1 = "*" || relationsAliases.any fun rel =>
    attr.2 = rel.1 || (attr.2 ≠ "" && attr.2 = rel.2) ||
      (attr.2 = "" && isTpchAttribute attr.1 rel.1)

/-- `SQLtoRA::is_correlated_subquery`. -/
def isCorrelatedSubquery : PgNode → Option Bool
  | .selectStmt _ targetList fromClause whereClause _ _ _ _ =>
      (fromRelationsAliases fromClause).bind fun relationsAliases =>
        (findAllExpressionAttributes (targetList.map targetValue)).bind fun targets =>
          (match whereClause with
            | .nullptr => some []
            | w => findWhereExpressionAttributes w).bind fun conditions =>
              (findAllExpressionAttributes fromClause).map fun joins =>
                !(targets ++ conditions ++ joins).all (isDefined relationsAliases)
  | _ => none

end SqlOptimizer.Parse.Correlation
