import SqlOptimizer.Parse.Builder
import SqlOptimizer.Parse.Correlation

/-!
The translation of `parse_sql_to_ra.cc` from libpg_query's AST to relational algebra.
A failing assertion, a null pointer or a node that would become its own descendant
gives `none`.

The functions of the source that call each other form one recursion at the end of the
module. What each of them does with its parsed parts stands before it, with the parts
passed as actions.
-/

set_option autoImplicit false
set_option relaxedAutoImplicit false

namespace SqlOptimizer.Parse.ParseSqlToRa

open Algebra.RelationalAlgebra
open PgQuery Correlation Builder

/-- The constant of an `A_Const`. -/
def constantOf : ConstVal → Expr
  | .integer ival => .constant (toString ival) .int
  | .float str => .constant str .float
  | .string str => .constant str .string
  | .other => .nullptr

/-- The attribute of a column reference. -/
def attributeOf (fields : List String) : Expr :=
  match columnRefAttribute fields with
  | some (name, aliasName) => .attribute name aliasName
  | none => .nullptr

/-- The type modifiers that `parse_expression` knows. -/
def typModText : Option Int → Option String
  | none => some ""
  | some 4 => some "year"
  | some 2 => some "month"
  | some 8 => some "day"
  | some _ => none

def isAggregateName (name : String) : Bool :=
  name ∈ ["min", "max", "sum", "count", "avg"]

def raFuncName (funcname : String) : String :=
  if funcname = "date_part" then "extract" else funcname

mutual

/-- The output parameter `has_aggregate` of `parse_expression`. -/
def hasAggregate : PgNode → Bool
  | .aExpr _ _ lexpr rexpr => hasAggregate lexpr || hasAggregate rexpr
  | .funcCall funcname args _ _ => isAggregateName (raFuncName funcname) || anyAggregate args
  | .typeCast _ _ arg => hasAggregate arg
  | .caseExpr args defresult => anyAggregate args || hasAggregate defresult
  | .caseWhen _ result => hasAggregate result
  | _ => false

def anyAggregate : List PgNode → Bool
  | [] => false
  | n :: ns => hasAggregate n || anyAggregate ns

end

/-- The text of a comparison operator in `parse_where_expression`. -/
def binaryOperator (kind : AExprKind) (name : String) : String :=
  match kind with
  | .op => name
  | .like => if name.toList.head? = some '!' then " not like " else " like "
  | .between => " between "
  | .inList => if name = "=" then " in " else if name = "<>" then " not in " else ""
  | .other => ""

/-- A pointer of the AST that may be null. -/
def orNull (n : PgNode) (x : Parser Expr) : Parser Expr := if n.isNull then pure .nullptr else x

/-- `right_where_subquery_marker`. -/
def rightMarker (join : Join) : Expr := .whereSubqueryMarker join.marker join.type

/-- The join types of scalar subqueries, dependent and independent. -/
def scalarTypes : JoinType × JoinType := (.dependentInnerLeft, .crossProduct)

/-- The join types of EXISTS subqueries. -/
def existsTypes (negated : Bool) : JoinType × JoinType :=
  if negated then (.antiLeftDependent, .antiLeft) else (.semiLeftDependent, .semiLeft)

/-- The join types of IN subqueries. -/
def inTypes (negated : Bool) : JoinType × JoinType :=
  if negated then (.antiInLeftDependent, .antiInLeft) else (.inLeftDependent, .inLeft)

/-- `SQLtoRA::parse_where_subquery`, `parse_where_exists_subquery` and
`parse_where_in_subquery`: the marker and the join, which still lacks its left child. -/
def subqueryJoin (subselect : PgNode) (types : JoinType × JoinType) (subquery : Parser RaNode)
    (probe : Parser Expr) : Parser (Expr × RaNode) := do
  let marker ← nextMarker
  let correlated ← ofOption (isCorrelatedSubquery subselect)
  let id ← newId
  let pr ← subquery
  let predicate ← probe
  let join : Join := {
    type := if correlated then types.1 else types.2
    predicate := predicate
    marker := marker }
  return (rightMarker join, .join id join .hole pr)

/-- An operand of a comparison with its join, if it is a subquery. -/
def operand (n : PgNode) (subquery : Parser RaNode) (expression : Parser Expr) :
    Parser (Expr × RaNode) :=
  match n with
  | .subLink _ _ subselect => subqueryJoin subselect scalarTypes subquery (return .nullptr)
  | _ => do
      let e ← expression
      return (e, .hole)

/-- The right operand may also be the list of a BETWEEN. -/
def rightOperand (n : PgNode) (subquery : Parser RaNode) (items : Parser (List Expr))
    (expression : Parser Expr) : Parser (Expr × RaNode) :=
  match n with
  | .list _ => do
      let es ← items
      return (.list es, .hole)
  | n => operand n subquery expression

/-- The comparisons of `parse_where_expression`. -/
def comparison (operator : String) (sel : RaNode) (left right : Parser (Expr × RaNode)) :
    Parser (Expr × RaNode) := do
  let (l, leftJoin) ← left
  let sel ← attachPresent sel leftJoin
  let (r, rightJoin) ← right
  -- the join of a left subquery is attached a second time
  let sel ← attachPresent sel leftJoin
  let sel ← attachPresent sel rightJoin
  return (.predicate l r operator, sel)

/-- The joins of the sublink types that `parse_where_expression` knows. -/
def sublinkJoin (type : SubLinkType) (subselect : PgNode) (negated : Bool)
    (subquery : Parser RaNode) (testexpr : Parser Expr) : Parser (Expr × RaNode) :=
  match type with
  | .exists => subqueryJoin subselect (existsTypes negated) subquery (return .nullptr)
  | .any => subqueryJoin subselect (inTypes negated) subquery do
      let l ← testexpr
      return .predicate l .nullptr ""
  | _ => crash

/-- The EXISTS and IN subqueries of `parse_where_expression`. -/
def whereSublink (sel : RaNode) (subquery : Parser (Expr × RaNode)) : Parser (Expr × RaNode) := do
  let (marker, join) ← subquery
  let sel ← attachTo sel join
  return (marker, sel)

/-- `SQLtoRA::parse_select`. -/
def parseSelect (distinct implicitGroupBy : Bool) (targets : Parser (List Expr)) :
    Parser RaNode := do
  let id ← newId
  let args ← targets
  let pr := RaNode.projection id { args := args, distinct := distinct } .hole
  if implicitGroupBy then do
    let id ← newId
    attachTo pr (.groupBy id [] true .hole)
  else return pr

/-- `SQLtoRA::parse_order_by`. -/
def parseOrderBy (isEmpty : Bool) (sorts : Parser (List (Expr × SortDirection))) :
    Parser RaNode :=
  if isEmpty then return .hole
  else do
    let id ← newId
    let sorts ← sorts
    return .orderBy id (sorts.map Prod.fst) (sorts.map Prod.snd) .hole

/-- `SQLtoRA::parse_group_by`. -/
def parseGroupBy (isEmpty : Bool) (args : Parser (List Expr)) : Parser RaNode :=
  if isEmpty then return .hole
  else do
    let id ← newId
    let args ← args
    return .groupBy id args false .hole

/-- `Ra__Node__Selection` or `Ra__Node__Having` with its predicate set. -/
def setPredicate (predicate : Expr) : RaNode → RaNode
  | .selection i _ c => .selection i predicate c
  | .having i _ c => .having i predicate c
  | t => t

/-- `SQLtoRA::parse_having`. -/
def parseHaving (isNull : Bool) (condition : RaNode → Parser (Expr × RaNode)) : Parser RaNode :=
  if isNull then return .hole
  else do
    let id ← newId
    let (p, having) ← condition (.having id .nullptr .hole)
    return if p.isPresent then setPredicate p having else .hole

/-- `SQLtoRA::parse_where`. -/
def parseWhere (isNull : Bool) (condition : RaNode → Parser (Expr × RaNode)) : Parser RaNode :=
  if isNull then return .hole
  else do
    let id ← newId
    let (p, sel) ← condition (.selection id .nullptr .hole)
    if p.isPresent then return setPredicate p sel
    else ofOption sel.childNodes.head?

/-- The loop of `SQLtoRA::parse_from` over the parsed items. -/
def addRelations (base : RaNode) : List RaNode → Parser RaNode
  | [] => return base
  | [r] => attachTo base r
  | [r, r'] => do
      let base ← attachTo base r
      attachTo base r'
  | r :: rs => do
      let base ← attachTo base r
      let id ← newId
      let base ← attachTo base (.join id { type := .crossProduct } .hole .hole)
      addRelations base rs

/-- `SQLtoRA::parse_from`. -/
def parseFrom (isEmpty : Bool) (relations : Parser (List RaNode)) : Parser RaNode :=
  if isEmpty then do
    let id ← newId
    return .leaf id .dummy
  else do
    let relations ← relations
    match relations with
    | [r] => return r
    | rs => do
        let id ← newId
        addRelations (.join id { type := .crossProduct } .hole .hole) rs

/-- A relation of a FROM clause. -/
def relationOf (relname : String) (tableAlias : Option Alias) : Parser RaNode := do
  let id ← newId
  return .relation id relname ((tableAlias.map Alias.aliasname).getD "")

/-- The projection with the alias and the column names of a FROM subquery or a CTE. -/
def renameProjection (subqueryAlias : String) (columns : List String) : RaNode → RaNode
  | .projection i pr c =>
      .projection i { pr with subqueryAlias := subqueryAlias
                              subqueryColumns := pr.subqueryColumns ++ columns } c
  | t => t

/-- `SQLtoRA::parse_from_subquery`: a correlated FROM subquery leaves a null pointer. -/
def parseFromSubquery (subselect : PgNode) (tableAlias : Alias) (subquery : Parser RaNode) :
    Parser RaNode := do
  let pr ← subquery
  let correlated ← ofOption (isCorrelatedSubquery subselect)
  return if correlated then .hole
    else renameProjection tableAlias.aliasname tableAlias.colnames pr

/-- The join type of a `JoinExpr`. -/
def joinTypeOf : PgJoinType → Option JoinType
  | .inner => some .inner
  | .left => some .left
  | .other => none

/-- `SQLtoRA::parse_from_join`. -/
def parseFromJoin (jointype : PgJoinType) (larg rarg : PgNode) (tableAlias : Option Alias)
    (quals : Parser Expr) : Parser RaNode :=
  match larg, rarg with
  | .rangeVar lname lalias, .rangeVar rname ralias => do
      let type ← ofOption (joinTypeOf jointype)
      let id ← newId
      let l ← relationOf lname lalias
      let r ← relationOf rname ralias
      let p ← quals
      let join : Join := {
        type := type
        predicate := p
        aliasName := (tableAlias.map Alias.aliasname).getD ""
        columns := (tableAlias.map Alias.colnames).getD [] }
      return .join id join l r
  | _, _ => crash

mutual

/-- `SQLtoRA::parse_expression`. -/
def parseExpression : PgNode → Parser Expr
  | .nullptr => crash
  | .columnRef fields => return attributeOf fields
  | .aConst val => return constantOf val
  | .aExpr _ name lexpr rexpr => do
      let l ← orNull lexpr (parseExpression lexpr)
      let r ← orNull rexpr (parseExpression rexpr)
      return .expression l r name
  | .funcCall funcname args aggStar aggDistinct => do
      let name := raFuncName funcname
      let args ← parseExpressions args
      return .funcCall name (if aggStar then args ++ [.attribute "*" ""] else args)
        (isAggregateName name) (isAggregateName name && aggDistinct)
  | .typeCast typeName typmod arg => do
      let mod ← ofOption (typModText typmod)
      let e ← parseExpression arg
      return .typeCast typeName mod e
  | .caseExpr args defresult => do
      let whens ← parseWhens args
      let e ← orNull defresult (parseExpression defresult)
      return .caseExpr whens e
  -- the other node cases leave the null pointer
  | _ => return .nullptr

def parseExpressions : List PgNode → Parser (List Expr)
  | [] => return []
  | n :: ns => do
      let e ← parseExpression n
      let es ← parseExpressions ns
      return e :: es

/-- An arm of a CASE expression; its condition has no Selection to attach subqueries to. -/
def parseWhen : PgNode → Parser Expr
  | .caseWhen expr result => do
      let (w, _) ← parseWhereExpression expr .hole false
      let t ← parseExpression result
      return .caseWhen w t
  | _ => crash

def parseWhens : List PgNode → Parser (List Expr)
  | [] => return []
  | n :: ns => do
      let e ← parseWhen n
      let es ← parseWhens ns
      return e :: es

/-- The items of a list node. -/
def parseItems : PgNode → Parser (List Expr)
  | .list items => parseExpressions items
  | _ => crash

/-- The subquery of a sublink. -/
def parseSubselect : PgNode → Parser RaNode
  | .subLink _ _ subselect => parseSelectStatement subselect
  | _ => crash

/-- `SQLtoRA::parse_where_expression`: the predicate, and the node `sel` with the joins of
the subqueries attached. -/
def parseWhereExpression : PgNode → RaNode → Bool → Parser (Expr × RaNode)
  | .nullptr, _, _ => crash
  | .boolExpr boolop args, sel, _ => do
      let (args, sel) ← parseWhereArgs args sel (boolop = .not)
      return (.boolPredicate boolop args, sel)
  | .aExpr kind name lexpr rexpr, sel, _ =>
      if kind = .inList then do
        let l ← parseExpression lexpr
        let es ← parseItems rexpr
        return (.predicate l (.inList es) (binaryOperator kind name), sel)
      else
        comparison (binaryOperator kind name) sel
          (operand lexpr (parseSubselect lexpr) (parseExpression lexpr))
          (rightOperand rexpr (parseSubselect rexpr) (parseItems rexpr) (parseExpression rexpr))
  | .subLink type testexpr subselect, sel, negated =>
      whereSublink sel <| sublinkJoin type subselect negated (parseSelectStatement subselect)
        (parseExpression testexpr)
  | .nullTest arg type, sel, _ => do
      let e ← parseExpression arg
      return (.nullTest e type, sel)
  | _, sel, _ => return (.nullptr, sel)

def parseWhereArgs : List PgNode → RaNode → Bool → Parser (List Expr × RaNode)
  | [], sel, _ => return ([], sel)
  | n :: ns, sel, negated => do
      let (p, sel) ← parseWhereExpression n sel negated
      let (ps, sel) ← parseWhereArgs ns sel negated
      return (if p.isPresent then p :: ps else ps, sel)

/-- `SQLtoRA::parse_select_statement`. -/
def parseSelectStatement : PgNode → Parser RaNode
  | .selectStmt distinct targetList fromClause whereClause groupClause havingClause sortClause
      withClause => do
      parseWith withClause
      let root ← parseSelect distinct
        (groupClause.isEmpty && anyAggregate (targetList.map targetValue)) (parseTargets targetList)
      let sort ← parseOrderBy sortClause.isEmpty (parseSorts sortClause)
      let root ← attachPresent root sort
      let having ← parseHaving havingClause.isNull fun sel =>
        parseWhereExpression havingClause sel false
      let root ← attachPresent root having
      let groupBy ← parseGroupBy groupClause.isEmpty (parseExpressions groupClause)
      let root ← attachPresent root groupBy
      let selections ← parseWhere whereClause.isNull fun sel =>
        parseWhereExpression whereClause sel false
      let root ← attachPresent root selections
      let crossProducts ← parseFrom fromClause.isEmpty (parseFromItems fromClause)
      attachPresent root crossProducts
  | _ => crash

/-- One CTE of `SQLtoRA::parse_with`. -/
def parseCte : PgNode → Parser RaNode
  | .commonTableExpr ctename aliascolnames ctequery => do
      let pr ← parseSelectStatement ctequery
      return renameProjection ctename aliascolnames pr
  | _ => crash

/-- `SQLtoRA::parse_with`. -/
def parseWith : List PgNode → Parser Unit
  | [] => return ()
  | n :: ns => do
      let cte ← parseCte n
      pushCte cte
      parseWith ns

def parseTarget : PgNode → Parser Expr
  | .resTarget name val => do
      let e ← parseExpression val
      return .selectExpression e name
  | _ => crash

def parseTargets : List PgNode → Parser (List Expr)
  | [] => return []
  | n :: ns => do
      let e ← parseTarget n
      let es ← parseTargets ns
      return e :: es

def parseSort : PgNode → Parser (Expr × SortDirection)
  | .sortBy node direction => do
      let e ← parseExpression node
      return (e, direction)
  | _ => crash

def parseSorts : List PgNode → Parser (List (Expr × SortDirection))
  | [] => return []
  | n :: ns => do
      let e ← parseSort n
      let es ← parseSorts ns
      return e :: es

/-- An item of a FROM clause; the other node cases are skipped. -/
def parseFromItem : PgNode → Parser (Option RaNode)
  | .rangeVar relname tableAlias => do
      let r ← relationOf relname tableAlias
      return some r
  | .rangeSubselect subquery tableAlias => do
      let r ← parseFromSubquery subquery tableAlias (parseSelectStatement subquery)
      return some r
  | .joinExpr jointype larg rarg quals tableAlias => do
      let r ← parseFromJoin jointype larg rarg tableAlias <| orNull quals do
        let (p, _) ← parseWhereExpression quals .hole false
        return p
      return some r
  | _ => return none

def parseFromItems : List PgNode → Parser (List RaNode)
  | [] => return []
  | n :: ns => do
      let r ← parseFromItem n
      let rs ← parseFromItems ns
      return r.toList ++ rs

end

private theorem returnsNode_parseSelect (distinct implicitGroupBy : Bool)
    (targets : Parser (List Expr)) : ReturnsNode (parseSelect distinct implicitGroupBy targets) := by
  refine ReturnsNode.bind fun id => ReturnsNode.bind fun args => ?_
  dsimp only
  split
  · exact ReturnsNode.bind fun id => ReturnsNode.attachTo _ _
  · exact ReturnsNode.pure (by simp)

/-- A SELECT statement is parsed to a node. -/
theorem returnsNode_parseSelectStatement (n : PgNode) : ReturnsNode (parseSelectStatement n) := by
  cases n with
  | selectStmt distinct targetList fromClause whereClause groupClause havingClause sortClause
      withClause =>
    rw [parseSelectStatement]
    refine ReturnsNode.bind fun _ => ReturnsNode.bind_node (returnsNode_parseSelect _ _ _) ?_
    refine fun root hroot => ReturnsNode.bind fun sort => ?_
    refine ReturnsNode.bind_node (ReturnsNode.attachPresent hroot sort) ?_
    refine fun root hroot => ReturnsNode.bind fun having => ?_
    refine ReturnsNode.bind_node (ReturnsNode.attachPresent hroot having) ?_
    refine fun root hroot => ReturnsNode.bind fun groupBy => ?_
    refine ReturnsNode.bind_node (ReturnsNode.attachPresent hroot groupBy) ?_
    refine fun root hroot => ReturnsNode.bind fun selections => ?_
    refine ReturnsNode.bind_node (ReturnsNode.attachPresent hroot selections) ?_
    exact fun root hroot => ReturnsNode.bind fun _ => ReturnsNode.attachPresent hroot _
  | _ =>
    rw [parseSelectStatement]
    · exact ReturnsNode.crash
    all_goals simp

/-- What the join of a WHERE subquery consists of. -/
theorem subqueryJoin_eq_some {subselect : PgNode} {types : JoinType × JoinType}
    {subquery : Parser RaNode} {probe : Parser Expr} {e : Expr} {t : RaNode}
    {s s' : ParserState} (h : subqueryJoin subselect types subquery probe s = some ((e, t), s')) :
    ∃ i join pr s₁ s₂, e = rightMarker join ∧ t = .join i join .hole pr ∧
      subquery s₁ = some (pr, s₂) ∧ (join.type = types.1 ∨ join.type = types.2) ∧
      probe s₂ = some (join.predicate, s') := by
  simp only [subqueryJoin, bind_eq_some, nextMarker_eq_some, ofOption_eq_some, newId_eq_some,
    pure_eq_some, Prod.mk.injEq] at h
  obtain ⟨m, _, ⟨rfl, rfl⟩, correlated, _, ⟨-, rfl⟩, i, _, ⟨rfl, rfl⟩, pr, s₂, hpr, predicate, s₃,
    hprobe, ⟨rfl, rfl⟩, rfl⟩ := h
  refine ⟨_, _, pr, _, s₂, rfl, rfl, hpr, ?_, hprobe⟩
  cases correlated
  · exact .inr rfl
  · exact .inl rfl

/-- A comparison with a subquery on its left has no result: its join would be attached to
itself. -/
theorem comparison_subquery {operator : String} {sel : RaNode} {type : SubLinkType}
    {testexpr subselect : PgNode} {expression : Parser Expr} {right : Parser (Expr × RaNode)}
    (hsel : LeftOpen sel) (s : ParserState) :
    comparison operator sel (operand (.subLink type testexpr subselect)
      (parseSelectStatement subselect) expression) right s = none := by
  rw [Option.eq_none_iff_forall_ne_some]
  intro r h
  simp only [comparison, bind_eq_some, Prod.exists] at h
  obtain ⟨l, leftJoin, s₁, hl, sel₁, s₂, hsel₁, r, rightJoin, s₃, hr, sel₂, s₄, hsel₂, -⟩ := h
  obtain ⟨i, join, pr, s₅, s₆, rfl, rfl, hpr, -, -⟩ := subqueryJoin_eq_some hl
  have hne := returnsNode_parseSelectStatement subselect _ _ _ hpr
  obtain ⟨-, -, rfl⟩ := (addSubtree_leftOpen hsel).mp (attachTo_eq_some.mp hsel₁).1
  simp [attachTo_eq_some, addSubtree_twice i join hsel hne] at hsel₂

/-- `SQLtoRA::parse`, up to the call of libpg_query. -/
def parse (stmt : PgNode) : Option (RaNode × ParserState) :=
  parseSelectStatement stmt {}

end SqlOptimizer.Parse.ParseSqlToRa
