import SqlOptimizer.Algebra.RelationalAlgebra
import SqlOptimizer.Logic.BoolText

/-!
The printer of `deparse_ra_to_sql.cc`. A condition is printed as a list of tokens
whose atoms carry the printed node and its text, so that the boolean structure of
the text stays visible; `render` gives the string itself. A failing assertion or a
null pointer gives `none`.
-/

set_option autoImplicit false
set_option relaxedAutoImplicit false

namespace SqlOptimizer.Deparse.DeparseRaToSql

open Algebra.RelationalAlgebra
open Logic.BoolText (Tok sepBy)

/-- An atom of a printed condition: the node and the text it is printed as. -/
structure Leaf where
  node : Expr
  text : String
  deriving Repr

abbrev Text := List (Tok Leaf)

/-- What the printer finds for a marker: the join that carries it, the root of the
subquery, the text of the IN probe and the text of the subquery. -/
structure Subquery where
  join : Join
  root : RaNode
  probeText : String
  text : String

def tokText : Tok Leaf → String
  | .and => " and "
  | .or => " or "
  | .not => "not "
  | .lpar => "("
  | .rpar => ")"
  | .atom l => l.text
  | .negAtom l => l.text

/-- The string that a text stands for. -/
def render (ts : Text) : String := String.join (ts.map tokText)

@[simp] theorem render_nil : render [] = "" := rfl

@[simp] theorem render_append (ts us : Text) : render (ts ++ us) = render ts ++ render us := by
  simp [render]

/-- `std::string::pop_back`. -/
def popBack (s : String) : String := String.ofList s.toList.dropLast

/-- `Ra__Node__Constant::to_string`. -/
def constantToString (data : String) : DataType → String
  | .string => "'" ++ data ++ "'"
  | _ => data

/-- `Ra__Node__Attribute::to_string`. -/
def attributeToString (name aliasName : String) : String :=
  if aliasName ≠ "" then aliasName ++ "." ++ name else name

/-- The function call branch of `deparse_expression`, from the printed arguments. -/
def deparseFuncCall (funcName : String) (args : List String) (isAggregating aggDistinct : Bool) :
    Option String :=
  if funcName = "substring" then
    match args with
    | [a] => some (funcName ++ "(" ++ a ++ ")")
    | [a, b] => some (funcName ++ "(" ++ a ++ " from " ++ b ++ ")")
    | [a, b, c] => some (funcName ++ "(" ++ a ++ " from " ++ b ++ " for " ++ c ++ ")")
    | _ => some ""
  else if funcName = "extract" then
    match args with
    | [a, b] => some (funcName ++ "(" ++ String.ofList (a.toList.filter (· ≠ '\'')) ++
        " from " ++ b ++ ")")
    | _ => none
  else if args = [] then none
  else if isAggregating && aggDistinct then
    some (funcName ++ "(distinct " ++ ", ".intercalate args ++ ")")
  else some (funcName ++ "(" ++ ", ".intercalate args ++ ")")

/-- The marker branch of `deparse_predicate`. -/
def deparseMarker (subs : Nat → Option Subquery) (m : Nat) (type : JoinType) : Option Text :=
  match subs m with
  | none => none
  | some s =>
      let node := Expr.whereSubqueryMarker m type
      match s.join.type with
      | .semiLeft | .semiLeftDependent | .antiLeft | .antiLeftDependent =>
          some [.atom ⟨node, "exists (" ++ s.text ++ ")"⟩]
      | .inLeft | .inLeftDependent =>
          some [.atom ⟨node, s.probeText ++ " in (" ++ s.text ++ ")"⟩]
      | .antiInLeft | .antiInLeftDependent =>
          some [.negAtom ⟨node, s.probeText ++ " not in (" ++ s.text ++ ")"⟩]
      | _ => some [.atom ⟨node, "(" ++ s.text ++ ")"⟩]

/-- The results of `deparse_expression` and `deparse_predicate` on one node.
`deparse_predicate` falls back on `deparse_expression` for the same node, so both are
computed in one recursion. -/
structure Printed where
  expression : Option String
  predicate : Option Text

/-- A node that only `deparse_expression` knows. -/
def Printed.ofExpression (e : Expr) (s : Option String) : Printed :=
  ⟨s, s.map fun t => [.atom ⟨e, t⟩]⟩

/-- A node that only `deparse_predicate` knows; `deparse_expression` prints an error
message and returns the empty string. -/
def Printed.ofPredicate (ts : Option Text) : Printed := ⟨some "", ts⟩

/-- An argument of AND or OR: boolean arguments are parenthesised. -/
def operandText (e : Expr) (ts : Text) : Text :=
  if e.isBoolPredicate then .lpar :: ts ++ [.rpar] else ts

/-- An argument of NOT. A NOT IN marker carries its negation itself, and a null test
is printed without any. -/
def negatedText : Expr → Text → Text
  | .boolPredicate _ _, ts => .not :: (.lpar :: ts ++ [.rpar])
  | .whereSubqueryMarker _ .antiInLeft, ts => ts
  | .whereSubqueryMarker _ .antiInLeftDependent, ts => ts
  | .nullTest _ _, ts => ts
  | _, ts => .not :: ts

/-- The texts of AND and OR arguments, each followed by the operator, the last
operator popped again; the texts of NOT arguments side by side. -/
def boolText (op : BoolOperator) (args : List (Expr × Text)) : Text :=
  match op with
  | .and => (args.flatMap fun a => operandText a.1 a.2 ++ [.and]).dropLast
  | .or => (args.flatMap fun a => operandText a.1 a.2 ++ [.or]).dropLast
  | .not => args.flatMap fun a => negatedText a.1 a.2

section

variable (subs : Nat → Option Subquery)

mutual

def print : Expr → Printed
  | .nullptr => ⟨none, none⟩
  | .constant data type =>
      .ofExpression (.constant data type) (some (constantToString data type))
  | .attribute name aliasName =>
      .ofExpression (.attribute name aliasName) (some (attributeToString name aliasName))
  | .funcCall funcName args isAggregating aggDistinct =>
      .ofExpression (.funcCall funcName args isAggregating aggDistinct) <|
        (printExpressions args).bind fun strs =>
          deparseFuncCall funcName strs isAggregating aggDistinct
  | .typeCast type typMod e =>
      .ofExpression (.typeCast type typMod e) <| (print e).expression.map fun s =>
        if typMod ≠ "" then type ++ " " ++ s ++ " " ++ typMod else type ++ " " ++ s
  | .selectExpression e rename =>
      .ofExpression (.selectExpression e rename) <| (print e).expression.map fun s =>
        if rename ≠ "" then s ++ " as " ++ rename else s
  | .expression lArg rArg operator =>
      .ofExpression (.expression lArg rArg operator) <|
        (if lArg.isPresent then (print lArg).expression else some "").bind fun l =>
          (if rArg.isPresent then (print rArg).expression else some "").map fun r =>
            "(" ++ l ++ operator ++ r ++ ")"
  | .list args =>
      .ofExpression (.list args) <| (printExpressions args).map fun strs =>
        " and ".intercalate strs
  | .caseExpr args elseDefault =>
      .ofExpression (.caseExpr args elseDefault) <| (printWhens args).bind fun whens =>
        if elseDefault.isPresent then
          (print elseDefault).expression.map fun s => "case" ++ whens ++ " else " ++ s ++ " end"
        else some ("case" ++ whens ++ " end")
  | .caseWhen w t => .ofExpression (.caseWhen w t) (some "")
  | .boolPredicate op args =>
      .ofPredicate <| (printPredicates args).map fun ts => boolText op (args.zip ts)
  | .predicate left right operator =>
      .ofPredicate <| (print left).predicate.bind fun l =>
        (print right).predicate.map fun r =>
          [.atom ⟨.predicate left right operator, render l ++ operator ++ render r⟩]
  | .nullTest arg .isNull =>
      .ofPredicate <| (print arg).expression.map fun s =>
        [.atom ⟨.nullTest arg .isNull, s ++ " is null"⟩]
  | .nullTest arg .isNotNull =>
      .ofPredicate <| (print arg).expression.map fun s =>
        [.atom ⟨.nullTest arg .isNotNull, s ++ " is not null"⟩]
  | .inList args =>
      .ofPredicate <| (printExpressions args).map fun strs =>
        [.atom ⟨.inList args, popBack ("(" ++ String.join (strs.map (· ++ ","))) ++ ")"⟩]
  | .whereSubqueryMarker m type => .ofPredicate (deparseMarker subs m type)

def printExpressions : List Expr → Option (List String)
  | [] => some []
  | e :: es => (print e).expression.bind fun s => (printExpressions es).map fun ss => s :: ss

def printPredicates : List Expr → Option (List Text)
  | [] => some []
  | e :: es => (print e).predicate.bind fun t => (printPredicates es).map fun ts => t :: ts

/-- The `when .. then ..` arms of a case expression. -/
def printWhens : List Expr → Option String
  | [] => some ""
  | .caseWhen w t :: es =>
      (print w).predicate.bind fun ts => (print t).expression.bind fun s =>
        (printWhens es).map fun rest => " when " ++ render ts ++ " then " ++ s ++ rest
  | _ :: _ => none

end

/-- `RAtoSQL::deparse_expression`. -/
def deparseExpression (e : Expr) : Option String := (print subs e).expression

/-- `RAtoSQL::deparse_predicate`. -/
def deparsePredicate (e : Expr) : Option Text := (print subs e).predicate

/-- `RAtoSQL::deparse_expressions`. -/
def deparseExpressions (es : List Expr) : Option String :=
  if es.isEmpty then none else (printExpressions subs es).map fun strs => ", ".intercalate strs

/-- The text of a sort direction in `deparse_order_by_expressions`. -/
def directionText : SortDirection → String
  | .default => ""
  | .asc => " asc"
  | .desc => " desc"

/-- `RAtoSQL::deparse_order_by_expressions`. -/
def deparseOrderByExpressions (es : List Expr) (directions : List SortDirection) :
    Option String :=
  if es.isEmpty || es.length ≠ directions.length then none
  else (printExpressions subs es).map fun strs =>
    ", ".intercalate (strs.zipWith (fun s d => s ++ directionText d) directions)

/-- The strings that `deparse_ra_node` fills. -/
structure Clauses where
  select : String := ""
  fromText : String := ""
  whereText : Text := []
  groupBy : String := ""
  having : Text := []
  orderBy : String := ""

/-- `std::string` of a clause, preceded by its keyword, when it is not empty. -/
def clauseLine (keyword clause : String) : String :=
  if clause ≠ "" then keyword ++ clause ++ "\n" else ""

/-- The end of `RAtoSQL::deparse_projection`: the clauses put together. -/
def assemble (c : Clauses) : String :=
  (if c.select = "" then "*" else popBack (popBack c.select)) ++ "\n" ++
    clauseLine "from " c.fromText ++ clauseLine "where " (render c.whereText) ++
    clauseLine "group by " c.groupBy ++ clauseLine "having " (render c.having) ++
    clauseLine "order by " c.orderBy

/-- The Selection branch of `deparse_ra_node` on the WHERE text so far. -/
def appendSelection (whereText : Text) (predicate : Expr) (ts : Text) : Text :=
  if render whereText ≠ "" && predicate.isBoolPredicate then
    whereText ++ .and :: (.lpar :: ts ++ [.rpar])
  else if render whereText ≠ "" then whereText ++ .and :: ts
  else whereText ++ ts

/-- The select clause of a projection, still with its trailing separator. -/
def openSelect (pr : Projection) : Option String :=
  (deparseExpressions subs pr.args).map fun args =>
    "select " ++ (if pr.distinct then "distinct " else "") ++ args ++ ", "

/-- A column list in parentheses, nothing when there are no columns. -/
def columnList (columns : List String) : String :=
  if columns.isEmpty then "" else "(" ++ ",".intercalate columns ++ ")"

/-- `Ra__Node__Join::join_name`. -/
def joinName : JoinType → String
  | .dependentInnerLeft | .inner => " join "
  | .left => " left join "
  | _ => " join op not supported "

/-- The join types that the FROM clause can print. -/
def isPrintedJoin : JoinType → Bool
  | .crossProduct | .inner | .left | .dependentInnerLeft => true
  | _ => false

/-- `RAtoSQL::deparse_relation`. -/
def deparseRelation (name aliasName : String) : String :=
  if aliasName ≠ "" then name ++ " " ++ aliasName else name

/-- The text after the right side of an inner, left or dependent join. -/
def joinSuffix (join : Join) : Option String :=
  (if join.predicate.isPresent then
      (deparsePredicate subs join.predicate).map fun ts => " on " ++ render ts
    else some "").map fun on =>
      on ++ (if join.aliasName ≠ "" then " as " ++ join.aliasName else "") ++
        columnList join.columns

/-- `RAtoSQL::deparse_ra_node`. A projection below the first layer is a FROM
subquery: its clauses are collected separately, as `deparse_projection` does. -/
def deparseRaNode : RaNode → Nat → Clauses → Option Clauses
  | .hole, _, _ => none
  | .leaf _ (.relation name aliasName), _, c =>
      some { c with fromText := c.fromText ++ deparseRelation name aliasName }
  | .leaf _ (.values values aliasName column), _, c =>
      (printExpressions subs values).map fun strs =>
        { c with fromText := popBack (c.fromText ++ "(values" ++
            String.join (strs.map fun s => "(" ++ s ++ "),")) ++ ") as " ++ aliasName ++
            "(" ++ column ++ ")" }
  | .leaf _ .dummy, _, c => some c
  | .unary _ .root child, layer, c => deparseRaNode child layer c
  | .unary _ (.selection predicate) child, layer, c =>
      (deparsePredicate subs predicate).bind fun ts =>
        deparseRaNode child layer { c with whereText := appendSelection c.whereText predicate ts }
  | .unary _ (.projection pr) child, 0, c =>
      (openSelect subs pr).bind fun select => deparseRaNode child 1 { c with select := select }
  | .unary _ (.projection pr) child, _ + 1, c =>
      (openSelect subs pr).bind fun select =>
        (deparseRaNode child 1 { select := select }).map fun inner =>
          { c with fromText := c.fromText ++ "(" ++ assemble inner ++ ") as " ++
              pr.subqueryAlias ++ columnList pr.subqueryColumns }
  | .unary _ (.groupBy args implicit) child, layer, c =>
      (if implicit then some "" else deparseExpressions subs args).bind fun s =>
        deparseRaNode child layer { c with groupBy := c.groupBy ++ s }
  | .unary _ (.orderBy args directions) child, layer, c =>
      (deparseOrderByExpressions subs args directions).bind fun s =>
        deparseRaNode child layer { c with orderBy := c.orderBy ++ s }
  | .unary _ (.having predicate) child, layer, c =>
      (deparsePredicate subs predicate).bind fun ts =>
        deparseRaNode child layer { c with having := c.having ++ ts }
  | .join i join left right, layer, c =>
      if !(RaNode.join i join left right).isFull then none
      else if join.marker > 0 then deparseRaNode left layer c
      else
        match join.type with
        | .crossProduct =>
            (deparseRaNode left layer c).bind fun c =>
              deparseRaNode right layer { c with fromText := c.fromText ++ ", " }
        | .inner | .left | .dependentInnerLeft =>
            (deparseRaNode left layer c).bind fun c =>
              (deparseRaNode right layer
                  { c with fromText := c.fromText ++ joinName join.type }).bind fun c =>
                (joinSuffix subs join).map fun suffix =>
                  { c with fromText := c.fromText ++ suffix }
        -- an unmarked join of another type only prints an error message
        | _ => some c

/-- `RAtoSQL::deparse_projection`. -/
def deparseProjection (node : RaNode) : Option String :=
  (deparseRaNode subs node 0 {}).map assemble

/-- `RAtoSQL::deparse_ctes`. -/
def deparseCtes (ctes : List RaNode) : Option String :=
  if ctes.isEmpty then some ""
  else
    (ctes.mapM fun (cte : RaNode) =>
      match cte with
      | .unary _ (.projection pr) _ =>
          (deparseProjection subs cte).map fun s =>
            pr.subqueryAlias ++ columnList pr.subqueryColumns ++ " as (\n" ++ s ++ "),"
      | _ => none).map fun strs => popBack ("with " ++ String.join strs) ++ "\n"

end

/-- `RAtoSQL::find_marker_subquery`: the first join in a depth-first walk whose marker
is the given one. -/
def findMarkerSubquery : RaNode → Nat → Option (Join × RaNode)
  | .hole, _ => none
  | .leaf _ _, _ => none
  | .unary _ _ child, m => findMarkerSubquery child m
  | .join _ join left right, m =>
      if join.marker = m then some (join, right)
      else (findMarkerSubquery left m).or (findMarkerSubquery right m)

/-- The subqueries that the printer resolves in the main tree, each printed with
the subqueries at most `fuel - 1` levels below it. -/
def subqueries (root : RaNode) : Nat → Nat → Option Subquery
  | 0, _ => none
  | fuel + 1, m =>
      (findMarkerSubquery root m).bind fun (join, subquery) =>
        (match join.predicate with
          | .predicate left _ _ => deparseExpression (subqueries root fuel) left
          | _ => some "").bind fun probeText =>
            (deparseProjection (subqueries root fuel) subquery).map fun text =>
              ⟨join, subquery, probeText, text⟩

end SqlOptimizer.Deparse.DeparseRaToSql
