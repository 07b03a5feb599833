import SqlOptimizer.Algebra.RelationalAlgebra
import SqlOptimizer.Logic.NestedLoops
import SqlOptimizer.Logic.ThreeValued

/-!
The bag of rows that a tree of relational operators stands for. A row is a list of
bindings: the columns of a relation or derived table under its qualifier, and what a
WHERE subquery gave for the row. The rows of the enclosing queries, innermost first,
form the environment. NULL is `none`; an attribute that is not bound reads as NULL.
-/

set_option autoImplicit false
set_option relaxedAutoImplicit false

namespace SqlOptimizer.Semantics.Evaluation

open Algebra.RelationalAlgebra
open Logic.NestedLoops Logic.ThreeValued

/-- The meaning of literals, operators and functions. -/
structure Interpretation (V : Type) where
  constant : String → DataType → Option V
  function : String → List (Option V) → Option V
  /-- An aggregate gets the argument tuples of the rows of a group. -/
  aggregate : String → List (List (Option V)) → Option V
  unary : String → Option V → Option V
  binary : String → Option V → Option V → Option V
  cast : String → String → Option V → Option V
  /-- The operands are single values, or the values of a list. -/
  compare : String → List (Option V) → List (Option V) → Truth
  /-- The truth value of a boolean column or function. -/
  holds : Option V → Truth

structure Table (V : Type) where
  columns : List String
  rows : List (List (Option V))
  rectangular : ∀ r ∈ rows, r.length = columns.length

abbrev Database (V : Type) := String → Table V

inductive Binding (V : Type) where
  | source (qualifier : String) (columns : List (String × Option V))
  | subquery (marker : Nat) (value : Option V) (holds : Truth)
  deriving DecidableEq

abbrev Row (V : Type) := List (Binding V)

/-- A row and, above a Group By, the rows of its group. -/
structure Tuple (V : Type) where
  row : Row V
  members : List (Row V) := []
  deriving DecidableEq

/-- What an expression reads from the row it is evaluated on. -/
inductive Reference where
  | column (name aliasName : String)
  | marker (m : Nat)
  deriving DecidableEq

variable {V : Type}

/-- What a binding gives for a reference. -/
def resolve : Reference → Binding V → Option (Option V × Truth)
  | .column name aliasName, .source q cs =>
      if aliasName = "" then (cs.lookup name).map fun v => (v, .unknown)
      else if q = aliasName then some ((cs.lookup name).join, .unknown)
      else none
  | .marker m, .subquery m' v h => if m' = m then some (v, h) else none
  | _, _ => none

/-- The innermost binding that resolves the reference decides. -/
def lookup (scope : Row V) (r : Reference) : Option V × Truth :=
  (scope.findSome? (resolve r)).getD (none, .unknown)

/-- The row that an expression is evaluated on, and the rows that its aggregates are
evaluated over; both already extended by the environment. -/
structure Context (V : Type) where
  scope : Row V
  members : List (Row V) := []

/-- What an expression means: its value, its truth value as a condition, and its values
as the operand of a comparison. -/
structure Meaning (V : Type) where
  value : Context V → Option V
  truth : Context V → Truth
  operand : Context V → List (Option V)

/-- `count(*)` has no argument. -/
def isStar : Expr → Bool
  | .attribute "*" _ => true
  | .selectExpression (.attribute "*" _) _ => true
  | _ => false

/-- The arguments of an aggregate on one row. -/
def argumentTuple (args : List (Expr × Meaning V)) (scope : Row V) : List (Option V) :=
  (args.filter fun a => !isStar a.1).map fun a => a.2.value ⟨scope, []⟩

/-- An argument of NOT; the negation of a NOT IN marker is already in its type. -/
def negatedTruth (c : Context V) : Expr × Meaning V → Truth
  | (.whereSubqueryMarker _ .antiInLeft, m) => m.truth c
  | (.whereSubqueryMarker _ .antiInLeftDependent, m) => m.truth c
  | (_, m) => (m.truth c).not

/-- The first arm of a case expression whose condition is true. -/
def firstCase (c : Context V) (default : Option V) :
    List ((Context V → Truth) × (Context V → Option V)) → Option V
  | [] => default
  | (w, t) :: arms => if w c = .tt then t c else firstCase c default arms

section

variable [DecidableEq V] (I : Interpretation V)

/-- An expression that has a value. -/
def Meaning.ofValue (v : Context V → Option V) : Meaning V :=
  ⟨v, fun c => I.holds (v c), fun c => [v c]⟩

/-- A condition. -/
def Meaning.ofTruth (h : Context V → Truth) : Meaning V := ⟨fun _ => none, h, fun _ => [none]⟩

/-- The value of an aggregate over the members of the group. -/
def aggregateValue (f : String) (distinct : Bool) (args : List (Expr × Meaning V))
    (c : Context V) : Option V :=
  let tuples := c.members.map (argumentTuple args)
  I.aggregate f (if distinct then tuples.dedup else tuples)

mutual

def meaning : Expr → Meaning V
  | .nullptr => .ofTruth fun _ => .tt
  | .constant data type => .ofValue I fun _ => I.constant data type
  | .attribute name aliasName => .ofValue I fun c => (lookup c.scope (.column name aliasName)).1
  | .funcCall f args true distinct =>
      .ofValue I (aggregateValue I f distinct (args.zip (meanings args)))
  | .funcCall f args false _ =>
      .ofValue I fun c => I.function f ((meanings args).map fun m => m.value c)
  | .typeCast type typMod e => .ofValue I fun c => I.cast type typMod ((meaning e).value c)
  | .selectExpression e _ => .ofValue I (meaning e).value
  | .expression l r op =>
      .ofValue I fun c =>
        if l.isPresent then I.binary op ((meaning l).value c) ((meaning r).value c)
        else I.unary op ((meaning r).value c)
  | .list args =>
      ⟨fun _ => none, fun _ => .unknown, fun c => (meanings args).map fun m => m.value c⟩
  | .inList args =>
      ⟨fun _ => none, fun _ => .unknown, fun c => (meanings args).map fun m => m.value c⟩
  | .caseExpr whens elseDefault =>
      .ofValue I fun c => firstCase c ((meaning elseDefault).value c) (arms whens)
  | .caseWhen _ _ => .ofValue I fun _ => none
  | .boolPredicate .and args => .ofTruth fun c => .conj ((meanings args).map fun m => m.truth c)
  | .boolPredicate .or args => .ofTruth fun c => .disj ((meanings args).map fun m => m.truth c)
  | .boolPredicate .not args =>
      .ofTruth fun c => .conj ((args.zip (meanings args)).map (negatedTruth c))
  | .predicate l r op =>
      .ofTruth fun c => I.compare op ((meaning l).operand c) ((meaning r).operand c)
  | .nullTest e .isNull => .ofTruth fun c => .ofBool ((meaning e).value c).isNone
  | .nullTest e .isNotNull => .ofTruth fun c => .ofBool ((meaning e).value c).isSome
  -- a marker stands for EXISTS and IN, and for NOT IN when its type says so
  | .whereSubqueryMarker m type =>
      let value := fun c : Context V => (lookup c.scope (.marker m)).1
      let holds := fun c : Context V => (lookup c.scope (.marker m)).2
      match type with
      | .antiInLeft | .antiInLeftDependent => ⟨value, fun c => (holds c).not, fun c => [value c]⟩
      | _ => ⟨value, holds, fun c => [value c]⟩

def meanings : List Expr → List (Meaning V)
  | [] => []
  | e :: es => meaning e :: meanings es

/-- The conditions and results of a case expression. -/
def arms : List Expr → List ((Context V → Truth) × (Context V → Option V))
  | .caseWhen w t :: es => ((meaning w).truth, (meaning t).value) :: arms es
  | _ => []

end

def value (c : Context V) (e : Expr) : Option V := (meaning I e).value c

def truth (c : Context V) (e : Expr) : Truth := (meaning I e).truth c

theorem meanings_eq_map (es : List Expr) : meanings I es = es.map (meaning I) := by
  induction es with
  | nil => rfl
  | cons e es ih => rw [meanings, ih, List.map_cons]

end

/-- The columns that a star stands for. -/
def starColumns (aliasName : String) (row : Row V) : List (String × Option V) :=
  row.flatMap fun
    | .source q cs => if aliasName = "" ∨ q = aliasName then cs else []
    | .subquery _ _ _ => []

/-- The name of the column that a select expression gives. -/
def columnName : Expr → String
  | .selectExpression (.attribute name _) "" => name
  | .selectExpression _ rename => rename
  | .attribute name _ => name
  | _ => ""

/-- The columns of a select expression; `val` evaluates it. -/
def selectColumn (val : Expr → Option V) (row : Row V) : Expr → List (String × Option V)
  | .selectExpression (.attribute "*" a) _ => starColumns a row
  | .attribute "*" a => starColumns a row
  | e => [(columnName e, val e)]

/-- A list of column names, as after an alias, replaces the names. -/
def renameColumns (names : List String) (cs : List (String × Option V)) :
    List (String × Option V) :=
  if names.isEmpty then cs else names.zip (cs.map Prod.snd)

/-- The row of a projection. -/
def projectRow (pr : Projection) (val : Expr → Option V) (row : Row V) : Row V :=
  [.source pr.subqueryAlias (renameColumns pr.subqueryColumns (pr.args.flatMap (selectColumn val row)))]

/-- `join .. as alias(columns)`: only the new name is visible. -/
def renameJoin (join : Join) (row : Row V) : Row V :=
  if join.aliasName ≠ "" then
    [.source join.aliasName (renameColumns join.columns (starColumns "" row))]
  else row

/-- The qualifier under which a base relation is visible. -/
def qualifier (name aliasName : String) : String := if aliasName ≠ "" then aliasName else name

/-- The first column of a row. -/
def firstColumn (row : Row V) : Option V :=
  match starColumns "" row with
  | [] => none
  | c :: _ => c.2

section

variable (db : Database V)

/-- The row of NULLs that pads a left join. -/
def nullRow : RaNode → Row V
  | .hole => []
  | .leaf _ (.relation name a) =>
      [.source (qualifier name a) ((db name).columns.map fun c => (c, none))]
  | .leaf _ (.values _ a column) => [.source a [(column, none)]]
  | .leaf _ .dummy => []
  | .unary _ (.projection pr) c => projectRow pr (fun _ => none) (nullRow c)
  | .unary _ _ c => nullRow c
  | .join _ join l r =>
      renameJoin join <|
        if join.marker ≠ 0 then nullRow l ++ [.subquery join.marker none .unknown]
        else match join.type with
          | .crossProduct | .inner | .left | .fullOuter | .dependentInnerLeft =>
              nullRow l ++ nullRow r
          | _ => nullRow l

variable [DecidableEq V] (I : Interpretation V)

/-- What a WHERE subquery gives for one outer row: the value of a scalar subquery, the
truth value of EXISTS or of IN. No column of an EXISTS subquery is read. -/
def subqueryBinding (join : Join) (scope : Row V) (rows : List (Tuple V)) : Binding V :=
  .subquery join.marker
    (match join.type with
    | .semiLeft | .semiLeftDependent | .antiLeft | .antiLeftDependent => none
    | _ => rows.head?.bind fun t => firstColumn t.row) <|
    match join.type with
    | .inLeft | .inLeftDependent | .antiInLeft | .antiInLeftDependent =>
        match join.predicate with
        | .predicate probe _ _ =>
            Truth.disj (rows.map fun t =>
              I.compare "=" ((meaning I probe).operand ⟨scope, []⟩) [firstColumn t.row])
        | _ => .ff
    | _ => .ofBool !rows.isEmpty

/-- The tuple that a Group By makes of a group; `default` is the row when it is empty. -/
def groupTuple (default : Row V) (ts : List (Tuple V)) : Tuple V :=
  ⟨(ts.map Tuple.row).headD default, ts.map Tuple.row⟩

def Tuple.context (env : Row V) (t : Tuple V) : Context V :=
  ⟨t.row ++ env, t.members.map (· ++ env)⟩

/-- Two tuples side by side. -/
def beside (a b : Tuple V) : Tuple V := ⟨a.row ++ b.row, []⟩

/-- The tuple of a join seen through its alias. -/
def renameTuple (join : Join) (t : Tuple V) : Tuple V := ⟨renameJoin join t.row, t.members⟩

/-- A WHERE or ON condition is true for a tuple. -/
def satisfies (env : Row V) (p : Expr) (t : Tuple V) : Bool :=
  truth I ⟨t.row ++ env, []⟩ p = .tt

/-- The tuples that a tree yields below the given rows of the enclosing queries. -/
def evaluate : RaNode → Row V → List (Tuple V)
  | .hole, _ => []
  | .leaf _ (.relation name a), _ =>
      (db name).rows.map fun r => ⟨[.source (qualifier name a) ((db name).columns.zip r)], []⟩
  | .leaf _ (.values vs a column), env =>
      vs.map fun v => ⟨[.source a [(column, value I ⟨env, []⟩ v)]], []⟩
  | .leaf _ .dummy, _ => [⟨[], []⟩]
  | .unary _ .root c, env => evaluate c env
  | .unary _ (.selection p) c, env =>
      (evaluate c env).filter (satisfies I env p)
  | .unary _ (.projection pr) c, env =>
      let rows := (evaluate c env).map fun t =>
        (⟨projectRow pr (value I (t.context env)) t.row, []⟩ : Tuple V)
      if pr.distinct then rows.dedup else rows
  | .unary _ (.groupBy _ true) c, env => [groupTuple (nullRow db c) (evaluate c env)]
  | .unary _ (.groupBy args false) c, env =>
      (groups (fun t : Tuple V => args.map (value I ⟨t.row ++ env, []⟩)) (evaluate c env)).map
        (groupTuple (nullRow db c))
  | .unary _ (.having p) c, env =>
      (evaluate c env).filter fun t => truth I (t.context env) p = .tt
  -- the order of the rows does not matter in a bag
  | .unary _ (.orderBy _ _) c, env => evaluate c env
  | .join _ join l r, env =>
      (if join.marker ≠ 0 then
        (evaluate l env).map fun t =>
          beside t ⟨[subqueryBinding I join (t.row ++ env) (evaluate r (t.row ++ env))], []⟩
      else
        match join.type with
        | .crossProduct | .inner =>
            innerJoin beside (satisfies I env join.predicate) (evaluate l env) (evaluate r env)
        | .left =>
            leftJoin beside (beside · ⟨nullRow db r, []⟩) (satisfies I env join.predicate)
              (evaluate l env) (evaluate r env)
        | .fullOuter =>
            leftJoin beside (beside · ⟨nullRow db r, []⟩) (satisfies I env join.predicate)
              (evaluate l env) (evaluate r env) ++
            (unmatched beside (satisfies I env join.predicate) (evaluate l env)
              (evaluate r env)).map (beside ⟨nullRow db l, []⟩)
        | .dependentInnerLeft =>
            dependentJoin beside (satisfies I env join.predicate) (evaluate l env) fun t =>
              evaluate r (t.row ++ env)
        -- the parser gives the other types to marked joins only
        | _ => evaluate l env).map (renameTuple join)

end

end SqlOptimizer.Semantics.Evaluation
