import SqlOptimizer.Deparse.DeparseRaToSql
import SqlOptimizer.Parse.ParseSqlToRa
import SqlOptimizer.Postgres.Operands
import SqlOptimizer.Postgres.Renderings

/-!
The round trip of an expression: `parse_expression` reads it, `deparse_expression` prints it,
and PostgreSQL reads the text again.
-/

set_option autoImplicit false
set_option relaxedAutoImplicit false

namespace SqlOptimizer.Deparse.ExpressionText

open Algebra.RelationalAlgebra
open Parse.PgQuery Parse.Correlation Parse.Builder Parse.ParseSqlToRa
open DeparseRaToSql
open Postgres.Scanner (digitsValue isSpecial)
open Postgres.Keywords (isColId isFunctionName isExtractField typeOfWord afterPostfix)
open Postgres.ExpressionGrammar (isMathOp isUnaryOp readExpression)
open Postgres.Lexemes (isWord isOperator)
open Postgres.ReadTrees (isNumeral)

mutual

/-- Column references, constants, operators, function calls and type casts. -/
def isScalar : PgNode → Bool
  | .columnRef fields => (columnRefAttribute fields).isSome
  | .aConst val => val ≠ .other
  | .aExpr _ _ lexpr rexpr =>
      !(lexpr.isNull && rexpr.isNull) && (lexpr.isNull || isScalar lexpr) &&
        (rexpr.isNull || isScalar rexpr)
  | .funcCall _ args _ _ => areScalars args
  | .typeCast _ _ arg => isScalar arg
  | _ => false

def areScalars : List PgNode → Bool
  | [] => true
  | n :: ns => isScalar n && areScalars ns

end

/-- `deparse_expression` prints the expression, and PostgreSQL reads the text as a tree that
`parse_expression` makes the same expression of. -/
def ReadsBack (subs : Nat → Option Subquery) (e : Expr) : Prop :=
  ∃ text n, deparseExpression subs e = some text ∧ readExpression text = some n ∧
    parseExpression n = pure e

/-! ### What is printed as it is read -/

/-- The argument of `count(*)`. -/
def isStarArgument : List Expr → Bool
  | [.attribute name aliasName] => name = "*" && aliasName = ""
  | _ => false

/-- A column or all columns of a relation. -/
def isColumn (name aliasName : String) : Bool :=
  if aliasName = "" then isWord name && isColId name
  else isWord aliasName && isColId aliasName && (isWord name || name = "*")

/-- The digits of an integer. -/
def unsigned : List Char → List Char
  | '-' :: ds => ds
  | ds => ds

def isConstant (data : String) : DataType → Bool
  | .int => digitsValue (unsigned data.toList) < 2 ^ 31
  | .float => isNumeral data
  | .string => '\'' ∉ data.toList

def isString : Expr → Bool
  | .constant _ .string => true
  | _ => false

def isNumber : Expr → Bool
  | .constant _ .string => false
  | .constant _ _ => true
  | _ => false

/-- The text starts with a minus sign. -/
def isSigned : Expr → Bool
  | .constant data type => isNumber (.constant data type) && data.toList.head? = some '-'
  | _ => false

/-- The last name of the text. -/
def lastName : Expr → Option String
  | .attribute name _ => some name
  | _ => none

/-- The first word of the text. -/
def firstWord : Expr → Option String
  | .attribute name aliasName => some (if aliasName = "" then name else aliasName)
  | .funcCall funcName _ _ _ => some funcName
  | .typeCast type _ _ => some type
  | _ => none

/-- The operator and the sign of a number behind it do not become another operator or a
comment. -/
def allowsSign (o : String) (r : Expr) : Bool :=
  !isSigned r || (o ≠ "-" && !o.toList.any isSpecial)

/-- The operator stands apart from its operands. -/
def standsApart (l r : Expr) (o : String) : Bool :=
  match l.isPresent, r.isPresent with
  | true, true =>
      (lastName l ≠ some "*" || o = "+" || o = "-") &&
        !(lastName l = some "u" && o = "&" && isString r) && allowsSign o r &&
        (isMathOp o || (firstWord r).all (· ∉ afterPostfix))
  | true, false => !isMathOp o && lastName l ≠ some "*"
  | false, true => isUnaryOp o && !(o = "-" && isNumber r) && allowsSign o r
  | false, false => false

/-- The arguments and the rules of the function fit together. -/
def takesArguments (funcName : String) (args : List Expr) : Bool :=
  if funcName = "substring" then args.length ∈ [1, 2, 3]
  else if funcName = "extract" then
    match args with
    | [.constant field .string, _] => isWord field && isExtractField field
    | _ => false
  else if funcName = "normalize" then args.length = 1
  else isWord funcName && isFunctionName funcName && !args.isEmpty

/-- A constant behind the name of its type. -/
def isTypedConstant (type typMod : String) : Expr → Bool
  | .constant _ .string =>
      isWord type && (if typMod = "" then typeOfWord type = some type else type = "interval")
  | _ => false

mutual

def printable : Expr → Bool
  | .constant data type => isConstant data type
  | .attribute name aliasName => isColumn name aliasName
  | .expression lArg rArg operator =>
      isOperator operator && standsApart lArg rArg operator &&
        (!lArg.isPresent || printable lArg) && (!rArg.isPresent || printable rArg)
  | .funcCall funcName args _ aggDistinct =>
      if isStarArgument args then isWord funcName && isFunctionName funcName && !aggDistinct
      else takesArguments funcName args && allPrintable args
  | .typeCast type typMod e => isTypedConstant type typMod e && printable e
  | _ => false

def allPrintable : List Expr → Bool
  | [] => true
  | e :: es => printable e && allPrintable es

end

mutual

/-- The expressions that the text is made of. -/
def subexpressions : Expr → List Expr
  | .expression lArg rArg operator =>
      .expression lArg rArg operator ::
        ((if lArg.isPresent then subexpressions lArg else []) ++
          if rArg.isPresent then subexpressions rArg else [])
  | .funcCall funcName args isAggregating aggDistinct =>
      .funcCall funcName args isAggregating aggDistinct ::
        if isStarArgument args then [] else allSubexpressions args
  | .typeCast type typMod e => .typeCast type typMod e :: subexpressions e
  | e => [e]

def allSubexpressions : List Expr → List Expr
  | [] => []
  | e :: es => subexpressions e ++ allSubexpressions es

end

/-! ### What `parse_expression` makes of a node -/

/-- The expression of a node, case by case. -/
inductive Yields : PgNode → Expr → Prop
  | column {fields : List String} {name aliasName : String}
      (h : columnRefAttribute fields = some (name, aliasName)) :
      Yields (.columnRef fields) (.attribute name aliasName)
  | integer (k : Int) : Yields (.aConst (.integer k)) (.constant (toString k) .int)
  | float (s : String) : Yields (.aConst (.float s)) (.constant s .float)
  | string (s : String) : Yields (.aConst (.string s)) (.constant s .string)
  | binary {kind : AExprKind} {o : String} {m n : PgNode} {l r : Expr} (hl : Yields m l)
      (hr : Yields n r) : Yields (.aExpr kind o m n) (.expression l r o)
  | unary {kind : AExprKind} {o : String} {n : PgNode} {r : Expr} (hr : Yields n r) :
      Yields (.aExpr kind o .nullptr n) (.expression .nullptr r o)
  | trailing {kind : AExprKind} {o : String} {m : PgNode} {l : Expr} (hl : Yields m l) :
      Yields (.aExpr kind o m .nullptr) (.expression l .nullptr o)
  | call {f : String} {ns : List PgNode} {es : List Expr} (star distinct : Bool)
      (h : List.Forall₂ Yields ns es) :
      Yields (.funcCall f ns star distinct)
        (.funcCall (raFuncName f) (if star then es ++ [.attribute "*" ""] else es)
          (isAggregateName (raFuncName f)) (isAggregateName (raFuncName f) && distinct))
  | cast {type mod : String} {typmod : Option Int} {n : PgNode} {e : Expr}
      (hmod : typModText typmod = some mod) (h : Yields n e) :
      Yields (.typeCast type typmod n) (.typeCast type mod e)

theorem Yields.isNull {n : PgNode} {e : Expr} (h : Yields n e) : n.isNull = false := by
  cases h <;> rfl

theorem Yields.isPresent {n : PgNode} {e : Expr} (h : Yields n e) : e.isPresent = true := by
  cases h <;> rfl

theorem parseExpressions_eq_pure {ns : List PgNode} {es : List Expr}
    (h : List.Forall₂ (fun n e => parseExpression n = pure e) ns es) :
    parseExpressions ns = pure es := by
  induction h with
  | nil => rw [parseExpressions]
  | cons hn _ ih => simp [parseExpressions, hn, ih]

theorem orNull_of_yields {n : PgNode} {e : Expr} (h : Yields n e)
    (hparse : parseExpression n = pure e) : orNull n (parseExpression n) = pure e := by
  rw [orNull, h.isNull, hparse]
  rfl

theorem orNull_nullptr (x : Parser Expr) : orNull .nullptr x = pure .nullptr := rfl

theorem Yields.parse {n : PgNode} {e : Expr} (h : Yields n e) : parseExpression n = pure e := by
  induction n using PgNode.ind generalizing e with
  | columnRef fields =>
    cases h with
    | column h => simp [parseExpression, attributeOf, h]
  | aConst val => cases h <;> rfl
  | aExpr kind name lexpr rexpr ihl ihr =>
    cases h with
    | binary hl hr =>
      rw [parseExpression, orNull_of_yields hl (ihl hl), orNull_of_yields hr (ihr hr)]
      rfl
    | unary hr =>
      rw [parseExpression, orNull_nullptr, orNull_of_yields hr (ihr hr)]
      rfl
    | trailing hl =>
      rw [parseExpression, orNull_nullptr, orNull_of_yields hl (ihl hl)]
      rfl
  | funcCall f args star distinct ih =>
    cases h with
    | @call _ _ es _ _ h =>
      have hargs : parseExpressions args = pure es := by
        apply parseExpressions_eq_pure
        rw [List.forall₂_iff_zip] at h ⊢
        refine ⟨h.1, fun hmem => ?_⟩
        exact ih _ (List.of_mem_zip hmem).1 (h.2 hmem)
      simp [parseExpression, hargs]
  | typeCast type typmod arg ih =>
    cases h with
    | cast hmod h =>
      rw [parseExpression, ih h, hmod]
      rfl
  | _ => cases h

/-- `parse_expression` on a pointer that may be null. -/
theorem yields_of_orNull {n : PgNode} {e : Expr} {s s' : ParserState}
    (ih : isScalar n = true → ∀ {s s' e}, parseExpression n s = some (e, s') → Yields n e)
    (hn : n.isNull = true ∨ isScalar n = true)
    (h : orNull n (parseExpression n) s = some (e, s')) :
    n = .nullptr ∧ e = .nullptr ∨ n.isNull = false ∧ Yields n e := by
  unfold orNull at h
  split at h
  · rename_i hnull
    cases h
    refine .inl ⟨?_, rfl⟩
    cases n <;> first | rfl | cases hnull
  · rename_i hnull
    rw [Bool.not_eq_true] at hnull
    have hscalar : isScalar n = true := by simpa [hnull] using hn
    exact .inr ⟨hnull, ih hscalar h⟩

theorem forall₂_yields_of_parse {ns : List PgNode} (hns : areScalars ns = true)
    (ih : ∀ n ∈ ns, isScalar n = true → ∀ {s s' e}, parseExpression n s = some (e, s') →
      Yields n e)
    {s s' : ParserState} {es : List Expr} (h : parseExpressions ns s = some (es, s')) :
    List.Forall₂ Yields ns es := by
  induction ns generalizing s s' es with
  | nil =>
    rw [parseExpressions, pure_eq_some] at h
    cases h
    exact .nil
  | cons n ns ihs =>
    rw [areScalars, Bool.and_eq_true] at hns
    rw [parseExpressions, bind_eq_some] at h
    obtain ⟨e, s₁, he, h⟩ := h
    rw [bind_eq_some] at h
    obtain ⟨es', s₂, hes, h⟩ := h
    rw [pure_eq_some] at h
    cases h
    exact .cons (ih n List.mem_cons_self hns.1 he)
      (ihs hns.2 (fun m hm => ih m (List.mem_cons_of_mem _ hm)) hes)

theorem yields_of_parse {n : PgNode} (hn : isScalar n = true) {s s' : ParserState} {e : Expr}
    (h : parseExpression n s = some (e, s')) : Yields n e := by
  induction n using PgNode.ind generalizing s s' e with
  | columnRef fields =>
    rw [isScalar, Option.isSome_iff_exists] at hn
    obtain ⟨⟨name, aliasName⟩, hname⟩ := hn
    rw [parseExpression, pure_eq_some] at h
    cases h
    rw [attributeOf, hname]
    exact .column hname
  | aConst val =>
    rw [parseExpression, pure_eq_some] at h
    cases h
    cases val with
    | integer k => exact .integer k
    | float s => exact .float s
    | string s => exact .string s
    | other => simp [isScalar] at hn
  | aExpr kind name lexpr rexpr ihl ihr =>
    simp only [isScalar, Bool.and_eq_true, Bool.or_eq_true, Bool.not_eq_true'] at hn
    obtain ⟨⟨hboth, hl⟩, hr⟩ := hn
    rw [parseExpression, bind_eq_some] at h
    obtain ⟨l, s₁, hlexpr, h⟩ := h
    rw [bind_eq_some] at h
    obtain ⟨r, s₂, hrexpr, h⟩ := h
    rw [pure_eq_some] at h
    cases h
    rcases yields_of_orNull ihl hl hlexpr with ⟨rfl, rfl⟩ | ⟨hlnull, hl⟩ <;>
      rcases yields_of_orNull ihr hr hrexpr with ⟨rfl, rfl⟩ | ⟨hrnull, hr⟩
    · cases hboth
    · exact .unary hr
    · exact .trailing hl
    · exact .binary hl hr
  | funcCall f args star distinct ih =>
    rw [isScalar] at hn
    rw [parseExpression, bind_eq_some] at h
    obtain ⟨es, s₁, hes, h⟩ := h
    rw [pure_eq_some] at h
    cases h
    exact .call star distinct (forall₂_yields_of_parse hn ih hes)
  | typeCast type typmod arg ih =>
    rw [isScalar] at hn
    rw [parseExpression, bind_eq_some] at h
    obtain ⟨mod, s₁, hmod, h⟩ := h
    rw [bind_eq_some] at h
    obtain ⟨e, s₂, he, h⟩ := h
    rw [pure_eq_some] at h
    cases h
    rw [ofOption_eq_some] at hmod
    exact .cast hmod.1 (ih hn he)
  | _ => cases hn

end SqlOptimizer.Deparse.ExpressionText
