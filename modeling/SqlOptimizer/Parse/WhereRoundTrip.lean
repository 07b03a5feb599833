import SqlOptimizer.Parse.ParseSqlToRa
import SqlOptimizer.Deparse.PredicateText

/-!
The round trip of a WHERE clause: what the printed text of a parsed condition denotes,
compared with the condition that the AST denotes.
-/

set_option autoImplicit false
set_option relaxedAutoImplicit false

namespace SqlOptimizer.Parse.WhereRoundTrip

open Algebra.RelationalAlgebra
open Logic.BoolText
open Deparse.DeparseRaToSql Deparse.PredicateText
open PgQuery Builder ParseSqlToRa

mutual

/-- The condition that a WHERE expression stands for; comparisons, null tests and
subqueries are its atoms. -/
def condition : PgNode → Cond PgNode
  | .boolExpr .and args => .all (conditions args)
  | .boolExpr .or args => .any (conditions args)
  | .boolExpr .not args => .not (.all (conditions args))
  | n => .atom n

def conditions : List PgNode → List (Cond PgNode)
  | [] => []
  | n :: ns => condition n :: conditions ns

end

theorem conditions_eq_map (ns : List PgNode) : conditions ns = ns.map condition := by
  induction ns with
  | nil => rfl
  | cons n ns ih => simp [conditions, ih]

/-- IS NULL and IS NOT NULL. -/
def isNullTest : PgNode → Bool
  | .nullTest _ _ => true
  | _ => false

/-- The operator name of LIKE and NOT LIKE. -/
def likeName (negated : Bool) : String := if negated then "!~~" else "~~"

/-- WHERE expressions of AND, OR, NOT, comparisons, LIKE, null tests, EXISTS and IN. -/
inductive IsWhere : PgNode → Prop
  | connective (op : BoolOperator) (args : List PgNode) :
      op ≠ .not → 2 ≤ args.length → (∀ a ∈ args, IsWhere a) → IsWhere (.boolExpr op args)
  | not (a : PgNode) : IsWhere a → IsWhere (.boolExpr .not [a])
  | comparison (name : String) (lexpr rexpr : PgNode) : IsWhere (.aExpr .op name lexpr rexpr)
  | like (negated : Bool) (lexpr rexpr : PgNode) :
      IsWhere (.aExpr .like (likeName negated) lexpr rexpr)
  | nullTest (arg : PgNode) (type : NullTestType) : IsWhere (.nullTest arg type)
  | exists (testexpr subselect : PgNode) : IsWhere (.subLink .exists testexpr subselect)
  | any (testexpr subselect : PgNode) : IsWhere (.subLink .any testexpr subselect)

/-- The operand `e` of a printed comparison stands for the operand `n` of the AST. -/
inductive Operand (joins : List (Join × RaNode)) : PgNode → Expr → Prop
  | expression {n : PgNode} {e : Expr} {s s' : ParserState} :
      parseExpression n s = some (e, s') → Operand joins n e
  | items {n : PgNode} {es : List Expr} {s s' : ParserState} :
      parseItems n s = some (es, s') → Operand joins n (.list es)
  | subquery {n : PgNode} {join : Join} {pr : RaNode} {s s' : ParserState} :
      (join, pr) ∈ joins → parseSubselect n s = some (pr, s') → Operand joins n (rightMarker join)

/-- The printed node stands for the atom of the AST; the subqueries of markers are the
right children of `joins`. -/
inductive Renders (joins : List (Join × RaNode)) : PgNode → Expr → Prop
  | comparison {name : String} {lexpr rexpr : PgNode} {l r : Expr} :
      Operand joins lexpr l → Operand joins rexpr r →
      Renders joins (.aExpr .op name lexpr rexpr) (.predicate l r name)
  | like {lexpr rexpr : PgNode} {l r : Expr} :
      Operand joins lexpr l → Operand joins rexpr r →
      Renders joins (.aExpr .like "~~" lexpr rexpr) (.predicate l r " like ")
  | notLike {lexpr rexpr : PgNode} {l r : Expr} :
      Operand joins lexpr l → Operand joins rexpr r →
      Renders joins (.aExpr .like "!~~" lexpr rexpr) (.predicate l r " not like ")
  | nullTest {arg : PgNode} {type : NullTestType} {e : Expr} {s s' : ParserState} :
      parseExpression arg s = some (e, s') → Renders joins (.nullTest arg type) (.nullTest e type)
  | exists {testexpr subselect : PgNode} {join : Join} {pr : RaNode} {s s' : ParserState} :
      (join, pr) ∈ joins → parseSelectStatement subselect s = some (pr, s') →
      join.type ∈ [.semiLeft, .semiLeftDependent, .antiLeft, .antiLeftDependent] →
      Renders joins (.subLink .exists testexpr subselect) (rightMarker join)
  | any {testexpr subselect : PgNode} {join : Join} {pr : RaNode} {l : Expr}
      {s s' s₁ s₁' : ParserState} :
      (join, pr) ∈ joins → parseSelectStatement subselect s = some (pr, s') →
      join.type ∈ [.inLeft, .inLeftDependent, .antiInLeft, .antiInLeftDependent] →
      parseExpression testexpr s₁ = some (l, s₁') → join.predicate = .predicate l .nullptr "" →
      Renders joins (.subLink .any testexpr subselect) (rightMarker join)

theorem Operand.mono {joins joins' : List (Join × RaNode)} (hJ : joins ⊆ joins') {n : PgNode}
    {e : Expr} (h : Operand joins n e) : Operand joins' n e := by
  cases h with
  | expression h => exact .expression h
  | items h => exact .items h
  | subquery hmem h => exact .subquery (hJ hmem) h

theorem Renders.mono {joins joins' : List (Join × RaNode)} (hJ : joins ⊆ joins') {n : PgNode}
    {e : Expr} (h : Renders joins n e) : Renders joins' n e := by
  cases h with
  | comparison hl hr => exact .comparison (hl.mono hJ) (hr.mono hJ)
  | like hl hr => exact .like (hl.mono hJ) (hr.mono hJ)
  | notLike hl hr => exact .notLike (hl.mono hJ) (hr.mono hJ)
  | nullTest h => exact .nullTest h
  | «exists» hmem h htype => exact .exists (hJ hmem) h htype
  | any hmem h htype hl hpred => exact .any (hJ hmem) h htype hl hpred

/-- The printer finds the join of every marker. -/
def Resolves (subs : Nat → Option Subquery) (joins : List (Join × RaNode)) : Prop :=
  ∀ jp ∈ joins, ∀ s, subs jp.1.marker = some s → s.join = jp.1

/-- The subqueries of a tree in which the printer finds the joins. -/
private theorem resolves_subqueries {root : RaNode} {joins : List (Join × RaNode)} {fuel : Nat}
    (hroot : ∀ jp ∈ joins, findMarkerSubquery root jp.1.marker = some jp) :
    Resolves (subqueries root fuel) joins := by
  intro jp hjp s hs
  cases fuel with
  | zero => cases hs
  | succ fuel =>
    simp only [subqueries, hroot jp hjp, Option.bind_eq_some_iff, Option.map_eq_some_iff,
      Option.some.injEq] at hs
    obtain ⟨_, rfl, _, -, _, -, rfl⟩ := hs
    rfl

/-- An operand is an expression or the marker of a new join. -/
private theorem operand_eq_some {n : PgNode} {e : Expr} {t : RaNode} {s s' : ParserState}
    (h : operand n (parseSubselect n) (parseExpression n) s = some ((e, t), s')) :
    (t = .hole ∧ ∀ joins, Operand joins n e) ∨
      ∃ i join pr, t = .join i join .hole pr ∧ pr ≠ .hole ∧
        ∀ joins, (join, pr) ∈ joins → Operand joins n e := by
  unfold operand at h
  split at h
  · next type testexpr subselect =>
    obtain ⟨i, join, pr, s₁, s₂, rfl, rfl, hpr, -, -⟩ := subqueryJoin_eq_some h
    refine .inr ⟨i, join, pr, rfl, ?_, fun joins hmem => .subquery hmem hpr⟩
    rw [parseSubselect] at hpr
    exact returnsNode_parseSelectStatement subselect _ _ _ hpr
  · simp only [bind_eq_some, pure_eq_some, Prod.mk.injEq] at h
    obtain ⟨e', s₁, he, ⟨rfl, rfl⟩, rfl⟩ := h
    exact .inl ⟨rfl, fun joins => .expression he⟩

private theorem rightOperand_eq_some {n : PgNode} {e : Expr} {t : RaNode} {s s' : ParserState}
    (h : rightOperand n (parseSubselect n) (parseItems n) (parseExpression n) s =
      some ((e, t), s')) :
    (t = .hole ∧ ∀ joins, Operand joins n e) ∨
      ∃ i join pr, t = .join i join .hole pr ∧ pr ≠ .hole ∧
        ∀ joins, (join, pr) ∈ joins → Operand joins n e := by
  unfold rightOperand at h
  split at h
  · simp only [bind_eq_some, pure_eq_some, Prod.mk.injEq] at h
    obtain ⟨es, s₁, hes, ⟨rfl, rfl⟩, rfl⟩ := h
    exact .inl ⟨rfl, fun joins => .items hes⟩
  · exact operand_eq_some h

/-- The join of a subquery continues the left spine. -/
private theorem attachTo_join {sel sel' pr : RaNode} {i : Nat} {join : Join} {s s' : ParserState}
    (hsel : LeftOpen sel) (hpr : pr ≠ .hole)
    (h : attachTo sel (.join i join .hole pr) s = some (sel', s')) :
    LeftOpen sel' ∧ spineJoins sel' = spineJoins sel ++ [(join, pr)] ∧
      sel' = graft (.join i join .hole pr) sel := by
  obtain ⟨-, -, rfl⟩ := (addSubtree_leftOpen hsel).mp (attachTo_eq_some.mp h).1
  exact ⟨leftOpen_graft hsel (leftOpen_join hpr), by simp [spineJoins_graft hsel, spineJoins], rfl⟩

/-- A parsed comparison; a left operand that is a subquery is attached twice and has no
result. -/
private theorem comparison_eq_some {operator : String} {sel sel' : RaNode} {lexpr rexpr : PgNode}
    {p : Expr} {s s' : ParserState} (hsel : LeftOpen sel)
    (h : comparison operator sel (operand lexpr (parseSubselect lexpr) (parseExpression lexpr))
      (rightOperand rexpr (parseSubselect rexpr) (parseItems rexpr) (parseExpression rexpr)) s =
        some ((p, sel'), s')) :
    LeftOpen sel' ∧ spineJoins sel <+: spineJoins sel' ∧
      ∃ l r, p = .predicate l r operator ∧ Operand (spineJoins sel') lexpr l ∧
        Operand (spineJoins sel') rexpr r := by
  simp only [comparison, bind_eq_some, pure_eq_some, Prod.mk.injEq, Prod.exists] at h
  obtain ⟨l, leftJoin, s₁, hl, sel₁, s₂, hsel₁, r, rightJoin, s₃, hr, sel₂, s₄, hsel₂, sel₃, s₅,
    hsel₃, ⟨rfl, rfl⟩, rfl⟩ := h
  rcases operand_eq_some hl with ⟨rfl, hl'⟩ | ⟨i, join, pr, rfl, hpr, -⟩
  · -- no join on the left
    obtain ⟨rfl, rfl⟩ := Prod.mk.inj (pure_eq_some.mp hsel₁)
    obtain ⟨rfl, rfl⟩ := Prod.mk.inj (pure_eq_some.mp hsel₂)
    rcases rightOperand_eq_some hr with ⟨rfl, hr'⟩ | ⟨i, join, pr, rfl, hpr, hr'⟩
    · obtain ⟨rfl, rfl⟩ := Prod.mk.inj (pure_eq_some.mp hsel₃)
      exact ⟨hsel, List.prefix_rfl, l, r, rfl, hl' _, hr' _⟩
    · obtain ⟨hopen, hspine, -⟩ := attachTo_join hsel hpr hsel₃
      rw [hspine]
      exact ⟨hopen, List.prefix_append _ _, l, r, rfl, hl' _, hr' _ (by simp)⟩
  · obtain ⟨-, -, rfl⟩ := attachTo_join hsel hpr hsel₁
    have htwice := addSubtree_twice i join hsel hpr
    simp [attachTo_eq_some, htwice] at hsel₂

/-- A parsed EXISTS or IN subquery. -/
private theorem whereSublink_eq_some {type : SubLinkType} {subselect testexpr : PgNode}
    {sel sel' : RaNode} {negated : Bool} {p : Expr} {s s' : ParserState} (hsel : LeftOpen sel)
    (h : whereSublink sel (sublinkJoin type subselect negated (parseSelectStatement subselect)
      (parseExpression testexpr)) s = some ((p, sel'), s')) :
    LeftOpen sel' ∧ spineJoins sel <+: spineJoins sel' ∧
      ∃ join pr, p = rightMarker join ∧ (join, pr) ∈ spineJoins sel' ∧
        Renders (spineJoins sel') (.subLink type testexpr subselect) p ∧
        (type = .exists ∧
            (join.type = (existsTypes negated).1 ∨ join.type = (existsTypes negated).2) ∨
          type = .any ∧ (join.type = (inTypes negated).1 ∨ join.type = (inTypes negated).2)) := by
  simp only [whereSublink, bind_eq_some, pure_eq_some, Prod.mk.injEq, Prod.exists] at h
  obtain ⟨marker, t, s₁, hjoin, sel₁, s₂, hsel₁, ⟨rfl, rfl⟩, rfl⟩ := h
  cases type with
  | «exists» =>
    obtain ⟨i, join, pr, s₃, s₄, rfl, rfl, hpr, htype, -⟩ := subqueryJoin_eq_some hjoin
    obtain ⟨hopen, hspine, -⟩ :=
      attachTo_join hsel (returnsNode_parseSelectStatement subselect _ _ _ hpr) hsel₁
    have hmem : (join, pr) ∈ spineJoins sel' := by simp [hspine]
    refine ⟨hopen, by simp [hspine], join, pr, rfl, hmem, .exists hmem hpr ?_, .inl ⟨rfl, htype⟩⟩
    rcases htype with htype | htype <;> cases negated <;> simp [htype, existsTypes]
  | any =>
    obtain ⟨i, join, pr, s₃, s₄, rfl, rfl, hpr, htype, hprobe⟩ := subqueryJoin_eq_some hjoin
    simp only [bind_eq_some, pure_eq_some, Prod.mk.injEq] at hprobe
    obtain ⟨l, s₅, hl, hpred, -⟩ := hprobe
    obtain ⟨hopen, hspine, -⟩ :=
      attachTo_join hsel (returnsNode_parseSelectStatement subselect _ _ _ hpr) hsel₁
    have hmem : (join, pr) ∈ spineJoins sel' := by simp [hspine]
    refine ⟨hopen, by simp [hspine], join, pr, rfl, hmem, .any hmem hpr ?_ hl hpred,
      .inr ⟨rfl, htype⟩⟩
    rcases htype with htype | htype <;> cases negated <;> simp [htype, inTypes]
  | _ => cases hjoin

/-- The condition that the printer is known to print for `n`, below a NOT when `negated`. -/
private def expected (negated : Bool) (n : PgNode) : Cond PgNode :=
  (if negated then .not (condition n) else condition n).eraseNot isNullTest

/-- The condition that the text of the argument `p` denotes, below a NOT when `negated`. -/
private def obtained (subs : Nat → Option Subquery) (negated : Bool) (p : Expr) : Cond Expr :=
  if negated then negatedCond p (printed subs p) else printed subs p

/-- What the parser makes of a WHERE expression, and how it is printed. -/
private structure IsTranslated (n : PgNode) (negated : Bool) (sel : RaNode) (p : Expr)
    (sel' : RaNode) : Prop where
  leftOpen : LeftOpen sel'
  spine : spineJoins sel <+: spineJoins sel'
  isBoolean : IsBoolean p
  isPresent : p.isPresent = true
  rel : ∀ joins subs ts, spineJoins sel' ⊆ joins → Resolves subs joins →
    deparsePredicate subs p = some ts →
      Cond.Rel (Renders joins) (expected negated n) (obtained subs negated p)

/-- A comparison is printed as one atom, below a NOT with that NOT. -/
private theorem isTranslated_comparison {n : PgNode} {negated : Bool} {sel sel' : RaNode}
    {l r : Expr} {op : String} (hopen : LeftOpen sel')
    (hspine : spineJoins sel <+: spineJoins sel') (hn : condition n = .atom n)
    (hnull : isNullTest n = false) (hrenders : Renders (spineJoins sel') n (.predicate l r op)) :
    IsTranslated n negated sel (.predicate l r op) sel' where
  leftOpen := hopen
  spine := hspine
  isBoolean := .atom _ rfl
  isPresent := rfl
  rel joins subs ts hJ _ _ := by
    have hatom : Cond.Rel (Renders joins) (.atom n) (.atom (.predicate l r op)) :=
      .atom (hrenders.mono hJ)
    cases negated
    · simpa [expected, obtained, hn, Cond.eraseNot, printed] using hatom
    · simpa [expected, obtained, hn, Cond.eraseNot, hnull, printed, negatedCond] using
        Cond.Rel.not hatom

/-- The marker of an EXISTS or IN join carries the negation of its sublink. -/
private theorem isTranslated_sublink {type : SubLinkType} {testexpr subselect : PgNode}
    {negated : Bool} {sel sel' pr : RaNode} {join : Join} (hopen : LeftOpen sel')
    (hspine : spineJoins sel <+: spineJoins sel') (hmem : (join, pr) ∈ spineJoins sel')
    (hrenders : Renders (spineJoins sel') (.subLink type testexpr subselect) (rightMarker join))
    (htype : type = .exists ∧
        (join.type = (existsTypes negated).1 ∨ join.type = (existsTypes negated).2) ∨
      type = .any ∧ (join.type = (inTypes negated).1 ∨ join.type = (inTypes negated).2)) :
    IsTranslated (.subLink type testexpr subselect) negated sel (rightMarker join) sel' where
  leftOpen := hopen
  spine := hspine
  isBoolean := .atom _ rfl
  isPresent := rfl
  rel joins subs ts hJ hsubs htext := by
    have hatom := Cond.Rel.atom (hrenders.mono hJ)
    obtain ⟨s, hs⟩ : ∃ s, subs join.marker = some s := by
      rw [rightMarker, deparsePredicate_marker, deparseMarker] at htext
      cases hs : subs join.marker with
      | none => simp [hs] at htext
      | some s => exact ⟨s, rfl⟩
    have hjoin : s.join = join := hsubs _ (hJ hmem) s hs
    have hnot := Cond.Rel.not hatom
    rcases htype with ⟨-, htype⟩ | ⟨-, htype⟩ <;> rcases htype with htype | htype <;>
      cases negated <;> simp only [existsTypes, inTypes, if_true, Bool.false_eq_true, if_false] at htype <;>
      simp_all [expected, obtained, condition, Cond.eraseNot, isNullTest, rightMarker, printed,
        printsNotIn, negatedCond]

/-- A null test is printed as one atom; a NOT directly above it is not printed. -/
private theorem isTranslated_nullTest {arg : PgNode} {type : NullTestType} {negated : Bool}
    {sel : RaNode} {e : Expr} {s s' : ParserState} (hopen : LeftOpen sel)
    (h : parseExpression arg s = some (e, s')) :
    IsTranslated (.nullTest arg type) negated sel (.nullTest e type) sel where
  leftOpen := hopen
  spine := List.prefix_rfl
  isBoolean := .atom _ rfl
  isPresent := rfl
  rel joins subs ts _ _ _ := by
    have hatom : Cond.Rel (Renders joins) (.atom (.nullTest arg type)) (.atom (.nullTest e type)) :=
      .atom (.nullTest h)
    cases negated <;>
      simpa [expected, obtained, condition, Cond.eraseNot, isNullTest, printed, negatedCond] using hatom

/-- The arguments of a connective, translated one by one. -/
private theorem parseWhereArgs_eq_some {args : List PgNode} {negated : Bool} {sel sel' : RaNode}
    {ps : List Expr} {s s' : ParserState} (hsel : LeftOpen sel)
    (hargs : ∀ a ∈ args, ∀ (sel sel' : RaNode) (p : Expr) (s s' : ParserState), LeftOpen sel →
      parseWhereExpression a sel negated s = some ((p, sel'), s') →
        IsTranslated a negated sel p sel')
    (h : parseWhereArgs args sel negated s = some ((ps, sel'), s')) :
    LeftOpen sel' ∧ spineJoins sel <+: spineJoins sel' ∧ ps.length = args.length ∧
      (∀ p ∈ ps, IsBoolean p) ∧
      ∀ joins subs tss, spineJoins sel' ⊆ joins → Resolves subs joins →
        List.Forall₂ (fun e ts => deparsePredicate subs e = some ts) ps tss →
          List.Forall₂ (Cond.Rel (Renders joins)) (args.map (expected negated))
            (ps.map (obtained subs negated)) := by
  induction args generalizing sel ps s with
  | nil =>
    simp only [parseWhereArgs, pure_eq_some, Prod.mk.injEq] at h
    obtain ⟨⟨rfl, rfl⟩, rfl⟩ := h
    exact ⟨hsel, List.prefix_rfl, rfl, by simp, fun _ _ _ _ _ _ => .nil⟩
  | cons a args ih =>
    rw [List.forall_mem_cons] at hargs
    simp only [parseWhereArgs, bind_eq_some, pure_eq_some, Prod.mk.injEq, Prod.exists] at h
    obtain ⟨p, sel₁, s₁, hp, ps', sel₂, s₂, hps, ⟨rfl, rfl⟩, rfl⟩ := h
    have ha := hargs.1 sel sel₁ p s s₁ hsel hp
    obtain ⟨hopen, hspine, hlen, hbool, hrel⟩ := ih ha.leftOpen hargs.2 hps
    rw [if_pos ha.isPresent]
    refine ⟨hopen, ha.spine.trans hspine, congrArg (· + 1) hlen,
      List.forall_mem_cons.mpr ⟨ha.isBoolean, hbool⟩, fun joins subs tss hJ hsubs htss => ?_⟩
    cases htss with
    | cons hts htss =>
      exact .cons (ha.rel joins subs _ (fun jp hjp => hJ (hspine.subset hjp)) hsubs hts)
        (hrel joins subs _ hJ hsubs htss)

private theorem eraseNot_not {c : Cond PgNode} (hc : ∀ a, c ≠ .atom a) :
    (Cond.not c).eraseNot isNullTest = .not (c.eraseNot isNullTest) := by
  cases c with
  | atom a => exact absurd rfl (hc a)
  | _ => rfl

private theorem condition_ne_atom {op : BoolOperator} {args : List PgNode}
    (hargs : op = .not ∨ 2 ≤ args.length) (a : PgNode) :
    condition (.boolExpr op args) ≠ .atom a := by
  match op, args, hargs with
  | .not, _, _ => simp [condition]
  | .and, _ :: _ :: _, _ => simp [condition, conditions, Cond.all]
  | .or, _ :: _ :: _, _ => simp [condition, conditions, Cond.any]

/-- A NOT above a connective is printed. -/
private theorem isTranslated_bool {op : BoolOperator} {args : List PgNode} {ps : List Expr}
    {negated : Bool} {sel sel' : RaNode} (hopen : LeftOpen sel')
    (hspine : spineJoins sel <+: spineJoins sel') (hargs : op = .not ∨ 2 ≤ args.length)
    (hbool : IsBoolean (.boolPredicate op ps))
    (hrel : ∀ joins subs ts, spineJoins sel' ⊆ joins → Resolves subs joins →
      deparsePredicate subs (.boolPredicate op ps) = some ts →
        Cond.Rel (Renders joins) ((condition (.boolExpr op args)).eraseNot isNullTest)
          (printed subs (.boolPredicate op ps))) :
    IsTranslated (.boolExpr op args) negated sel (.boolPredicate op ps) sel' where
  leftOpen := hopen
  spine := hspine
  isBoolean := hbool
  isPresent := rfl
  rel joins subs ts hJ hsubs htext := by
    have h := hrel joins subs ts hJ hsubs htext
    cases negated
    · exact h
    · rw [expected, if_pos rfl, eraseNot_not (condition_ne_atom hargs)]
      exact .not h

/-- Every WHERE expression is translated, whatever stands above it. -/
private theorem isTranslated {n : PgNode} (hn : IsWhere n) {negated : Bool} {sel sel' : RaNode}
    {p : Expr} {s s' : ParserState} (hsel : LeftOpen sel)
    (h : parseWhereExpression n sel negated s = some ((p, sel'), s')) :
    IsTranslated n negated sel p sel' := by
  induction hn generalizing negated sel sel' p s s' with
  | connective op args hop hlen _ ih =>
    simp only [parseWhereExpression, bind_eq_some, pure_eq_some, Prod.mk.injEq, Prod.exists,
      hop, decide_false] at h
    obtain ⟨ps, sel₁, s₁, hps, ⟨rfl, rfl⟩, rfl⟩ := h
    obtain ⟨hopen, hspine, hlen', hbool, hrel⟩ := parseWhereArgs_eq_some hsel
      (fun a ha sel sel' p s s' hsel h => ih a ha hsel h) hps
    have hne : ps ≠ [] := by
      rintro rfl
      simp [← hlen'] at hlen
    refine isTranslated_bool hopen hspine (.inr hlen) (.connective op ps hop hne hbool) ?_
    intro joins subs ts hJ hsubs htext
    obtain ⟨tss, htss, -⟩ := deparsePredicate_bool htext
    have hargs := hrel joins subs tss hJ hsubs htss
    cases op with
    | and =>
      rw [condition, conditions_eq_map, Cond.eraseNot_all, List.map_map, printed, printeds_eq_map]
      exact Cond.Rel.all hargs
    | or =>
      rw [condition, conditions_eq_map, Cond.eraseNot_any, List.map_map, printed, printeds_eq_map]
      exact Cond.Rel.any hargs
    | not => exact absurd rfl hop
  | not a _ ih =>
    simp only [parseWhereExpression, bind_eq_some, pure_eq_some, Prod.mk.injEq, Prod.exists,
      decide_true] at h
    obtain ⟨ps, sel₁, s₁, hps, ⟨rfl, rfl⟩, rfl⟩ := h
    have hargs : ∀ b ∈ [a], ∀ (sel sel' : RaNode) (p : Expr) (s s' : ParserState), LeftOpen sel →
        parseWhereExpression b sel true s = some ((p, sel'), s') →
          IsTranslated b true sel p sel' := by
      intro b hb sel sel' p s s' hsel h
      rw [List.mem_singleton.mp hb] at h ⊢
      exact ih hsel h
    obtain ⟨hopen, hspine, hlen, hbool, hrel⟩ := parseWhereArgs_eq_some hsel hargs hps
    obtain ⟨p, rfl⟩ := List.length_eq_one_iff.mp hlen
    refine isTranslated_bool hopen hspine (.inl rfl) (.not p (hbool p (by simp))) ?_
    intro joins subs ts hJ hsubs htext
    obtain ⟨tss, htss, -⟩ := deparsePredicate_bool htext
    cases hrel joins subs tss hJ hsubs htss with
    | cons harg _ => exact harg
  | comparison name lexpr rexpr =>
    rw [parseWhereExpression, if_neg (by decide)] at h
    obtain ⟨hopen, hspine, l, r, rfl, hl, hr⟩ := comparison_eq_some hsel h
    exact isTranslated_comparison hopen hspine rfl rfl (.comparison hl hr)
  | like neg lexpr rexpr =>
    rw [parseWhereExpression, if_neg (by decide)] at h
    obtain ⟨hopen, hspine, l, r, rfl, hl, hr⟩ := comparison_eq_some hsel h
    refine isTranslated_comparison hopen hspine rfl rfl ?_
    cases neg
    · exact .like hl hr
    · exact .notLike hl hr
  | nullTest arg type =>
    simp only [parseWhereExpression, bind_eq_some, pure_eq_some, Prod.mk.injEq] at h
    obtain ⟨e, s₁, he, ⟨rfl, rfl⟩, rfl⟩ := h
    exact isTranslated_nullTest hsel he
  | «exists» testexpr subselect =>
    rw [parseWhereExpression] at h
    obtain ⟨hopen, hspine, join, pr, rfl, hmem, hrenders, htype⟩ := whereSublink_eq_some hsel h
    exact isTranslated_sublink hopen hspine hmem hrenders htype
  | any testexpr subselect =>
    rw [parseWhereExpression] at h
    obtain ⟨hopen, hspine, join, pr, rfl, hmem, hrenders, htype⟩ := whereSublink_eq_some hsel h
    exact isTranslated_sublink hopen hspine hmem hrenders htype

private theorem isPure_condition {n : PgNode} (hn : IsWhere n) : (condition n).IsPure := by
  induction hn with
  | connective op args hop hlen _ ih =>
    have hne : args.map condition ≠ [] := by
      rintro h
      simp [List.map_eq_nil_iff.mp h] at hlen
    have hmem : ∀ c ∈ args.map condition, c.IsPure := by simpa using ih
    cases op with
    | and => simpa [condition, conditions_eq_map] using Cond.isPure_all hne hmem
    | or => simpa [condition, conditions_eq_map] using Cond.isPure_any hne hmem
    | not => exact absurd rfl hop
  | not a _ ih => exact ih
  | comparison => exact trivial
  | like => exact trivial
  | nullTest => exact trivial
  | «exists» => exact trivial
  | any => exact trivial

/-- The text that is printed for a parsed WHERE expression denotes the condition of the
AST, atom by atom and under every assignment of truth values to the atoms, exactly when no
NOT stands directly above a null test. -/
theorem parseWhereExpression_readsBack_iff {n : PgNode} {sel sel' root : RaNode} {p : Expr}
    {s s' : ParserState} {fuel : Nat} {ts : Text} (hn : IsWhere n) (hsel : LeftOpen sel)
    (hparse : parseWhereExpression n sel false s = some ((p, sel'), s'))
    (hroot : ∀ jp ∈ spineJoins sel', findMarkerSubquery root jp.1.marker = some jp)
    (htext : deparsePredicate (subqueries root fuel) p = some ts) :
    (∃ c, read (skeleton ts) = some c ∧
        List.Forall₂ (Renders (spineJoins sel')) (condition n).atoms c.atoms ∧
        ∀ truths, c.evalLeaves truths = (condition n).evalLeaves truths) ↔
      (condition n).hasNotAbove isNullTest = false := by
  have htrans := isTranslated hn hsel hparse
  have hrel := htrans.rel _ _ ts (List.Subset.refl _) (resolves_subqueries hroot) htext
  have hread := (readsOr_deparsePredicate htrans.isBoolean htext).read_eq
  simp only [expected, obtained, Bool.false_eq_true, if_false] at hrel
  have hatoms := hrel.atoms
  rw [Cond.atoms_eraseNot] at hatoms
  rw [← Cond.agree_eraseNot_iff isNullTest (isPure_condition hn)]
  constructor
  · rintro ⟨c, hc, -, htruths⟩
    obtain rfl := Option.some.inj (hread.symm.trans hc)
    exact ⟨by simp, fun truths => by rw [← htruths, hrel.evalLeaves]⟩
  · rintro ⟨-, hagree⟩
    exact ⟨_, hread, hatoms, fun truths => by rw [hrel.evalLeaves, hagree]⟩

/-- `r.x is null and not exists (select * from s)`. -/
def nullOrEmpty : PgNode :=
  .boolExpr .and [.nullTest (.columnRef ["r", "x"]) .isNull,
    .boolExpr .not [.subLink .exists .nullptr
      (.selectStmt false [.resTarget "" (.columnRef ["*"])] [.rangeVar "s" none] .nullptr [] .nullptr
        [] [])]]

/-- The Selection of `nullOrEmpty` with the join of its subquery. -/
def nullOrEmptySelection : RaNode :=
  .selection 0 .nullptr (.join 1 { type := .antiLeft, marker := 1 } .hole
    (.projection 2 { args := [.selectExpression (.attribute "*" "") ""] } (.relation 3 "s" "")))

/-- The predicate of `nullOrEmpty`. -/
def nullOrEmptyPredicate : Expr :=
  .boolPredicate .and [.nullTest (.attribute "x" "r") .isNull,
    .boolPredicate .not [.whereSubqueryMarker 1 .antiLeft]]

/-- A NOT above an EXISTS is printed. -/
theorem nullOrEmpty_readsBack :
    ∃ ts c, deparsePredicate (subqueries nullOrEmptySelection 1) nullOrEmptyPredicate = some ts ∧
      read (skeleton ts) = some c ∧
      List.Forall₂ (Renders (spineJoins nullOrEmptySelection)) (condition nullOrEmpty).atoms
        c.atoms ∧
      ∀ truths, c.evalLeaves truths = (condition nullOrEmpty).evalLeaves truths := by
  have hwhere : IsWhere nullOrEmpty :=
    .connective .and _ (by decide) (by decide)
      (by simp [IsWhere.nullTest, IsWhere.not, IsWhere.exists])
  have hparse : parseWhereExpression nullOrEmpty (.selection 0 .nullptr .hole) false
      { nextId := 1 } =
        some ((nullOrEmptyPredicate, nullOrEmptySelection), { counter := 1, nextId := 4 }) := rfl
  have hroot : ∀ jp ∈ spineJoins nullOrEmptySelection,
      findMarkerSubquery nullOrEmptySelection jp.1.marker = some jp := by
    simp [nullOrEmptySelection, spineJoins, findMarkerSubquery]
  have htext : (deparsePredicate (subqueries nullOrEmptySelection 1) nullOrEmptyPredicate).isSome :=
    rfl
  obtain ⟨ts, hts⟩ := Option.isSome_iff_exists.mp htext
  have hopen : LeftOpen (.selection 0 .nullptr .hole) := trivial
  obtain ⟨c, hc⟩ := (parseWhereExpression_readsBack_iff hwhere hopen hparse hroot hts).mpr rfl
  exact ⟨ts, c, hts, hc⟩

/-- `not (r.x is null)`. -/
def notNull : PgNode := .boolExpr .not [.nullTest (.columnRef ["r", "x"]) .isNull]

/-- The text `r.x is null` is printed for the opposite condition. -/
theorem notNull_readsBack_ne :
    IsWhere notNull ∧
      ∃ p sel' s' ts,
        parseWhereExpression notNull (.selection 0 .nullptr .hole) false {} = some ((p, sel'), s') ∧
        deparsePredicate (subqueries sel' 1) p = some ts ∧ render ts = "r.x is null" ∧
        ∃ c, read (skeleton ts) = some c ∧ c.evalLeaves [.tt] = .tt ∧
          (condition notNull).evalLeaves [.tt] = .ff :=
  ⟨.not _ (.nullTest _ _), _, _, _, _, rfl, rfl, by decide, _, rfl, rfl, rfl⟩

end SqlOptimizer.Parse.WhereRoundTrip
