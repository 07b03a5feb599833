import Mathlib.Logic.Relation
import SqlOptimizer.Parse.ParseSqlToRa

/-!
The implicit Group_By that `parse_select` adds to a select list with aggregates. The flag
`has_aggregate` goes by reference through `parse_expression`, but the conditions of CASE
arms are read by `parse_where_expression`, which does not get it.
-/

set_option autoImplicit false
set_option relaxedAutoImplicit false

namespace SqlOptimizer.Parse.ImplicitGroupBy

open Algebra.RelationalAlgebra
open Relation (ReflTransGen)
open PgQuery Correlation Builder ParseSqlToRa

/-! ### The flag -/

mutual

/-- The reference parameter `has_aggregate` of `parse_expression`: its value after the call. -/
def aggregateFlag : PgNode → Bool → Bool
  | .aExpr _ _ lexpr rexpr, flag => aggregateFlag rexpr (aggregateFlag lexpr flag)
  | .funcCall funcname args _ _, flag =>
      aggregateFlags args (if isAggregateName (raFuncName funcname) then true else flag)
  | .typeCast _ _ arg, flag => aggregateFlag arg flag
  | .caseExpr args defresult, flag => aggregateFlag defresult (aggregateFlags args flag)
  -- `parse_where_expression` has no such parameter
  | .caseWhen _ result, flag => aggregateFlag result flag
  | _, flag => flag

def aggregateFlags : List PgNode → Bool → Bool
  | [], flag => flag
  | n :: ns, flag => aggregateFlags ns (aggregateFlag n flag)

end

private theorem aggregateFlags_eq {ns : List PgNode}
    (h : ∀ n ∈ ns, ∀ flag, aggregateFlag n flag = (flag || hasAggregate n)) (flag : Bool) :
    aggregateFlags ns flag = (flag || anyAggregate ns) := by
  induction ns generalizing flag with
  | nil => simp [aggregateFlags, anyAggregate]
  | cons n ns ih =>
    obtain ⟨hn, hns⟩ := List.forall_mem_cons.mp h
    rw [aggregateFlags, hn, ih hns, anyAggregate, Bool.or_assoc]

theorem aggregateFlag_eq (n : PgNode) (flag : Bool) :
    aggregateFlag n flag = (flag || hasAggregate n) := by
  induction n using PgNode.ind generalizing flag with
  | aExpr kind name l r ihl ihr => rw [aggregateFlag, ihl, ihr, hasAggregate, Bool.or_assoc]
  | funcCall f args star distinct ih =>
    rw [aggregateFlag, aggregateFlags_eq ih, hasAggregate]
    by_cases hf : isAggregateName (raFuncName f) = true
    · simp [hf]
    · simp [hf]
  | typeCast type typmod arg ih => rw [aggregateFlag, ih, hasAggregate]
  | caseExpr args d ih ihd =>
    rw [aggregateFlag, aggregateFlags_eq ih, ihd, hasAggregate, Bool.or_assoc]
  | caseWhen expr result _ ih => rw [aggregateFlag, ih, hasAggregate]
  | _ => simp [aggregateFlag, hasAggregate]

/-- `SQLtoRA::parse_select` on a select list without a GROUP BY clause. -/
def parseSelectList (distinct : Bool) (targetList : List PgNode) : Parser RaNode :=
  parseSelect distinct (aggregateFlags (targetList.map targetValue) false) (parseTargets targetList)

/-- The select list of a statement without a GROUP BY clause. -/
theorem parseSelectList_eq (distinct : Bool) (targetList : List PgNode) :
    parseSelectList distinct targetList =
      parseSelect distinct
        (([] : List PgNode).isEmpty && anyAggregate (targetList.map targetValue))
        (parseTargets targetList) := by
  rw [parseSelectList, aggregateFlags_eq fun n _ => aggregateFlag_eq n]
  rfl

/-! ### Aggregate calls -/

/-- The operands of operators, the arguments of calls, what is cast, and the results of CASE. -/
inductive OperandOf : PgNode → PgNode → Prop
  | left (kind : AExprKind) (name : String) (l r : PgNode) : OperandOf l (.aExpr kind name l r)
  | right (kind : AExprKind) (name : String) (l r : PgNode) : OperandOf r (.aExpr kind name l r)
  | argument (f : String) {args : List PgNode} (star distinct : Bool) {a : PgNode} (h : a ∈ args) :
      OperandOf a (.funcCall f args star distinct)
  | castee (type : String) (typmod : Option Int) (e : PgNode) : OperandOf e (.typeCast type typmod e)
  | arm {args : List PgNode} (d : PgNode) {w : PgNode} (h : w ∈ args) :
      OperandOf w (.caseExpr args d)
  | default (args : List PgNode) (d : PgNode) : OperandOf d (.caseExpr args d)
  | result (expr result : PgNode) : OperandOf result (.caseWhen expr result)

/-- The parts of an expression in the same query block: all parts but nested subqueries. -/
inductive PartOf : PgNode → PgNode → Prop
  | operand {p n : PgNode} (h : OperandOf p n) : PartOf p n
  | condition (expr result : PgNode) : PartOf expr (.caseWhen expr result)
  | item {items : List PgNode} {a : PgNode} (h : a ∈ items) : PartOf a (.list items)
  | connected (op : BoolOperator) {args : List PgNode} {a : PgNode} (h : a ∈ args) :
      PartOf a (.boolExpr op args)
  | tested (e : PgNode) (type : NullTestType) : PartOf e (.nullTest e type)
  | probe (type : SubLinkType) (e subselect : PgNode) : PartOf e (.subLink type e subselect)

/-- A call of `min`, `max`, `sum`, `count` or `avg`. -/
def IsAggregateCall : PgNode → Prop
  | .funcCall f _ _ _ => f ∈ ["min", "max", "sum", "count", "avg"]
  | _ => False

/-- Some part of the expression is a call of an aggregate function. -/
def HasAggregateCall (R : PgNode → PgNode → Prop) (n : PgNode) : Prop :=
  ∃ call, ReflTransGen R call n ∧ IsAggregateCall call

theorem hasAggregateCall_iff {R : PgNode → PgNode → Prop} {n : PgNode} :
    HasAggregateCall R n ↔ IsAggregateCall n ∨ ∃ p, R p n ∧ HasAggregateCall R p := by
  constructor
  · rintro ⟨call, hpath, hcall⟩
    rcases hpath.cases_tail with rfl | ⟨p, hpath, hp⟩
    · exact .inl hcall
    · exact .inr ⟨p, hp, call, hpath, hcall⟩
  · rintro (hcall | ⟨p, hp, call, hpath, hcall⟩)
    · exact ⟨n, .refl, hcall⟩
    · exact ⟨call, hpath.tail hp, hcall⟩

theorem isAggregateCall_funcCall {f : String} {args : List PgNode} {star distinct : Bool} :
    IsAggregateCall (.funcCall f args star distinct) ↔ isAggregateName (raFuncName f) = true := by
  show f ∈ ["min", "max", "sum", "count", "avg"] ↔ _
  rw [isAggregateName, decide_eq_true_iff, raFuncName]
  by_cases hf : f = "date_part"
  · subst hf
    decide
  · rw [if_neg hf]

private theorem anyAggregate_iff {P : PgNode → Prop} {ns : List PgNode}
    (h : ∀ n ∈ ns, (hasAggregate n = true ↔ P n)) :
    anyAggregate ns = true ↔ ∃ n ∈ ns, P n := by
  induction ns with
  | nil => simp [anyAggregate]
  | cons n ns ih =>
    obtain ⟨hn, hns⟩ := List.forall_mem_cons.mp h
    rw [anyAggregate, Bool.or_eq_true, hn, ih hns, List.exists_mem_cons_iff]

/-- The flag is set by the calls among the operands. -/
theorem hasAggregate_iff (n : PgNode) : hasAggregate n = true ↔ HasAggregateCall OperandOf n := by
  have hnone {n : PgNode} (hcall : ¬ IsAggregateCall n) (hpart : ∀ p, ¬ OperandOf p n) :
      (false = true ↔ HasAggregateCall OperandOf n) := by
    rw [hasAggregateCall_iff]
    constructor
    · exact nofun
    · rintro (h | ⟨p, hp, -⟩)
      · exact absurd h hcall
      · exact absurd hp (hpart p)
  induction n using PgNode.ind with
  | aExpr kind name l r ihl ihr =>
    rw [hasAggregate, Bool.or_eq_true, hasAggregateCall_iff]
    constructor
    · rintro (h | h)
      · exact .inr ⟨l, .left kind name l r, ihl.mp h⟩
      · exact .inr ⟨r, .right kind name l r, ihr.mp h⟩
    · rintro (h | ⟨p, hp, h⟩)
      · exact h.elim
      · cases hp with
        | left => exact .inl (ihl.mpr h)
        | right => exact .inr (ihr.mpr h)
  | funcCall f args star distinct ih =>
    rw [hasAggregate, Bool.or_eq_true, anyAggregate_iff ih, ← isAggregateCall_funcCall,
      hasAggregateCall_iff]
    constructor
    · rintro (h | ⟨a, ha, h⟩)
      · exact .inl h
      · exact .inr ⟨a, .argument f star distinct ha, h⟩
    · rintro (h | ⟨p, hp, h⟩)
      · exact .inl h
      · cases hp with
        | argument f star distinct ha => exact .inr ⟨p, ha, h⟩
  | typeCast type typmod arg ih =>
    rw [hasAggregate, hasAggregateCall_iff]
    constructor
    · exact fun h => .inr ⟨arg, .castee type typmod arg, ih.mp h⟩
    · rintro (h | ⟨p, hp, h⟩)
      · exact h.elim
      · cases hp
        exact ih.mpr h
  | caseExpr args d ih ihd =>
    rw [hasAggregate, Bool.or_eq_true, anyAggregate_iff ih, hasAggregateCall_iff]
    constructor
    · rintro (⟨w, hw, h⟩ | h)
      · exact .inr ⟨w, .arm d hw, h⟩
      · exact .inr ⟨d, .default args d, ihd.mp h⟩
    · rintro (h | ⟨p, hp, h⟩)
      · exact h.elim
      · cases hp with
        | arm d hw => exact .inl ⟨p, hw, h⟩
        | default => exact .inr (ihd.mpr h)
  | caseWhen expr result _ ih =>
    rw [hasAggregate, hasAggregateCall_iff]
    constructor
    · exact fun h => .inr ⟨result, .result expr result, ih.mp h⟩
    · rintro (h | ⟨p, hp, h⟩)
      · exact h.elim
      · cases hp
        exact ih.mpr h
  | _ =>
    apply hnone
    · exact not_false
    · exact nofun

/-! ### The node -/

/-- The projection has the implicit Group_By below it. -/
def hasImplicitGroupBy : RaNode → Bool
  | .projection _ _ (.groupBy _ _ true _) => true
  | _ => false

theorem hasImplicitGroupBy_parseSelect {distinct implicit : Bool} {targets : Parser (List Expr)}
    {s s' : ParserState} {t : RaNode} (h : parseSelect distinct implicit targets s = some (t, s')) :
    hasImplicitGroupBy t = implicit := by
  obtain ⟨i, s₁, -, h⟩ := bind_eq_some.mp h
  obtain ⟨args, s₂, -, h⟩ := bind_eq_some.mp h
  cases implicit with
  | false =>
    obtain ⟨rfl, -⟩ := Prod.mk.inj (pure_eq_some.mp h)
    rfl
  | true =>
    obtain ⟨j, s₃, -, h⟩ := bind_eq_some.mp h
    obtain ⟨hadd, -⟩ := attachTo_eq_some.mp h
    simp only [addSubtree, findEmptyLeaf, insertChild] at hadd
    split at hadd
    · exact absurd hadd (by simp)
    · obtain rfl := Option.some.inj hadd
      rfl

/-- `parse_select` adds the Group_By exactly for lists with an aggregate call, if and only if one
of the calls is among the operands when there are calls at all. -/
theorem parseSelectList_implicitGroupBy_iff {distinct : Bool} {targetList : List PgNode}
    {s s' : ParserState} {t : RaNode} (h : parseSelectList distinct targetList s = some (t, s')) :
    (hasImplicitGroupBy t = true ↔ ∃ n ∈ targetList, HasAggregateCall PartOf (targetValue n)) ↔
      ((∃ n ∈ targetList, HasAggregateCall PartOf (targetValue n)) →
        ∃ n ∈ targetList, HasAggregateCall OperandOf (targetValue n)) := by
  have hflag : hasImplicitGroupBy t = true ↔
      ∃ n ∈ targetList, HasAggregateCall OperandOf (targetValue n) := by
    rw [hasImplicitGroupBy_parseSelect h, aggregateFlags_eq fun n _ => aggregateFlag_eq n,
      Bool.false_or, anyAggregate_iff fun n _ => hasAggregate_iff n]
    simp
  have hpart : (∃ n ∈ targetList, HasAggregateCall OperandOf (targetValue n)) →
      ∃ n ∈ targetList, HasAggregateCall PartOf (targetValue n) := by
    rintro ⟨n, hn, call, hpath, hcall⟩
    have hpart := ReflTransGen.mono (fun _ _ h => PartOf.operand h) call (targetValue n) hpath
    exact ⟨n, hn, call, hpart, hcall⟩
  rw [hflag]
  exact ⟨fun hiff hall => hiff.mpr hall, fun hcond => ⟨hpart, hcond⟩⟩

/-- `select 1 + sum(x)`. -/
private def addedSum : List PgNode :=
  [.resTarget "" (.aExpr .op "+" (.aConst (.integer 1)) (.funcCall "sum" [.columnRef ["x"]] false
    false))]

/-- `select case when sum(x) > 1 then 1 else 0 end`. -/
private def comparedSum : List PgNode :=
  [.resTarget "" (.caseExpr
    [.caseWhen (.aExpr .op ">" (.funcCall "sum" [.columnRef ["x"]] false false)
      (.aConst (.integer 1))) (.aConst (.integer 1))]
    (.aConst (.integer 0)))]

private def parsedAddedSum : RaNode :=
  .projection 0
    { args := [.selectExpression (.expression (.constant "1" .int)
        (.funcCall "sum" [.attribute "x" ""] true false) "+") ""], distinct := false }
    (.groupBy 1 [] true .hole)

private def parsedComparedSum : RaNode :=
  .projection 0
    { args := [.selectExpression (.caseExpr
        [.caseWhen (.predicate (.funcCall "sum" [.attribute "x" ""] true false)
          (.constant "1" .int) ">") (.constant "1" .int)]
        (.constant "0" .int)) ""], distinct := false } .hole

theorem parseSelectList_addedSum :
    (hasImplicitGroupBy parsedAddedSum = true ↔
      ∃ n ∈ addedSum, HasAggregateCall PartOf (targetValue n)) ↔
      ((∃ n ∈ addedSum, HasAggregateCall PartOf (targetValue n)) →
        ∃ n ∈ addedSum, HasAggregateCall OperandOf (targetValue n)) :=
  have hparse : parseSelectList false addedSum {} = some (parsedAddedSum, { nextId := 2 }) :=
    rfl
  parseSelectList_implicitGroupBy_iff hparse

private theorem comparedSum_hasCall :
    ∃ n ∈ comparedSum, HasAggregateCall PartOf (targetValue n) := by
  refine ⟨_, List.mem_singleton_self _, .funcCall "sum" [.columnRef ["x"]] false false, ?_, ?_⟩
  · apply ReflTransGen.head (.operand (.left _ _ _ _))
    apply ReflTransGen.head (.condition _ _)
    exact .single (.operand (.arm _ (List.mem_singleton_self _)))
  · show "sum" ∈ ["min", "max", "sum", "count", "avg"]
    decide

/-- The aggregate of a CASE condition alone does not give the Group_By. -/
theorem parseSelectList_comparedSum :
    ¬ ∀ (distinct : Bool) (targetList : List PgNode) (s s' : ParserState) (t : RaNode),
      parseSelectList distinct targetList s = some (t, s') →
        (hasImplicitGroupBy t = true ↔
          ∃ n ∈ targetList, HasAggregateCall PartOf (targetValue n)) := by
  intro h
  have hparse : parseSelectList false comparedSum {} = some (parsedComparedSum, { nextId := 1 }) :=
    rfl
  have himplicit := (h false comparedSum {} _ _ hparse).mpr comparedSum_hasCall
  exact absurd himplicit (by decide)

end SqlOptimizer.Parse.ImplicitGroupBy
