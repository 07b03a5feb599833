import SqlOptimizer.Parse.Represented

/-!
The parser drops nothing of the statements that it keeps whole, and something of all others that
it parses.
-/

set_option autoImplicit false
set_option relaxedAutoImplicit false

namespace SqlOptimizer.Parse.KeptStatements

open Algebra.RelationalAlgebra
open PgQuery Correlation Builder ParseSqlToRa StatementAst Demands Represented
open ParsedTree (SameRoot SameRoot.trans sameRoot_graft IsOpenJoin)

variable {α : Type}

/-- What is asked for in a node. -/
def demandOf (n : AstNode) (kept : Bool) : Demand := ⟨demands true n, demands false n, kept = true⟩

/-- What is asked for in nodes. -/
def demandOfAll (ns : List AstNode) (kept : Bool) : Demand :=
  ⟨allDemands true ns, allDemands false ns, kept = true⟩

/-- A condition and its leaves. -/
def conditionDemand (c : Condition) (n : AstNode) : Demand :=
  ⟨demands true n + leaves c n, demands false n + leaves c n, keepsCondition n = true⟩

/-- A clause with an operator of the algebra. -/
def clauseDemand (c : Clause) (present : Bool) : Demand :=
  ⟨clauseIf c present, clauseIf c present, True⟩

/-- The tree with the predicate. -/
def withLeaves (c : Condition) (r : Expr × RaNode) : Multiset Part :=
  represented r.2 + ((predicateLeaves r.1).map (.leaf c) : List Part)

/-- A tree to which joins of subqueries are attached, if there is one. -/
def Growing (sel : RaNode) : Prop := sel = .hole ∨ LeftOpen sel

def StatementRepresents (n : AstNode) : Prop :=
  Represents (parseSelectStatement (erase n)) 0 represented (demandOf n (keepsStatement n))
    fun _ => True

def ConditionRepresents (n : AstNode) : Prop :=
  ∀ c sel negated, Growing sel →
    Represents (parseWhereExpression (erase n) sel negated) (represented sel) (withLeaves c)
      (conditionDemand c n)
      fun r => (keepsCondition n = true → r.1.isPresent = true) ∧ Growing r.2 ∧ SameRoot sel r.2

theorem isPlain_iff {ns : List AstNode} :
    (allDemands true ns : Multiset Part) = 0 ↔ isPlain ns = true := by
  rw [isPlain, Multiset.coe_eq_zero_iff_isEmpty]

theorem own_eq_zero {ns : List AstNode} (h : (allDemands true ns : Multiset Part) = 0) :
    (allDemands false ns : Multiset Part) = 0 := by
  have hsub : (allDemands false ns).Sublist (allDemands true ns) := by
    clear h
    induction ns with
    | nil => exact .slnil
    | cons n ns ih => exact (demands_false_sublist n).append ih
  rw [Multiset.coe_eq_zero] at h ⊢
  exact List.sublist_nil.mp (h ▸ hsub)

/-- An action that reads nodes in place drops what they ask for. -/
theorem represents_plain {x : Parser α} (start : Multiset Part) (ns : List AstNode)
    (hx : ∀ s r s', x s = some (r, s') → s' = s) :
    Represents x start (fun _ => start) (plain ns) fun _ => True :=
  Represents.passedOver (fun s r s' h => ⟨rfl, hx s r s' h, trivial⟩) isPlain_iff own_eq_zero

theorem represents_expression (start : Multiset Part) (n : AstNode) :
    Represents (parseExpression (erase n)) start (fun _ => start) (plain [n]) fun _ => True :=
  represents_plain start [n] (inPlace _).expression

/-- A leaf of a predicate, or one that is left out. -/
theorem represents_leaf {c : Condition} {p : Expr} {sel : RaNode} {l : LeafOperator} {kept : Prop}
    (h : predicateLeaves p = [l] ∧ kept ∨ predicateLeaves p = [] ∧ ¬ kept) :
    Represents (pure (p, sel)) (represented sel) (withLeaves c)
      ⟨{Part.leaf c l}, {Part.leaf c l}, kept⟩ fun r => r = (p, sel) := by
  intro s r s' hr
  obtain ⟨rfl, rfl⟩ := Prod.mk.inj (pure_eq_some.mp hr)
  rcases h with ⟨hp, hkept⟩ | ⟨hp, hkept⟩
  · exact ⟨rfl, [], 0, by simp, by simp [withLeaves, hp, allRepresented], by simp [hkept],
      fun _ => by simp [withLeaves, hp]⟩
  · exact ⟨rfl, [], {Part.leaf c l}, by simp, by simp [withLeaves, hp, allRepresented],
      by simp [hkept], by simp⟩

theorem leaves_comparison (l r : Expr) (kind : AExprKind) (name : String) :
    predicateLeaves (.predicate l r (binaryOperator kind name)) = [comparisonOf kind name] ∧
        comparisonOf kind name ≠ .unsupported ∨
      predicateLeaves (.predicate l r (binaryOperator kind name)) = [] ∧
        ¬ comparisonOf kind name ≠ .unsupported := by
  cases kind with
  | op => by_cases h : name = "" <;> simp [predicateLeaves, binaryOperator, comparisonOf, h]
  | like =>
    by_cases h : name.toList.head? = some '!' <;>
      simp [predicateLeaves, binaryOperator, comparisonOf, h]
  | between => simp [predicateLeaves, binaryOperator, comparisonOf]
  | inList =>
    by_cases h : name = "="
    · simp [predicateLeaves, binaryOperator, comparisonOf, h]
    · by_cases h' : name = "<>" <;> simp [predicateLeaves, binaryOperator, comparisonOf, h, h']
  | other => simp [predicateLeaves, binaryOperator, comparisonOf]

/-- A join is attached to the tree, if there is one. -/
theorem represents_attach {sel join : RaNode} (hsel : Growing sel)
    (hjoin : join = .hole ∨ IsOpenJoin join) :
    Represents (attachPresent sel join) (represented sel + represented join) represented 0
      fun t => Growing t ∧ SameRoot sel t := by
  rcases hjoin with rfl | hjoin
  · exact .pure (by simp [represented]) ⟨hsel, fun i op c h => ⟨c, h⟩⟩
  · have hopen := hjoin.leftOpen
    have hattach : attachPresent sel join = attachTo sel join := by
      obtain ⟨i, join, pr, rfl, -⟩ := hjoin
      rfl
    rw [hattach]
    refine Represents.passedOver (fun s t s' h => ?_) (by simp) fun _ => rfl
    rcases hsel with rfl | hsel
    · exact (attachTo_hole_ne h).elim
    · obtain ⟨hadd, rfl⟩ := attachTo_eq_some.mp h
      refine ⟨represented_addSubtree hadd, rfl, ?_⟩
      obtain ⟨-, -, rfl⟩ := (addSubtree_leftOpen hsel).mp hadd
      exact ⟨.inr (leftOpen_graft hsel hopen), sameRoot_graft join sel⟩

/-- A WHERE subquery becomes a join with a marker. -/
theorem represents_subqueryJoin (testexpr : AstNode) {subselect : AstNode}
    (types : JoinType × JoinType) {probe : Parser Expr} (hsub : StatementRepresents subselect)
    (hprobe : ∀ s e s', probe s = some (e, s') → s' = s) :
    Represents (subqueryJoin (erase subselect) types (parseSelectStatement (erase subselect)) probe)
      0 (fun r => represented r.2)
      (demandOf subselect (keepsStatement subselect) + plain [testexpr])
      fun r => IsOpenJoin r.2 ∧
        ∃ join, r.1 = rightMarker join ∧ (join.type = types.1 ∨ join.type = types.2) := by
  refine Represents.more ?_ isPlain_iff own_eq_zero
  rintro s ⟨e, t⟩ s' h
  simp only [subqueryJoin, bind_eq_some, nextMarker_eq_some, ofOption_eq_some, newId_eq_some,
    pure_eq_some, Prod.mk.injEq] at h
  obtain ⟨m, _, ⟨rfl, rfl⟩, correlated, _, ⟨-, rfl⟩, i, _, ⟨rfl, rfl⟩, pr, s₁, hpr, predicate, s₂,
    hp, ⟨rfl, rfl⟩, rfl⟩ := h
  obtain rfl := hprobe _ _ _ hp
  obtain ⟨-, new, D, hnew, hparts, hD, hown⟩ := hsub _ _ _ hpr
  have hne := returnsNode_parseSelectStatement (erase subselect) _ _ _ hpr
  have htree : represented (.join s.nextId ⟨if correlated then types.1 else types.2, predicate, "",
      [], s.counter + 1⟩ .hole pr) = represented pr := by
    simp [represented, joinParts]
  rw [← htree] at hparts hown
  refine ⟨⟨⟨_, _, pr, rfl, hne⟩, _, rfl, ?_⟩, new, D, hnew, hparts, hD, hown⟩
  cases correlated
  · exact .inr rfl
  · exact .inl rfl

/-- An operand that is a subquery. -/
def isSubLink : AstNode → Bool
  | .subLink _ _ _ _ => true
  | _ => false

theorem keepsOperand_eq {n : AstNode} (h : isSubLink n = false) : keepsOperand n = isPlain [n] := by
  cases n <;> simp_all [keepsOperand, isSubLink]

/-- The right operand of a comparison. -/
theorem represents_rightOperand {n : AstNode}
    (hsub : ∀ type testexpr operName subselect, n = .subLink type testexpr operName subselect →
      StatementRepresents subselect) :
    Represents (rightOperand (erase n) (parseSubselect (erase n)) (parseItems (erase n))
        (parseExpression (erase n))) 0 (fun r => represented r.2) (demandOf n (keepsOperand n))
      fun r => r.2 = .hole ∨ IsOpenJoin r.2 := by
  cases hn : isSubLink n with
  | true =>
    obtain ⟨type, testexpr, operName, subselect, rfl⟩ :
        ∃ type testexpr operName subselect, n = .subLink type testexpr operName subselect := by
      cases n <;> first | exact ⟨_, _, _, _, rfl⟩ | cases hn
    have hprobe : ∀ s e s', (pure Expr.nullptr : Parser Expr) s = some (e, s') → s' = s :=
      fun s e s' h => congrArg Prod.snd (pure_eq_some.mp h)
    have hjoin := represents_subqueryJoin testexpr scalarTypes (hsub _ _ _ subselect rfl) hprobe
    refine (hjoin.mono fun r hr => Or.inr hr.1).demand ?_
    ext1
    · simp [demandOf, plain, demands, allDemands, add_comm]
    · simp [demandOf, plain, demands, allDemands, add_comm]
    · simp [demandOf, plain, keepsOperand, and_comm]
  | false =>
    -- the operand has no join and is read in place
    have hplace {s s' : ParserState} {r : Expr × RaNode}
        (h : rightOperand (erase n) (parseSubselect (erase n)) (parseItems (erase n))
          (parseExpression (erase n)) s = some (r, s')) : r.2 = .hole ∧ s' = s := by
      have hhole : r.2 = .hole := by
        cases n with
        | subLink type testexpr operName subselect => cases hn
        | _ =>
          simp only [erase, rightOperand, operand, bind_eq_some, pure_eq_some, Prod.mk.injEq] at h
          obtain ⟨_, _, -, rfl, -⟩ := h
          rfl
      obtain ⟨e, t⟩ := r
      obtain rfl : t = .hole := hhole
      exact ⟨rfl, inPlace_rightOperand (inPlace _) h⟩
    have hdemand : demandOf n (keepsOperand n) = plain [n] := by
      ext1 <;> simp [demandOf, plain, allDemands, keepsOperand_eq hn]
    rw [hdemand]
    refine Represents.passedOver (fun s r s' h => ?_) isPlain_iff own_eq_zero
    obtain ⟨hr, rfl⟩ := hplace h
    exact ⟨by rw [hr]; rfl, rfl, .inl hr⟩

/-- A comparison with a subquery on its left cannot be built. -/
private theorem comparison_left_subquery {operator : String} {sel : RaNode} (hsel : Growing sel)
    {type : SubLinkType} {testexpr subselect : PgNode} {expression : Parser Expr}
    {right : Parser (Expr × RaNode)} (s : ParserState) :
    comparison operator sel (operand (.subLink type testexpr subselect)
      (parseSelectStatement subselect) expression) right s = none := by
  rcases hsel with rfl | hsel
  · rw [Option.eq_none_iff_forall_ne_some]
    intro r h
    simp only [comparison, bind_eq_some, Prod.exists] at h
    obtain ⟨l, leftJoin, s₁, hl, sel₁, s₂, hsel₁, -⟩ := h
    obtain ⟨i, join, pr, _, _, -, rfl, -⟩ := subqueryJoin_eq_some hl
    obtain ⟨hjoin, -⟩ := attachPresent_hole_eq hsel₁
    cases hjoin
  · exact comparison_subquery hsel s

/-- A comparison with an operator of its own. -/
theorem represents_comparison {c : Condition} {kind : AExprKind} {name : String}
    {lexpr rexpr : AstNode} (hkind : kind ≠ .inList)
    (hsub : ∀ type testexpr operName subselect, rexpr = .subLink type testexpr operName subselect →
      StatementRepresents subselect) {sel : RaNode} (hsel : Growing sel) :
    Represents (comparison (binaryOperator kind name) sel
        (operand (erase lexpr) (parseSubselect (erase lexpr)) (parseExpression (erase lexpr)))
        (rightOperand (erase rexpr) (parseSubselect (erase rexpr)) (parseItems (erase rexpr))
          (parseExpression (erase rexpr))))
      (represented sel) (withLeaves c) (conditionDemand c (.aExpr kind name lexpr rexpr))
      fun r => r.1.isPresent = true ∧ Growing r.2 ∧ SameRoot sel r.2 := by
  cases hl : isSubLink lexpr with
  | true =>
    obtain ⟨type, testexpr, operName, subselect, rfl⟩ :
        ∃ type testexpr operName subselect, lexpr = .subLink type testexpr operName subselect := by
      cases lexpr <;> first | exact ⟨_, _, _, _, rfl⟩ | cases hl
    intro s r s' h
    rw [erase, parseSubselect, comparison_left_subquery hsel] at h
    cases h
  | false =>
    have hleft : operand (erase lexpr) (parseSubselect (erase lexpr))
        (parseExpression (erase lexpr)) =
          parseExpression (erase lexpr) >>= fun e => pure (e, .hole) := by
      cases lexpr <;> first | rfl | cases hl
    rw [hleft]
    simp only [comparison, bind_assoc, pure_bind, attachPresent_hole]
    have hright := (represents_rightOperand hsub).frame (represented sel)
    rw [zero_add] at hright
    refine Represents.demand (Represents.bind (represents_expression _ lexpr) fun l _ =>
      Represents.bind hright fun r hr => Represents.bind ((represents_attach hsel hr).congr
        (add_comm _ _) (fun _ => rfl) rfl) fun t ht => (represents_leaf
          (leaves_comparison l r.1 kind name)).mono ?_) ?_
    · rintro r rfl
      exact ⟨rfl, ht⟩
    · ext1
      · simp [conditionDemand, demandOf, plain, demands, allDemands, leaves, conditionLeaves,
          ← Multiset.coe_add, add_assoc]
      · simp [conditionDemand, demandOf, plain, demands, allDemands, leaves, conditionLeaves,
          ← Multiset.coe_add, add_assoc]
      · simp [conditionDemand, demandOf, plain, keepsCondition, hkind, keepsOperand_eq hl]
        tauto

/-- The subqueries that `parse_where_expression` has a join for. -/
theorem represents_whereSublink {c : Condition} {type : SubLinkType} {testexpr subselect : AstNode}
    (operName : String) (hsub : StatementRepresents subselect) {sel : RaNode} (hsel : Growing sel)
    (negated : Bool) :
    Represents (whereSublink sel (sublinkJoin type (erase subselect) negated
        (parseSelectStatement (erase subselect)) (parseExpression (erase testexpr))))
      (represented sel) (withLeaves c) (conditionDemand c (.subLink type testexpr operName subselect))
      fun r => r.1.isPresent = true ∧ Growing r.2 ∧ SameRoot sel r.2 := by
  have hattach {x : Parser (Expr × RaNode)} (types : JoinType × JoinType) {l : LeafOperator}
      (hleaf : ∀ join : Join, join.type = types.1 ∨ join.type = types.2 →
        predicateLeaves (rightMarker join) = [l])
      (hx : Represents x 0 (fun r => represented r.2)
        (demandOf subselect (keepsStatement subselect) + plain [testexpr])
        fun r => IsOpenJoin r.2 ∧
          ∃ join, r.1 = rightMarker join ∧ (join.type = types.1 ∨ join.type = types.2)) :
      Represents (whereSublink sel x) (represented sel) (withLeaves c)
        (demandOf subselect (keepsStatement subselect) + plain [testexpr] +
          (0 + ⟨{Part.leaf c l}, {Part.leaf c l}, True⟩))
        fun r => r.1.isPresent = true ∧ Growing r.2 ∧ SameRoot sel r.2 := by
    have hframe := hx.frame (represented sel)
    rw [zero_add] at hframe
    refine Represents.bind hframe fun r hr => ?_
    obtain ⟨hopen, join, hmarker, htype⟩ := hr
    change Represents (attachTo sel r.2 >>= fun sel => pure (r.1, sel)) _ _ _ _
    have hattach : attachTo sel r.2 = attachPresent sel r.2 := by
      obtain ⟨i, join, pr, heq, -⟩ := hopen
      rw [heq, attachPresent_join]
    rw [hattach]
    refine Represents.bind ((represents_attach hsel (.inr hopen)).congr (add_comm _ _)
      (fun _ => rfl) rfl) fun t ht => (represents_leaf (.inl ⟨?_, trivial⟩)).mono ?_
    · rw [hmarker]
      exact hleaf join htype
    · rintro r' rfl
      refine ⟨?_, ht⟩
      rw [hmarker]
      rfl
  have hplace : ∀ s e s', (pure Expr.nullptr : Parser Expr) s = some (e, s') → s' = s :=
    fun s e s' h => congrArg Prod.snd (pure_eq_some.mp h)
  cases type with
  | «exists» =>
    have hexists := hattach (existsTypes negated) (l := .subquery .exists)
      (fun join hjoin => by cases negated <;> rcases hjoin with h | h <;>
        simp [rightMarker, predicateLeaves, h, existsTypes, Inventory.sublinkType])
      (represents_subqueryJoin testexpr _ hsub hplace)
    refine hexists.demand ?_
    ext1
    · simp only [conditionDemand, demandOf, plain, demands, allDemands, Demand.asked_add,
        Demand.asked_zero, ← Multiset.coe_add, Multiset.coe_nil]
      simp only [leaves, conditionLeaves, List.map_cons, List.map_nil, Multiset.coe_singleton]
      abel
    · simp only [conditionDemand, demandOf, plain, demands, allDemands, Demand.own_add,
        Demand.own_zero, ← Multiset.coe_add, Multiset.coe_nil]
      simp only [leaves, conditionLeaves, List.map_cons, List.map_nil, Multiset.coe_singleton]
      abel
    · simp [conditionDemand, demandOf, plain, keepsCondition, and_comm]
  | any =>
    have hprobe : ∀ s e s', (parseExpression (erase testexpr) >>= fun l =>
        pure (Expr.predicate l .nullptr "")) s = some (e, s') → s' = s := by
      intro s e s' h
      obtain ⟨l, s₁, hl, h⟩ := bind_eq_some.mp h
      exact (congrArg Prod.snd (pure_eq_some.mp h)).trans ((inPlace _).expression _ _ _ hl)
    have hany := hattach (inTypes negated) (l := .subquery .any)
      (fun join hjoin => by cases negated <;> rcases hjoin with h | h <;>
        simp [rightMarker, predicateLeaves, h, inTypes, Inventory.sublinkType])
      (represents_subqueryJoin testexpr _ hsub hprobe)
    -- another operator than that of IN is lost
    let operator : List Part :=
      if isIn operName then [] else [.leaf c (.anyOperator operName)]
    have hmore := hany.more (e := ⟨operator, operator, isIn operName = true⟩)
      (by cases h : isIn operName <;> simp [operator, h]) id
    have hleaves : (leaves c (.subLink .any testexpr operName subselect) : Multiset Part) =
        {Part.leaf c (.subquery .any)} + operator := by
      simp only [leaves, conditionLeaves, operator]
      cases isIn operName <;> rfl
    refine hmore.demand ?_
    ext1
    · simp only [conditionDemand, demandOf, plain, demands, allDemands, hleaves, Demand.asked_add,
        Demand.asked_zero, ← Multiset.coe_add, Multiset.coe_nil]
      abel
    · simp only [conditionDemand, demandOf, plain, demands, allDemands, hleaves, Demand.own_add,
        Demand.own_zero, ← Multiset.coe_add, Multiset.coe_nil]
      abel
    · simp [conditionDemand, demandOf, plain, keepsCondition]
      tauto
  | _ =>
    intro s r s' h
    simp [whereSublink, sublinkJoin, bind_eq_some] at h

theorem predicateLeaves_of_not_isPresent {p : Expr} (h : p.isPresent = false) :
    predicateLeaves p = [] := by
  cases p <;> first | rfl | cases h

/-- The arguments of a connective. -/
private theorem represents_parseWhereArgs {ns : List AstNode}
    (ih : ∀ n ∈ ns, ConditionRepresents n) (c : Condition) {sel : RaNode} (hsel : Growing sel)
    (negated : Bool) :
    Represents (parseWhereArgs (eraseAll ns) sel negated) (represented sel)
      (fun r => represented r.2 + ((allPredicateLeaves r.1).map (.leaf c) : List Part))
      ⟨allDemands true ns + ((allConditionLeaves ns).map (.leaf c) : List Part),
        allDemands false ns + ((allConditionLeaves ns).map (.leaf c) : List Part),
        keepsConditions ns = true⟩
      fun r => Growing r.2 ∧ SameRoot sel r.2 := by
  induction ns generalizing sel with
  | nil =>
    rw [eraseAll, parseWhereArgs]
    refine (Represents.pure (by simp [allPredicateLeaves]) ⟨hsel, fun i op c h => ⟨c, h⟩⟩).demand ?_
    ext1
    · simp [allDemands, allConditionLeaves]
    · simp [allDemands, allConditionLeaves]
    · simp [keepsConditions]
  | cons n ns ihns =>
    rw [List.forall_mem_cons] at ih
    rw [eraseAll, parseWhereArgs]
    refine Represents.demand (Represents.bind (ih.1 c sel negated hsel) fun r₁ hr₁ =>
      Represents.bind ((ihns ih.2 hr₁.2.1).frame ((predicateLeaves r₁.1).map (.leaf c) : List Part))
        fun r hr => Represents.pure ?_ ⟨hr.1, hr₁.2.2.trans hr.2⟩) ?_
    · cases hpres : r₁.1.isPresent with
      | true =>
        simp only [if_true, allPredicateLeaves, List.map_append, ← Multiset.coe_add]
        abel
      | false => simp [predicateLeaves_of_not_isPresent hpres]
    · ext1
      · simp only [conditionDemand, leaves, allDemands, allConditionLeaves, Demand.asked_add,
          Demand.asked_zero, List.map_append, ← Multiset.coe_add]
        abel
      · simp only [conditionDemand, leaves, allDemands, allConditionLeaves, Demand.own_add,
          Demand.own_zero, List.map_append, ← Multiset.coe_add]
        abel
      · simp [conditionDemand, keepsConditions]

/-- A condition without a case of its own leaves nothing. -/
private theorem represents_unsupported {n : AstNode}
    (hparse : ∀ sel negated, parseWhereExpression (erase n) sel negated = pure (.nullptr, sel))
    (hleaves : conditionLeaves n = [.unsupported]) (hkeeps : keepsCondition n = false) :
    ConditionRepresents n := by
  intro c sel negated hsel
  rw [hparse]
  refine Represents.passedOver (fun s r s' h => ?_) ?_ ?_
  · obtain ⟨rfl, rfl⟩ := Prod.mk.inj (pure_eq_some.mp h)
    exact ⟨by simp [withLeaves, predicateLeaves], rfl, by simp [hkeeps], hsel,
      fun i op c h => ⟨c, h⟩⟩
  · simp [conditionDemand, leaves, hleaves, hkeeps, add_eq_zero_iff]
  · intro h
    simp [conditionDemand, leaves, hleaves, add_eq_zero_iff] at h

/-- The conditions and subqueries below a condition represent what they stand for. -/
private structure PartsRepresent (n : AstNode) : Prop where
  args : ∀ op args, n = .boolExpr op args → ∀ m ∈ args, ConditionRepresents m := by rintro _ _ ⟨⟩
  sub : ∀ type testexpr operName subselect, n = .subLink type testexpr operName subselect →
    StatementRepresents subselect := by rintro _ _ _ _ ⟨⟩
  right : ∀ kind name lexpr rexpr, n = .aExpr kind name lexpr rexpr →
    ∀ type testexpr operName subselect, rexpr = .subLink type testexpr operName subselect →
      StatementRepresents subselect := by rintro _ _ _ _ ⟨⟩

private theorem represents_condition {n : AstNode} (hparts : PartsRepresent n) :
    ConditionRepresents n := by
  cases n with
  | nullptr =>
    intro c sel negated hsel
    rw [erase, parseWhereExpression]
    exact .crash
  | boolExpr op args =>
    intro c sel negated hsel
    rw [erase, parseWhereExpression]
    have hargs := represents_parseWhereArgs (hparts.args op args rfl) c hsel (decide (op = .not))
    refine Represents.demand (Represents.bind hargs fun r hr =>
      Represents.pure ?_ ⟨fun _ => rfl, hr⟩) ?_
    · simp [withLeaves, predicateLeaves]
    · ext1
      · simp [conditionDemand, demands, leaves, conditionLeaves]
      · simp [conditionDemand, demands, leaves, conditionLeaves]
      · simp [conditionDemand, keepsCondition]
  | aExpr kind name lexpr rexpr =>
    intro c sel negated hsel
    by_cases hkind : kind = .inList
    · rw [erase, parseWhereExpression, if_pos hkind]
      have hitems := represents_plain (represented sel) [rexpr] (inPlace (erase rexpr)).items
      refine Represents.demand (Represents.bind (represents_expression _ lexpr) fun l _ =>
        Represents.bind hitems fun es _ => (represents_leaf
          (leaves_comparison l (.inList es) kind name)).mono ?_) ?_
      · rintro r rfl
        exact ⟨fun _ => rfl, hsel, fun i op c h => ⟨c, h⟩⟩
      · ext1
        · simp only [conditionDemand, plain, demands, allDemands, leaves, conditionLeaves,
            Demand.asked_add, ← Multiset.coe_add, Multiset.coe_nil, List.map_cons, List.map_nil,
            Multiset.coe_singleton]
          abel
        · simp only [conditionDemand, plain, demands, allDemands, leaves, conditionLeaves,
            Demand.own_add, ← Multiset.coe_add, Multiset.coe_nil, List.map_cons, List.map_nil,
            Multiset.coe_singleton]
          abel
        · simp only [conditionDemand, plain, keepsCondition, hkind, if_true, isPlain, allDemands,
            Demand.kept_add]
          simp
          tauto
    · rw [erase, parseWhereExpression, if_neg hkind]
      exact (represents_comparison hkind (hparts.right kind name lexpr rexpr rfl) hsel).mono
        fun r hr => ⟨fun _ => hr.1, hr.2⟩
  | nullTest arg type =>
    intro c sel negated hsel
    rw [erase, parseWhereExpression]
    refine Represents.demand (Represents.bind (represents_expression _ arg) fun e _ =>
      (represents_leaf (.inl ⟨rfl, trivial⟩)).mono ?_) ?_
    · rintro r rfl
      exact ⟨fun _ => rfl, hsel, fun i op c h => ⟨c, h⟩⟩
    · ext1
      · simp [conditionDemand, plain, demands, allDemands, leaves, conditionLeaves]
      · simp [conditionDemand, plain, demands, allDemands, leaves, conditionLeaves]
      · simp [conditionDemand, plain, keepsCondition]
  | subLink type testexpr operName subselect =>
    intro c sel negated hsel
    rw [erase, parseWhereExpression]
    exact (represents_whereSublink operName (hparts.sub _ _ _ _ rfl) hsel negated).mono
      fun r hr => ⟨fun _ => hr.1, hr.2⟩
  | _ =>
    refine represents_unsupported (fun sel negated => ?_) (by simp [conditionLeaves])
      (by simp [keepsCondition])
    simp [erase, parseWhereExpression]

/-- A clause is attached to the tree. -/
private theorem represents_clause (root : RaNode) {x : Parser RaNode} {d : Demand}
    {post : RaNode → Prop} (hx : Represents x 0 represented d post) :
    Represents (x >>= fun t => attachPresent root t) (represented root) represented d
      fun _ => True := by
  have hframe := hx.frame (represented root)
  rw [zero_add] at hframe
  have hattach (t : RaNode) : Represents (attachPresent root t) (represented t + represented root)
      represented 0 fun _ => True := by
    refine Represents.passedOver (fun s u s' h => ?_) (by simp) fun _ => rfl
    unfold attachPresent at h
    split at h
    · next hhole =>
      obtain ⟨rfl, rfl⟩ := Prod.mk.inj (pure_eq_some.mp h)
      obtain rfl : t = .hole := by cases t <;> first | rfl | cases hhole
      exact ⟨by simp [represented], rfl, trivial⟩
    · obtain ⟨hadd, rfl⟩ := attachTo_eq_some.mp h
      exact ⟨by rw [represented_addSubtree hadd, add_comm], rfl, trivial⟩
  refine Represents.demand (Represents.bind hframe fun t _ => hattach t) ?_
  ext1 <;> simp

/-- The demand of a WHERE or HAVING condition that may be absent. -/
def optionalCondition (c : Condition) (n : AstNode) : Demand :=
  ⟨leaves c n + demands true n, leaves c n + demands false n,
    (n.isNull || keepsCondition n) = true⟩

private theorem optionalCondition_eq {c : Condition} {n : AstNode} (hn : n.isNull = false) :
    optionalCondition c n = conditionDemand c n := by
  ext1 <;> simp [optionalCondition, conditionDemand, hn, add_comm]

private theorem optionalCondition_nullptr (c : Condition) :
    optionalCondition c .nullptr = 0 := by
  ext1 <;> simp [optionalCondition, leaves, conditionLeaves, demands, AstNode.isNull]

private theorem eq_nullptr_of_isNull {n : AstNode} (hn : n.isNull = true) : n = .nullptr := by
  cases n <;> first | rfl | cases hn

/-- `SQLtoRA::parse_where`. -/
private theorem represents_parseWhere {n : AstNode}
    (hc : n.isNull = false → ConditionRepresents n) :
    Represents (parseWhere (erase n).isNull fun sel => parseWhereExpression (erase n) sel false) 0
      represented (optionalCondition .where n) fun _ => True := by
  rw [isNull_erase]
  cases hn : n.isNull with
  | true =>
    rw [eq_nullptr_of_isNull hn, optionalCondition_nullptr]
    exact .pure rfl trivial
  | false =>
    rw [optionalCondition_eq hn, parseWhere, if_neg Bool.false_ne_true]
    refine Represents.demand (Represents.bind (.newId 0) fun i _ => ?_) (by ext1 <;> simp)
      (d := 0 + (conditionDemand .where n + 0))
    have hstart : represented (.unary i (.selection .nullptr) .hole) = 0 := by
      simp [represented, operatorParts, predicateLeaves]
    have hcondition := hc hn .where (.unary i (.selection .nullptr) .hole) false (.inr trivial)
    rw [hstart] at hcondition
    refine Represents.bind hcondition fun r hr => ?_
    obtain ⟨k, hk⟩ := hr.2.2 i _ .hole rfl
    -- the Selection, or its child when there is no predicate
    refine Represents.passedOver (fun s t s' h => ?_) (by simp) fun _ => rfl
    obtain ⟨p, sel⟩ := r
    simp only at hk
    subst hk
    cases hp : p.isPresent with
    | true =>
      simp only [hp, if_true] at h
      obtain ⟨rfl, rfl⟩ := Prod.mk.inj (pure_eq_some.mp h)
      refine ⟨?_, rfl, trivial⟩
      simp [withLeaves, setPredicate, represented, operatorParts, predicateLeaves, add_comm]
    | false =>
      simp only [hp, Bool.false_eq_true, if_false, ofOption_eq_some] at h
      obtain ⟨hchild, rfl⟩ := h
      refine ⟨?_, rfl, trivial⟩
      have ht : t = k := by
        cases k <;> simp [RaNode.childNodes] at hchild <;> exact hchild.symm
      simp [withLeaves, represented, operatorParts, predicateLeaves,
        predicateLeaves_of_not_isPresent hp, ht]

/-- `SQLtoRA::parse_having`. -/
private theorem represents_parseHaving {n : AstNode}
    (hc : n.isNull = false → ConditionRepresents n) :
    Represents (parseHaving (erase n).isNull fun sel => parseWhereExpression (erase n) sel false) 0
      represented (clauseDemand .having (!n.isNull) + optionalCondition .having n)
      fun _ => True := by
  rw [isNull_erase]
  cases hn : n.isNull with
  | true =>
    rw [eq_nullptr_of_isNull hn, optionalCondition_nullptr]
    refine (Represents.pure rfl trivial).demand ?_
    ext1 <;> simp [clauseDemand, clauseIf]
  | false =>
    rw [optionalCondition_eq hn, parseHaving, if_neg Bool.false_ne_true]
    intro s t s' h
    simp only [bind_eq_some, newId_eq_some, Prod.mk.injEq, Prod.exists] at h
    obtain ⟨i, s₁, ⟨rfl, rfl⟩, p, sel, s₂, hcond, h⟩ := h
    obtain ⟨⟨hkept, -, hroot⟩, new, D, hnew, hparts, hD, hown⟩ :=
      hc hn .having (.unary s.nextId (.having .nullptr) .hole) false (.inr trivial) _ _ _ hcond
    obtain ⟨k, hk⟩ := hroot _ _ .hole rfl
    simp only at hk
    subst hk
    have hstart : represented (.unary s.nextId (.having .nullptr) .hole) = {.clause .having} := by
      simp [represented, operatorParts, predicateLeaves]
    rw [hstart] at hparts hown
    obtain ⟨ht, rfl⟩ := Prod.mk.inj (pure_eq_some.mp h)
    have hasked : (clauseDemand .having (!false) + conditionDemand .having n).asked =
        {Part.clause .having} + (conditionDemand .having n).asked := by
      simp [clauseDemand, clauseIf]
    have hshare : (clauseDemand .having (!false) + conditionDemand .having n).own =
        {Part.clause .having} + (conditionDemand .having n).own := by
      simp [clauseDemand, clauseIf]
    have hboth : (clauseDemand .having (!false) + conditionDemand .having n).kept ↔
        (conditionDemand .having n).kept := by
      simp [clauseDemand]
    rw [hasked, hshare, hboth]
    cases hp : p.isPresent with
    | true =>
      have ht' : represented t =
          withLeaves .having (p, .unary s.nextId (.having .nullptr) k) := by
        simp only [hp, if_true] at ht
        subst ht
        simp only [withLeaves, setPredicate, represented, operatorParts, predicateLeaves,
          List.map_nil, ← Multiset.coe_add, Multiset.coe_nil]
        abel
      refine ⟨trivial, new, D, hnew, ?_, hD, fun hzero => ?_⟩
      · rw [ht', zero_add, hparts]
      · rw [ht', zero_add, hown hzero]
    | false =>
      -- the HAVING clause is dropped with its condition
      have ht' : t = .hole := by simpa [hp] using ht
      have hnot : ¬ (conditionDemand .having n).kept := fun hkeeps => by simp [hkept hkeeps] at hp
      refine ⟨trivial, new, D + withLeaves .having (p, .unary s.nextId (.having .nullptr) k), hnew,
        ?_, ?_, fun hzero => ?_⟩
      · rw [zero_add, ← hparts, ht']
        simp only [represented]
        abel
      · rw [add_eq_zero_iff, hD]
        exact ⟨fun h => h.1, fun h => absurd h hnot⟩
      · exact absurd (hD.mp (add_eq_zero_iff.mp hzero).1) hnot

/-- A clause with an operator of its own, read in place. -/
private theorem represents_ownOperator {c : Clause} (op : α → UnaryOp) (ns : List AstNode)
    {x : Parser α} (hx : ∀ s r s', x s = some (r, s') → s' = s)
    (hop : ∀ r, operatorParts (op r) = [.clause c]) :
    Represents (newId >>= fun id => x >>= fun r => pure (.unary id (op r) .hole)) 0 represented
      (clauseDemand c true + plain ns) fun _ => True := by
  refine Represents.demand (Represents.bind (.newId 0) fun i _ =>
    Represents.bind (represents_plain 0 ns hx) fun r _ => ?_) (d := 0 + (plain ns +
      clauseDemand c true)) ?_
  · intro s t s' h
    obtain ⟨rfl, rfl⟩ := Prod.mk.inj (pure_eq_some.mp h)
    exact ⟨trivial, [], 0, by simp, by simp [represented, hop, clauseDemand, clauseIf, allRepresented],
      by simp [clauseDemand], fun _ => by simp [represented, hop, clauseDemand, clauseIf]⟩
  · ext1
    · simp [add_comm]
    · simp [add_comm]
    · simp [clauseDemand]

private theorem parseExpressions_inPlace (ns : List AstNode) :
    ∀ s es s', parseExpressions (eraseAll ns) s = some (es, s') → s' = s :=
  fun _ _ _ h => inPlace_parseExpressions (fun n _ => inPlace n) h

private theorem clauseDemand_false (c : Clause) : clauseDemand c false + plain [] = 0 := by
  ext1 <;> simp [clauseDemand, clauseIf, plain, allDemands, isPlain]

private theorem represents_parseOrderBy (ns : List AstNode) :
    Represents (parseOrderBy (eraseAll ns).isEmpty (parseSorts (eraseAll ns))) 0 represented
      (clauseDemand .orderBy (!ns.isEmpty) + plain ns) fun _ => True := by
  cases ns with
  | nil =>
    simp only [List.isEmpty_nil, Bool.not_true, clauseDemand_false]
    exact .pure rfl trivial
  | cons n ns =>
    have hop := represents_ownOperator (c := .orderBy)
      (fun sorts : List (Expr × SortDirection) =>
        .orderBy (sorts.map Prod.fst) (sorts.map Prod.snd)) (n :: ns)
      (parseSorts_inPlace (eraseAll (n :: ns)))
      fun _ => rfl
    exact hop

private theorem represents_parseGroupBy (ns : List AstNode) :
    Represents (parseGroupBy (eraseAll ns).isEmpty (parseExpressions (eraseAll ns))) 0 represented
      (clauseDemand .groupBy (!ns.isEmpty) + plain ns) fun _ => True := by
  cases ns with
  | nil =>
    simp only [List.isEmpty_nil, Bool.not_true, clauseDemand_false]
    exact .pure rfl trivial
  | cons n ns =>
    have hop := represents_ownOperator (c := .groupBy) (fun args => .groupBy args false)
      (n :: ns) (parseExpressions_inPlace (n :: ns)) fun _ => rfl
    exact hop

/-- `SQLtoRA::parse_select`. -/
private theorem represents_parseSelect (distinct implicitGroupBy : Bool) (ns : List AstNode) :
    Represents (parseSelect distinct implicitGroupBy (parseTargets (eraseAll ns))) 0 represented
      (clauseDemand .distinct distinct + plain ns) fun _ => True := by
  refine Represents.demand (Represents.bind (.newId 0) fun i _ =>
    Represents.bind (represents_plain 0 ns (parseTargets_inPlace _)) fun es _ => ?_)
    (d := 0 + (plain ns + clauseDemand .distinct distinct)) ?_
  · have hroot : represented (.projection i { args := es, distinct := distinct } .hole) =
        (clauseDemand .distinct distinct).asked := by
      simp [represented, operatorParts, clauseDemand]
    intro s t s' h
    have ht : represented t = (clauseDemand .distinct distinct).asked ∧ s'.ctes = s.ctes := by
      cases implicitGroupBy with
      | false =>
        obtain ⟨rfl, rfl⟩ := Prod.mk.inj (pure_eq_some.mp h)
        exact ⟨hroot, rfl⟩
      | true =>
        obtain ⟨j, s₁, hj, h⟩ := bind_eq_some.mp h
        obtain ⟨rfl, rfl⟩ := Prod.mk.inj (newId_eq_some.mp hj)
        obtain ⟨hadd, rfl⟩ := attachTo_eq_some.mp h
        refine ⟨?_, rfl⟩
        rw [represented_addSubtree hadd, hroot]
        simp [represented, operatorParts, clauseIf]
    exact ⟨trivial, [], 0, by simp [ht.2], by simp [ht.1, allRepresented], by simp [clauseDemand],
      fun _ => by simp [ht.1, clauseDemand]⟩
  · ext1
    · simp [add_comm]
    · simp [add_comm]
    · simp [clauseDemand]

def FromItemRepresents (n : AstNode) : Prop :=
  Represents (parseFromItem (erase n)) 0 (fun r => allRepresented r.toList)
    (demandOf n (keepsFromItem n)) fun _ => True

theorem represented_renameProjection (name : String) (columns : List String) (t : RaNode) :
    represented (renameProjection name columns t) = represented t := by
  unfold renameProjection
  split <;> rfl

/-- A relation asks for nothing. -/
private theorem relationOf_eq_some {relname : String} {a : Option Alias} {s s' : ParserState}
    {t : RaNode} (h : relationOf relname a s = some (t, s')) :
    represented t = 0 ∧ s'.ctes = s.ctes := by
  simp only [relationOf, bind_eq_some, newId_eq_some, pure_eq_some, Prod.mk.injEq] at h
  obtain ⟨i, _, ⟨rfl, rfl⟩, rfl, rfl⟩ := h
  exact ⟨rfl, rfl⟩

/-- A FROM subquery; one that is taken for a correlated one is dropped. -/
private theorem represents_rangeSubselect {subquery : AstNode} {a : Alias}
    (hsub : StatementRepresents subquery) : FromItemRepresents (.rangeSubselect subquery a) := by
  intro s r s' h
  simp only [erase, parseFromItem, parseFromSubquery, bind_eq_some, ofOption_eq_some, pure_eq_some,
    Prod.mk.injEq] at h
  obtain ⟨t, s₁, ⟨pr, s₂, hpr, correlated, s₃, ⟨hcorr, rfl⟩, rfl, rfl⟩, rfl, rfl⟩ := h
  obtain ⟨-, new, D, hnew, hparts, hD, hown⟩ := hsub _ _ _ hpr
  have hdemand : demands true (.rangeSubselect subquery a) = demands true subquery ∧
      demands false (.rangeSubselect subquery a) = demands false subquery := by
    simp only [demands, and_self]
  cases correlated with
  | false =>
    have hresult : allRepresented (Option.toList (some (if false = true then RaNode.hole
        else renameProjection a.aliasname a.colnames pr))) = represented pr := by
      simp [allRepresented, represented_renameProjection]
    rw [← hresult] at hparts hown
    refine ⟨trivial, new, D, hnew, ?_, ?_, ?_⟩
    · rw [hparts]
      simp [demandOf, hdemand]
    · rw [hD]
      simp [demandOf, keepsFromItem, hcorr]
    · exact fun hzero => (hown hzero).trans (by simp [demandOf, hdemand])
  | true =>
    refine ⟨trivial, new, D + represented pr, hnew, ?_, ?_, fun hzero => ?_⟩
    · have hasked : (demandOf (.rangeSubselect subquery a)
          (keepsFromItem (.rangeSubselect subquery a))).asked =
          (demandOf subquery (keepsStatement subquery)).asked := by
        simp [demandOf, hdemand]
      rw [hasked, ← hparts]
      simp only [if_true, allRepresented, Option.toList_some, List.map_cons, List.map_nil,
        List.sum_cons, List.sum_nil, represented]
      abel
    · rw [add_eq_zero_iff]
      constructor
      · rintro ⟨hzero, hpr⟩
        have hshare := hown hzero
        rw [hpr, zero_add] at hshare
        have hempty : (demands false subquery).isEmpty = true :=
          (Multiset.coe_eq_zero_iff_isEmpty _).mp hshare.symm
        have hkeeps : keepsStatement subquery = true := hD.mp hzero
        simp [demandOf, keepsFromItem, hcorr, hkeeps, List.isEmpty_iff.mp hempty]
      · intro hkept
        simp only [demandOf, keepsFromItem, hcorr, Bool.and_eq_true, Bool.or_eq_true, ne_eq,
          not_true_eq_false, decide_false, Bool.false_eq_true, false_or] at hkept
        have hzero : D = 0 := hD.mpr hkept.1
        refine ⟨hzero, ?_⟩
        rw [hown hzero, zero_add]
        exact (Multiset.coe_eq_zero_iff_isEmpty _).mpr hkept.2
    · obtain ⟨hzero', hpr⟩ := add_eq_zero_iff.mp hzero
      have hshare := hown hzero'
      rw [hpr] at hshare
      simp only [if_true, allRepresented, Option.toList_some, List.map_cons, List.map_nil,
        List.sum_cons, List.sum_nil, represented, add_zero]
      exact hshare.trans (by simp [demandOf, hdemand])

/-- The ON condition of a join. -/
private theorem represents_quals {n : AstNode} (hn : n.isNull = false → ConditionRepresents n) :
    Represents (orNull (erase n) do
        let (p, _) ← parseWhereExpression (erase n) .hole false
        return p)
      0 (fun p => ((predicateLeaves p).map (.leaf .on) : List Part)) (optionalCondition .on n)
      fun _ => True := by
  unfold orNull
  rw [isNull_erase]
  cases hnull : n.isNull with
  | true =>
    rw [eq_nullptr_of_isNull hnull, optionalCondition_nullptr, if_pos rfl]
    exact .pure (by simp [predicateLeaves]) trivial
  | false =>
    rw [optionalCondition_eq hnull, if_neg Bool.false_ne_true]
    intro s p s' h
    simp only [bind_eq_some, pure_eq_some, Prod.mk.injEq, Prod.exists] at h
    obtain ⟨p', sel, s₁, hp, rfl, rfl⟩ := h
    obtain ⟨rfl, -⟩ := (inPlace (erase n)).condition _ _ _ _ _ hp
    obtain ⟨-, new, D, hnew, hparts, hD, hown⟩ := hn hnull .on .hole false (.inl rfl) _ _ _ hp
    simp only [withLeaves, represented, zero_add] at hparts hown
    exact ⟨trivial, new, D, hnew, by rw [zero_add, hparts], hD,
      fun hzero => (hown hzero).trans (zero_add _).symm⟩

/-- A join of two relations. -/
private theorem represents_joinExpr {type : PgJoinType} {natural : Bool} {larg rarg : AstNode}
    {usings : List String} {quals : AstNode} {a : Option Alias}
    (hq : quals.isNull = false → ConditionRepresents quals) :
    FromItemRepresents (.joinExpr type natural larg rarg usings quals a) := by
  let unread : Demand := ⟨clauseIf .natural natural + clauseIf .using (!usings.isEmpty) +
      allDemands true [larg, rarg], clauseIf .natural natural + clauseIf .using (!usings.isEmpty) +
      allDemands false [larg, rarg], (!natural && usings.isEmpty && isPlain [larg, rarg]) = true⟩
  have hdemand : optionalCondition .on quals + unread =
      demandOf (.joinExpr type natural larg rarg usings quals a)
        (keepsFromItem (.joinExpr type natural larg rarg usings quals a)) := by
    ext1
    · simp only [optionalCondition, unread, demandOf, demands, allDemands, Demand.asked_add,
        ← Multiset.coe_add, Multiset.coe_nil]
      abel
    · simp only [optionalCondition, unread, demandOf, demands, allDemands, Demand.own_add,
        ← Multiset.coe_add, Multiset.coe_nil]
      abel
    · simp only [optionalCondition, unread, demandOf, keepsFromItem, Demand.kept_add,
        Bool.and_eq_true]
      exact propext and_comm
  rw [FromItemRepresents, ← hdemand]
  refine Represents.more ?_ ?_ ?_
  · rw [erase, parseFromItem]
    intro s r s' h
    obtain ⟨t, s₁, ht, h⟩ := bind_eq_some.mp h
    obtain ⟨rfl, rfl⟩ := Prod.mk.inj (pure_eq_some.mp h)
    obtain ⟨⟨lname, lalias, rfl⟩, rname, ralias, rfl⟩ : (∃ name a, larg = .rangeVar name a) ∧
        ∃ name a, rarg = .rangeVar name a := by
      cases larg with
      | rangeVar name a =>
        cases rarg with
        | rangeVar name' a' => exact ⟨⟨_, _, rfl⟩, _, _, rfl⟩
        | _ => simp [erase, parseFromJoin] at ht
      | _ => simp [erase, parseFromJoin] at ht
    · simp only [erase, parseFromJoin, bind_eq_some, ofOption_eq_some, newId_eq_some, pure_eq_some, Prod.mk.injEq] at ht
      obtain ⟨type', s₂, ⟨-, rfl⟩, i, _, ⟨rfl, rfl⟩, l, s₃, hl, r, s₄, hr, p, s₅, hp, rfl, rfl⟩ := ht
      obtain ⟨hl, hs₃⟩ := relationOf_eq_some hl
      obtain ⟨hr, hs₄⟩ := relationOf_eq_some hr
      obtain ⟨-, new, D, hnew, hparts, hD, hown⟩ := represents_quals hq _ _ _ hp
      have htree (join : Join) (hjoin : join.predicate = p ∧ join.marker = 0) :
          allRepresented (Option.toList (some (RaNode.join s₂.nextId join l r))) =
            ((predicateLeaves p).map (.leaf .on) : List Part) := by
        simp [allRepresented, represented, joinParts, hl, hr, hjoin]
      refine ⟨trivial, new, D, by rw [hnew, hs₄, hs₃], ?_, hD, fun hzero => ?_⟩
      · rw [← hparts]
        exact congrArg (· + allRepresented new + D) (htree _ ⟨rfl, rfl⟩)
      · rw [← hown hzero]
        exact htree _ ⟨rfl, rfl⟩
  · have hplain := @isPlain_iff [larg, rarg]
    cases natural <;> cases usings <;>
      simp [unread, clauseIf, hplain]
  · intro hzero
    obtain ⟨hclauses, hplain⟩ := add_eq_zero_iff.mp hzero
    exact add_eq_zero_iff.mpr ⟨hclauses, own_eq_zero hplain⟩

private theorem represents_parseFromItems {ns : List AstNode}
    (ih : ∀ n ∈ ns, FromItemRepresents n) :
    Represents (parseFromItems (eraseAll ns)) 0 allRepresented (demandOfAll ns (keepsFromItems ns))
      fun _ => True := by
  induction ns with
  | nil =>
    rw [eraseAll, parseFromItems]
    refine (Represents.pure rfl trivial).demand ?_
    ext1 <;> simp [demandOfAll, allDemands, keepsFromItems]
  | cons n ns ihns =>
    rw [List.forall_mem_cons] at ih
    rw [eraseAll, parseFromItems]
    refine Represents.demand (Represents.bind ih.1 fun r _ => Represents.bind
      (((ihns ih.2).frame (allRepresented r.toList)).congr (zero_add _) (fun _ => rfl) rfl)
        fun rs _ => Represents.pure ?_ trivial) ?_
    · simp [allRepresented, add_comm]
    · ext1
      · simp [demandOf, demandOfAll, allDemands]
      · simp [demandOf, demandOfAll, allDemands]
      · simp [demandOf, demandOfAll, keepsFromItems]

/-- The loop of `parse_from` attaches every relation. -/
private theorem addRelations_eq_some {base t : RaNode} {rs : List RaNode} {s s' : ParserState}
    (h : addRelations base rs s = some (t, s')) :
    represented t = represented base + allRepresented rs ∧ s'.ctes = s.ctes := by
  have hcross (i : Nat) : represented (.join i { type := .crossProduct } .hole .hole) = 0 := by
    simp [represented, joinParts, predicateLeaves]
  fun_induction addRelations base rs generalizing s with
  | case1 base =>
    obtain ⟨rfl, rfl⟩ := Prod.mk.inj (pure_eq_some.mp h)
    exact ⟨by simp [allRepresented], rfl⟩
  | case2 base r =>
    obtain ⟨hadd, rfl⟩ := attachTo_eq_some.mp h
    exact ⟨by simp [allRepresented, represented_addSubtree hadd], rfl⟩
  | case3 base r r' =>
    simp only [bind_eq_some, attachTo_eq_some] at h
    obtain ⟨u, s₁, ⟨hadd, rfl⟩, hadd', rfl⟩ := h
    refine ⟨?_, rfl⟩
    rw [represented_addSubtree hadd', represented_addSubtree hadd]
    simp [allRepresented, add_assoc]
  | case4 base r rs _ _ ih =>
    simp only [bind_eq_some, attachTo_eq_some, newId_eq_some, Prod.mk.injEq] at h
    obtain ⟨u, s₁, ⟨hadd, rfl⟩, i, s₂, ⟨rfl, rfl⟩, v, s₃, ⟨hadd', rfl⟩, hrest⟩ := h
    obtain ⟨ht, hs⟩ := ih v hrest
    refine ⟨?_, hs⟩
    rw [ht, represented_addSubtree hadd', represented_addSubtree hadd, hcross]
    simp [allRepresented, add_assoc]

/-- `SQLtoRA::parse_from`. -/
private theorem represents_parseFrom {ns : List AstNode} (ih : ∀ n ∈ ns, FromItemRepresents n) :
    Represents (parseFrom (eraseAll ns).isEmpty (parseFromItems (eraseAll ns))) 0 represented
      (demandOfAll ns (keepsFromItems ns)) fun _ => True := by
  cases ns with
  | nil =>
    refine Represents.demand (Represents.bind (.newId 0) fun i _ => Represents.pure rfl trivial) ?_
    ext1 <;> simp [demandOfAll, allDemands, keepsFromItems]
  | cons n ns =>
    have hnone : ¬ (eraseAll (n :: ns)).isEmpty = true := by simp [eraseAll]
    rw [parseFrom, if_neg hnone]
    refine Represents.demand (Represents.bind (represents_parseFromItems ih) fun rs _ => ?_)
      (d := demandOfAll (n :: ns) (keepsFromItems (n :: ns)) + 0) (by ext1 <;> simp)
    have hcross (i : Nat) : represented (.join i { type := .crossProduct } .hole .hole) = 0 := by
      simp [represented, joinParts, predicateLeaves]
    intro s t s' h
    have ht : represented t = allRepresented rs ∧ s'.ctes = s.ctes := by
      split at h
      · obtain ⟨rfl, rfl⟩ := Prod.mk.inj (pure_eq_some.mp h)
        exact ⟨by simp [allRepresented], rfl⟩
      · obtain ⟨i, s₁, hi, h⟩ := bind_eq_some.mp h
        obtain ⟨rfl, rfl⟩ := Prod.mk.inj (newId_eq_some.mp hi)
        obtain ⟨ht, hs⟩ := addRelations_eq_some h
        exact ⟨by rw [ht, hcross, zero_add], hs⟩
    exact ⟨trivial, [], 0, by simp [ht.2], by simp [ht.1, allRepresented], by simp,
      fun _ => by simp [ht.1]⟩

/-- `SQLtoRA::parse_with`: the WITH queries become CTEs. -/
private theorem represents_parseWith {ns : List AstNode} (ih : ∀ name cols query,
    .commonTableExpr name cols query ∈ ns → StatementRepresents query) :
    Represents (parseWith (eraseAll ns)) 0 (fun _ => 0)
      ⟨allDemands true ns, 0, keepsCtes ns = true⟩ fun _ => True := by
  induction ns with
  | nil =>
    rw [eraseAll, parseWith]
    refine (Represents.pure rfl trivial).demand ?_
    ext1 <;> simp [allDemands, keepsCtes]
  | cons n ns ihns =>
    intro s r s' h
    rw [eraseAll, parseWith] at h
    simp only [bind_eq_some, pushCte_eq_some, Prod.mk.injEq] at h
    obtain ⟨t, s₁, ht, _, s₂, ⟨-, rfl⟩, h⟩ := h
    obtain ⟨name, cols, query, rfl⟩ : ∃ name cols query, n = .commonTableExpr name cols query := by
      cases n with
      | commonTableExpr name cols query => exact ⟨_, _, _, rfl⟩
      | _ => simp [erase, parseCte] at ht
    simp only [erase, parseCte, bind_eq_some, pure_eq_some, Prod.mk.injEq] at ht
    obtain ⟨pr, s₃, hpr, rfl, rfl⟩ := ht
    obtain ⟨-, new, D, hnew, hparts, hD, -⟩ := ih name cols query List.mem_cons_self _ _ _ hpr
    obtain ⟨-, new', E, hnew', hparts', hE, -⟩ :=
      ihns (fun name cols query hq => ih name cols query (List.mem_cons_of_mem _ hq)) _ _ _ h
    refine ⟨trivial, new ++ renameProjection name cols pr :: new', D + E, by simp [hnew', hnew],
      ?_, ?_, fun _ => by simp⟩
    · have hnews : allRepresented (new ++ renameProjection name cols pr :: new') =
          allRepresented new + (represented pr + allRepresented new') := by
        simp [allRepresented, represented_renameProjection]
      have hasked : (allDemands true (.commonTableExpr name cols query :: ns) : Multiset Part) =
          demands true query + allDemands true ns := by
        simp [allDemands, demands]
      calc 0 + allRepresented (new ++ renameProjection name cols pr :: new') + (D + E)
          = represented pr + allRepresented new + D + (0 + allRepresented new' + E) := by
            rw [hnews]
            abel
        _ = 0 + allDemands true (.commonTableExpr name cols query :: ns) := by
            rw [hparts, hparts', hasked]
            simp [demandOf]
    · simp [add_eq_zero_iff, hD, hE, demandOf, keepsCtes, keepsCte]

theorem clauseIf_eq_nil {c : Clause} {present : Bool} : clauseIf c present = [] ↔ present = false := by
  cases present <;> simp [clauseIf]

/-- Clauses that are not there ask for nothing. -/
private theorem demands_of_unreadClauses {distinctClause windowClause valuesLists : List AstNode}
    {limitOffset limitCount : AstNode} {op : SetOperation}
    (h : unreadClauses distinctClause windowClause valuesLists limitOffset limitCount op = [])
    (withQueries : Bool) :
    allDemands withQueries distinctClause = [] ∧ windowClause = [] ∧ valuesLists = [] ∧
      limitOffset = .nullptr ∧ limitCount = .nullptr := by
  simp only [unreadClauses, List.append_eq_nil_iff, clauseIf_eq_nil, Bool.not_eq_false',
    List.isEmpty_iff, List.any_eq_false] at h
  obtain ⟨⟨⟨⟨⟨hdistinct, hwindow⟩, hvalues⟩, hoffset⟩, hlimit⟩, -⟩ := h
  refine ⟨?_, hwindow, hvalues, eq_nullptr_of_isNull hoffset, eq_nullptr_of_isNull hlimit⟩
  clear hoffset hlimit
  induction distinctClause with
  | nil => rfl
  | cons n ns ih =>
    rw [List.forall_mem_cons] at hdistinct
    have hn : n = .nullptr := eq_nullptr_of_isNull (by simpa using hdistinct.1)
    rw [allDemands, hn, ih hdistinct.2]
    rfl

/-- The clauses of a SELECT statement, one after the other. -/
private theorem represents_selectStmt {distinctClause targetList fromClause groupClause windowClause
    valuesLists sortClause withClause : List AstNode} {whereClause havingClause limitOffset limitCount
    larg rarg : AstNode} {op : SetOperation}
    (hfrom : ∀ n ∈ fromClause, FromItemRepresents n)
    (hwhere : whereClause.isNull = false → ConditionRepresents whereClause)
    (hhaving : havingClause.isNull = false → ConditionRepresents havingClause)
    (hwith : ∀ name cols query, .commonTableExpr name cols query ∈ withClause →
      StatementRepresents query) :
    StatementRepresents (.selectStmt distinctClause targetList fromClause whereClause groupClause
      havingClause windowClause valuesLists sortClause limitOffset limitCount withClause op larg
      rarg) := by
  let unread (withQueries : Bool) : List Part :=
    unreadClauses distinctClause windowClause valuesLists limitOffset limitCount op ++
      allDemands withQueries distinctClause ++ allDemands withQueries windowClause ++
      allDemands withQueries valuesLists ++ demands withQueries limitOffset ++
      demands withQueries limitCount ++ demands withQueries larg ++ demands withQueries rarg
  let unreadKept : Bool :=
    (unreadClauses distinctClause windowClause valuesLists limitOffset limitCount op).isEmpty &&
      isPlain [larg, rarg]
  have hunread (withQueries : Bool) : unread withQueries = [] ↔
      unreadClauses distinctClause windowClause valuesLists limitOffset limitCount op = [] ∧
        demands withQueries larg = [] ∧ demands withQueries rarg = [] := by
    simp only [unread, List.append_eq_nil_iff]
    refine ⟨fun h => ⟨h.1.1.1.1.1.1.1, h.1.2, h.2⟩, ?_⟩
    rintro ⟨h, hl, hr⟩
    obtain ⟨hdistinct, hwindow, hvalues, hoffset, hlimit⟩ := demands_of_unreadClauses h withQueries
    exact ⟨⟨⟨⟨⟨⟨⟨h, hdistinct⟩, by rw [hwindow]; rfl⟩, by rw [hvalues]; rfl⟩, by rw [hoffset]; rfl⟩,
      by rw [hlimit]; rfl⟩, hl⟩, hr⟩
  have hkept : (unread true : Multiset Part) = 0 ↔ unreadKept = true := by
    rw [Multiset.coe_eq_zero, hunread]
    simp [unreadKept, isPlain, allDemands]
  have hown : (unread true : Multiset Part) = 0 → (unread false : Multiset Part) = 0 := by
    rw [Multiset.coe_eq_zero, Multiset.coe_eq_zero, hunread, hunread]
    rintro ⟨h, hl, hr⟩
    exact ⟨h, List.sublist_nil.mp (hl ▸ demands_false_sublist larg),
      List.sublist_nil.mp (hr ▸ demands_false_sublist rarg)⟩
  rw [StatementRepresents, erase, parseSelectStatement]
  have hclauses (targets : Bool) : Represents (do
      parseWith (eraseAll withClause)
      let root ← parseSelect (!distinctClause.isEmpty) targets (parseTargets (eraseAll targetList))
      let root ← parseOrderBy (eraseAll sortClause).isEmpty (parseSorts (eraseAll sortClause)) >>=
        fun t => attachPresent root t
      let root ← (parseHaving (erase havingClause).isNull fun sel =>
        parseWhereExpression (erase havingClause) sel false) >>= fun t => attachPresent root t
      let root ← parseGroupBy (eraseAll groupClause).isEmpty (parseExpressions (eraseAll groupClause))
        >>= fun t => attachPresent root t
      let root ← (parseWhere (erase whereClause).isNull fun sel =>
        parseWhereExpression (erase whereClause) sel false) >>= fun t => attachPresent root t
      parseFrom (eraseAll fromClause).isEmpty (parseFromItems (eraseAll fromClause)) >>=
        fun t => attachPresent root t) 0 represented _ fun _ => True :=
    Represents.bind (represents_parseWith hwith) fun _ _ =>
      Represents.bind (represents_parseSelect _ targets targetList) fun t₁ _ =>
      Represents.bind (represents_clause t₁ (represents_parseOrderBy sortClause)) fun t₂ _ =>
      Represents.bind (represents_clause t₂ (represents_parseHaving hhaving)) fun t₃ _ =>
      Represents.bind (represents_clause t₃ (represents_parseGroupBy groupClause)) fun t₄ _ =>
      Represents.bind (represents_clause t₄ (represents_parseWhere hwhere)) fun t₅ _ =>
      represents_clause t₅ (represents_parseFrom hfrom)
  have hall := (hclauses ((eraseAll groupClause).isEmpty &&
    anyAggregate ((eraseAll targetList).map targetValue))).more (e := ⟨unread true, unread false, unreadKept = true⟩) hkept hown
  simp only [bind_assoc] at hall
  refine hall.demand ?_
  ext1
  · simp only [demandOf, demandOfAll, clauseDemand, optionalCondition, plain, demands, unread,
      Demand.asked_add, if_true, ← Multiset.coe_add]
    abel
  · simp only [demandOf, demandOfAll, clauseDemand, optionalCondition, plain, demands, unread,
      Demand.own_add, Bool.false_eq_true, if_false, Multiset.coe_nil, ← Multiset.coe_add]
    abel
  · simp only [demandOf, demandOfAll, clauseDemand, optionalCondition, plain, keepsStatement,
      unreadKept, Demand.kept_add, Bool.and_eq_true, true_and]
    apply propext
    constructor
    · rintro ⟨⟨hctes, htargets, hsorts, hhave, hgroups, hcond, hitems⟩, hunread⟩
      exact ⟨⟨⟨⟨⟨⟨⟨hunread, hctes⟩, htargets⟩, hsorts⟩, hgroups⟩, hhave⟩, hcond⟩, hitems⟩
    · rintro ⟨⟨⟨⟨⟨⟨⟨hunread, hctes⟩, htargets⟩, hsorts⟩, hgroups⟩, hhave⟩, hcond⟩, hitems⟩
      exact ⟨⟨hctes, htargets, hsorts, hhave, hgroups, hcond, hitems⟩, hunread⟩

private theorem statement_of_crash {n : AstNode} (h : parseSelectStatement (erase n) = crash) :
    StatementRepresents n := by
  rw [StatementRepresents, h]
  exact .crash

/-- FROM items of other kinds are skipped. -/
private theorem fromItem_of_skip {n : AstNode} (h : parseFromItem (erase n) = pure none)
    (hkeeps : keepsFromItem n = isPlain [n]) : FromItemRepresents n := by
  have hdemand : demandOf n (keepsFromItem n) = plain [n] := by
    ext1 <;> simp [demandOf, plain, allDemands, hkeeps]
  rw [FromItemRepresents, hdemand, h]
  refine Represents.passedOver (fun s r s' hr => ?_) isPlain_iff own_eq_zero
  obtain ⟨rfl, rfl⟩ := Prod.mk.inj (pure_eq_some.mp hr)
  exact ⟨rfl, rfl, trivial⟩

/-- What each node becomes, in the places where the parser reads it. -/
private structure NodeRepresents (n : AstNode) : Prop where
  condition : ConditionRepresents n := by exact represents_condition {}
  statement : StatementRepresents n := by
    exact statement_of_crash (by simp [erase, parseSelectStatement])
  fromItem : FromItemRepresents n := by
    exact fromItem_of_skip (by simp [erase, parseFromItem]) (by simp [keepsFromItem])
  operand : ∀ type testexpr operName subselect, n = .subLink type testexpr operName subselect →
    StatementRepresents subselect := by rintro _ _ _ _ ⟨⟩
  query : ∀ name cols query, n = .commonTableExpr name cols query → StatementRepresents query := by
    rintro _ _ _ ⟨⟩

private theorem nodeRepresents (n : AstNode) : NodeRepresents n := by
  induction n using AstNode.ind with
  | aExpr kind name lexpr rexpr _ ihr =>
    refine { condition := represents_condition { right := fun _ _ _ _ heq => ?_ } }
    obtain ⟨-, -, -, rfl⟩ := AstNode.aExpr.inj heq
    exact ihr.operand
  | boolExpr op args ih =>
    refine { condition := represents_condition { args := fun _ _ heq m hm => ?_ } }
    obtain ⟨-, rfl⟩ := AstNode.boolExpr.inj heq
    exact (ih m hm).condition
  | subLink type testexpr operName subselect _ ihs =>
    have hsub : ∀ type' testexpr' operName' subselect',
        AstNode.subLink type testexpr operName subselect = .subLink type' testexpr' operName' subselect' →
          StatementRepresents subselect' := by
      intro type' testexpr' operName' subselect' heq
      obtain ⟨-, -, -, rfl⟩ := AstNode.subLink.inj heq
      exact ihs.statement
    exact { condition := represents_condition { sub := hsub }, operand := hsub }
  | rangeVar relname a =>
    refine { fromItem := ?_ }
    intro s r s' h
    simp only [erase, parseFromItem, bind_eq_some, pure_eq_some, Prod.mk.injEq] at h
    obtain ⟨t, s₁, ht, rfl, rfl⟩ := h
    obtain ⟨ht, hs⟩ := relationOf_eq_some ht
    have hresult : allRepresented (some t).toList = 0 := by simp [allRepresented, ht]
    refine ⟨trivial, [], 0, by simp [hs], ?_, ?_, fun _ => hresult⟩
    · exact congrArg (· + allRepresented [] + 0) hresult
    · simp [demandOf, keepsFromItem, isPlain, allDemands, demands]
  | rangeSubselect subquery a ih => exact { fromItem := represents_rangeSubselect ih.statement }
  | joinExpr type natural larg rarg usings quals a _ _ ihq =>
    exact { fromItem := represents_joinExpr fun _ => ihq.condition }
  | commonTableExpr name cols query ih =>
    refine { query := ?_ }
    intro name' cols' query' heq
    obtain ⟨-, -, rfl⟩ := AstNode.commonTableExpr.inj heq
    exact ih.statement
  | selectStmt distinctClause targetList fromClause whereClause groupClause havingClause windowClause
      valuesLists sortClause limitOffset limitCount withClause op larg rarg _ _ ihf ihw _ ihh _ _ _ _
      _ ihwith =>
    have hfrom := fun n hn => (ihf n hn).fromItem
    have hwith := fun name cols query hq => (ihwith (.commonTableExpr name cols query) hq).query _ _ _ rfl
    exact { statement := represents_selectStmt hfrom (fun _ => ihw.condition)
              (fun _ => ihh.condition) hwith }
  | _ => exact {}

private def selectStar (fromClause : List AstNode) (whereClause limitCount : AstNode) : AstNode :=
  .selectStmt [] [.resTarget "" (.columnRef ["*"])] fromClause whereClause [] .nullptr [] [] []
    .nullptr limitCount [] .none .nullptr .nullptr

/-- `select * from r where r.a = 1 and r.b is null`. -/
def conjunction : AstNode :=
  selectStar [.rangeVar "r" none] (.boolExpr .and
    [.aExpr .op "=" (.columnRef ["r", "a"]) (.aConst (.integer 1)),
      .nullTest (.columnRef ["r", "b"]) .isNull]) .nullptr

/-- `select * from r where r.a = 1 and r.b limit 1`. -/
def booleanColumn : AstNode :=
  selectStar [.rangeVar "r" none] (.boolExpr .and
    [.aExpr .op "=" (.columnRef ["r", "a"]) (.aConst (.integer 1)), .columnRef ["r", "b"]])
    (.aConst (.integer 1))

end SqlOptimizer.Parse.KeptStatements
