import SqlOptimizer.Parse.Represented

/-!
The parser only moves forward through the addresses, so the root of a parsed block or FROM item
is a new object.
-/

set_option autoImplicit false
set_option relaxedAutoImplicit false

namespace SqlOptimizer.Parse.FreshRoots

open Algebra.RelationalAlgebra
open Tree.Frames
open PgQuery Builder ParseSqlToRa Represented

variable {α β : Type}

/-- The action gives no address a second time. -/
def Grows (x : Parser α) : Prop := ∀ s a s', x s = some (a, s') → s.nextId ≤ s'.nextId

namespace Grows

theorem pure (a : α) : Grows (pure a : Parser α) := by
  intro s b s' h
  obtain ⟨-, rfl⟩ := Prod.mk.inj (pure_eq_some.mp h)
  exact le_rfl

theorem crash : Grows (crash : Parser α) := fun _ _ _ h => by cases h

theorem bind {x : Parser α} {f : α → Parser β} (hx : Grows x) (hf : ∀ a, Grows (f a)) :
    Grows (x >>= f) := by
  intro s b s' h
  obtain ⟨a, s₁, ha, hb⟩ := bind_eq_some.mp h
  exact (hx _ _ _ ha).trans (hf a _ _ _ hb)

theorem newId : Grows newId := by
  intro s a s' h
  obtain ⟨-, rfl⟩ := Prod.mk.inj (newId_eq_some.mp h)
  exact Nat.le_succ _

theorem nextMarker : Grows nextMarker := by
  intro s a s' h
  obtain ⟨-, rfl⟩ := Prod.mk.inj (nextMarker_eq_some.mp h)
  exact le_rfl

theorem pushCte (cte : RaNode) : Grows (pushCte cte) := by
  intro s a s' h
  obtain ⟨-, rfl⟩ := Prod.mk.inj (pushCte_eq_some.mp h)
  exact le_rfl

theorem ofOption (o : Option α) : Grows (ofOption o) := by
  intro s a s' h
  exact (ofOption_eq_some.mp h).2 ▸ le_rfl

/-- An action that does not touch the state. -/
theorem of_inPlace {x : Parser α} (h : ∀ s a s', x s = some (a, s') → s' = s) : Grows x :=
  fun s a s' hx => h s a s' hx ▸ le_rfl

theorem attachTo (base sub : RaNode) : Grows (attachTo base sub) :=
  of_inPlace fun _ _ _ h => (attachTo_eq_some.mp h).2

theorem attachPresent (base sub : RaNode) : Grows (attachPresent base sub) := by
  unfold Builder.attachPresent
  split
  · exact pure base
  · exact attachTo base sub

end Grows

/-- What is parsed for an AST node, by its place in the statement. -/
private structure NodeGrows (n : PgNode) : Prop where
  statement : Grows (parseSelectStatement n)
  subselect : Grows (parseSubselect n)
  condition : ∀ sel negated, Grows (parseWhereExpression n sel negated)
  fromItem : Grows (parseFromItem n)
  cte : Grows (parseCte n)

private theorem grows_expression (n : PgNode) : Grows (parseExpression n) :=
  .of_inPlace (inPlace n).expression

private theorem grows_items (n : PgNode) : Grows (parseItems n) := .of_inPlace (inPlace n).items

private theorem grows_expressions (ns : List PgNode) : Grows (parseExpressions ns) :=
  .of_inPlace fun _ _ _ h => inPlace_parseExpressions (fun n _ => inPlace n) h

private theorem grows_subqueryJoin (subselect : PgNode) (types : JoinType × JoinType)
    {subquery : Parser RaNode} {probe : Parser Expr} (hsubquery : Grows subquery)
    (hprobe : Grows probe) : Grows (subqueryJoin subselect types subquery probe) :=
  .bind .nextMarker fun _ => .bind (.ofOption _) fun _ => .bind .newId fun _ =>
    .bind hsubquery fun _ => .bind hprobe fun _ => .pure _

private theorem grows_operand {n : PgNode} (hn : Grows (parseSubselect n)) :
    Grows (operand n (parseSubselect n) (parseExpression n)) := by
  have hexpression : Grows (do
      let e ← parseExpression n
      return (e, RaNode.hole)) := .bind (grows_expression n) fun _ => .pure _
  cases n with
  | subLink type testexpr subselect => exact grows_subqueryJoin _ _ hn (.pure _)
  | _ => exact hexpression

private theorem grows_rightOperand {n : PgNode} (hn : Grows (parseSubselect n)) :
    Grows (rightOperand n (parseSubselect n) (parseItems n) (parseExpression n)) := by
  cases n with
  | list items => exact .bind (grows_items _) fun _ => .pure _
  | _ => exact grows_operand hn

private theorem grows_comparison (operator : String) (sel : RaNode)
    {left right : Parser (Expr × RaNode)} (hleft : Grows left) (hright : Grows right) :
    Grows (comparison operator sel left right) :=
  .bind hleft fun _ => .bind (.attachPresent _ _) fun _ => .bind hright fun _ =>
    .bind (.attachPresent _ _) fun _ => .bind (.attachPresent _ _) fun _ => .pure _

private theorem grows_sublinkJoin (type : SubLinkType) (testexpr : PgNode) {subselect : PgNode}
    (negated : Bool) (h : Grows (parseSelectStatement subselect)) :
    Grows (sublinkJoin type subselect negated (parseSelectStatement subselect)
      (parseExpression testexpr)) := by
  cases type with
  | «exists» => exact grows_subqueryJoin _ _ h (.pure _)
  | any =>
    refine grows_subqueryJoin _ _ h ?_
    exact .bind (grows_expression testexpr) fun _ => .pure _
  | expr => exact .crash
  | other => exact .crash

private theorem grows_parseWhereArgs {ns : List PgNode}
    (ih : ∀ n ∈ ns, ∀ sel negated, Grows (parseWhereExpression n sel negated)) (sel : RaNode)
    (negated : Bool) : Grows (parseWhereArgs ns sel negated) := by
  induction ns generalizing sel with
  | nil => exact .pure _
  | cons n ns ihns =>
    rw [List.forall_mem_cons] at ih
    rw [parseWhereArgs]
    exact .bind (ih.1 sel negated) fun r => .bind (ihns ih.2 r.2) fun _ => .pure _

private theorem grows_parseWith {ns : List PgNode} (ih : ∀ n ∈ ns, Grows (parseCte n)) :
    Grows (parseWith ns) := by
  induction ns with
  | nil => exact .pure _
  | cons n ns ihns =>
    rw [List.forall_mem_cons] at ih
    rw [parseWith]
    exact .bind ih.1 fun _ => .bind (.pushCte _) fun _ => ihns ih.2

private theorem grows_parseFromItems {ns : List PgNode} (ih : ∀ n ∈ ns, Grows (parseFromItem n)) :
    Grows (parseFromItems ns) := by
  induction ns with
  | nil => exact .pure _
  | cons n ns ihns =>
    rw [List.forall_mem_cons] at ih
    rw [parseFromItems]
    exact .bind ih.1 fun _ => .bind (ihns ih.2) fun _ => .pure _

private theorem grows_addRelations (base : RaNode) (rs : List RaNode) :
    Grows (addRelations base rs) := by
  fun_induction addRelations base rs with
  | case1 base => exact .pure base
  | case2 base r => exact .attachTo base r
  | case3 base r r' => exact .bind (.attachTo base r) fun base => .attachTo base r'
  | case4 base r rs _ _ ih =>
    exact .bind (.attachTo base r) fun base => .bind .newId fun _ => .bind (.attachTo base _) ih

private theorem grows_parseFrom (isEmpty : Bool) {relations : Parser (List RaNode)}
    (h : Grows relations) : Grows (parseFrom isEmpty relations) := by
  unfold parseFrom
  split
  · exact .bind .newId fun _ => .pure _
  · refine .bind h fun rs => ?_
    split
    · exact .pure _
    · exact .bind .newId fun _ => grows_addRelations _ _

private theorem grows_parseSelect (distinct implicitGroupBy : Bool) (ns : List PgNode) :
    Grows (parseSelect distinct implicitGroupBy (parseTargets ns)) := by
  refine .bind .newId fun _ => .bind (.of_inPlace (parseTargets_inPlace ns)) fun _ => ?_
  dsimp only
  split
  · exact .bind .newId fun _ => .attachTo _ _
  · exact .pure _

private theorem grows_parseOrderBy (isEmpty : Bool) (ns : List PgNode) :
    Grows (parseOrderBy isEmpty (parseSorts ns)) := by
  unfold parseOrderBy
  split
  · exact .pure _
  · exact .bind .newId fun _ => .bind (.of_inPlace (parseSorts_inPlace ns)) fun _ => .pure _

private theorem grows_parseGroupBy (isEmpty : Bool) (ns : List PgNode) :
    Grows (parseGroupBy isEmpty (parseExpressions ns)) := by
  unfold parseGroupBy
  split
  · exact .pure _
  · exact .bind .newId fun _ => .bind (grows_expressions ns) fun _ => .pure _

private theorem grows_parseHaving {isNull : Bool} {condition : RaNode → Parser (Expr × RaNode)}
    (h : ∀ sel, Grows (condition sel)) : Grows (parseHaving isNull condition) := by
  unfold parseHaving
  split
  · exact .pure _
  · exact .bind .newId fun _ => .bind (h _) fun _ => .pure _

private theorem grows_parseWhere {isNull : Bool} {condition : RaNode → Parser (Expr × RaNode)}
    (h : ∀ sel, Grows (condition sel)) : Grows (parseWhere isNull condition) := by
  unfold parseWhere
  split
  · exact .pure _
  · refine .bind .newId fun _ => .bind (h _) fun r => ?_
    dsimp only
    split
    · exact .pure _
    · exact .ofOption _

/-- The condition of a join. -/
private theorem grows_quals {quals : PgNode}
    (h : Grows (parseWhereExpression quals .hole false)) :
    Grows (orNull quals do
      let (p, _) ← parseWhereExpression quals .hole false
      return p) := by
  unfold orNull
  split
  · exact .pure _
  · exact .bind h fun _ => .pure _

private theorem nodeGrows (n : PgNode) : NodeGrows n := by
  -- a node that is no statement, no FROM item and no CTE
  have hplain {n : PgNode} (hstatement : parseSelectStatement n = crash)
      (hsubselect : parseSubselect n = crash) (hitem : parseFromItem n = pure none)
      (hcte : parseCte n = crash)
      (hcondition : ∀ sel negated, Grows (parseWhereExpression n sel negated)) : NodeGrows n :=
    ⟨hstatement ▸ .crash, hsubselect ▸ .crash, hcondition, hitem ▸ .pure _, hcte ▸ .crash⟩
  induction n using PgNode.ind with
  | nullptr =>
    refine hplain ?_ ?_ ?_ ?_ fun sel negated => ?_
    all_goals simp only [parseSelectStatement, parseSubselect, parseFromItem, parseCte,
      parseWhereExpression]
    exact .crash
  | aExpr kind name lexpr rexpr ihl ihr =>
    refine hplain ?_ ?_ ?_ ?_ fun sel negated => ?_
    all_goals simp only [parseSelectStatement, parseSubselect, parseFromItem, parseCte,
      parseWhereExpression]
    split
    · exact .bind (grows_expression lexpr) fun _ => .bind (grows_items rexpr) fun _ => .pure _
    · exact grows_comparison _ _ (grows_operand ihl.subselect) (grows_rightOperand ihr.subselect)
  | boolExpr op args ih =>
    refine hplain ?_ ?_ ?_ ?_ fun sel negated => ?_
    all_goals simp only [parseSelectStatement, parseSubselect, parseFromItem, parseCte,
      parseWhereExpression]
    exact .bind (grows_parseWhereArgs (fun n hn => (ih n hn).condition) _ _) fun _ => .pure _
  | nullTest arg type ih =>
    refine hplain ?_ ?_ ?_ ?_ fun sel negated => ?_
    all_goals simp only [parseSelectStatement, parseSubselect, parseFromItem, parseCte,
      parseWhereExpression]
    exact .bind (grows_expression arg) fun _ => .pure _
  | subLink type testexpr subselect iht ihs =>
    refine ⟨?_, ?_, fun sel negated => ?_, ?_, ?_⟩
    · exact .crash
    · rw [parseSubselect]
      exact ihs.statement
    · rw [parseWhereExpression]
      exact .bind (grows_sublinkJoin type testexpr negated ihs.statement) fun _ =>
        .bind (.attachTo _ _) fun _ => .pure _
    · exact .pure _
    · exact .crash
  | rangeVar relname a =>
    refine ⟨.crash, .crash, fun sel negated => .pure _, ?_, .crash⟩
    rw [parseFromItem]
    exact .bind (.bind .newId fun _ => .pure _) fun _ => .pure _
  | rangeSubselect subquery a ih =>
    refine ⟨.crash, .crash, fun sel negated => .pure _, ?_, .crash⟩
    rw [parseFromItem]
    exact .bind (.bind ih.statement fun _ => .bind (.ofOption _) fun _ => .pure _) fun _ => .pure _
  | joinExpr type larg rarg quals a ihl ihr ihq =>
    refine ⟨.crash, .crash, fun sel negated => .pure _, ?_, .crash⟩
    rw [parseFromItem]
    refine .bind ?_ fun _ => .pure _
    have hquals := grows_quals (ihq.condition .hole false)
    unfold parseFromJoin
    split
    · refine .bind (.ofOption _) fun _ => .bind .newId fun _ => ?_
      refine .bind (.bind .newId fun _ => .pure _) fun _ => ?_
      exact .bind (.bind .newId fun _ => .pure _) fun _ => .bind hquals fun _ => .pure _
    · exact .crash
  | commonTableExpr name cols query ih =>
    refine ⟨.crash, .crash, fun sel negated => .pure _, .pure _, ?_⟩
    rw [parseCte]
    exact .bind ih.statement fun _ => .pure _
  | selectStmt distinct targetList fromClause whereClause groupClause havingClause sortClause
      withClause _ ihf ihw _ ihh _ ihwith =>
    refine ⟨?_, .crash, fun sel negated => .pure _, .pure _, .crash⟩
    rw [parseSelectStatement]
    refine .bind (grows_parseWith fun n hn => (ihwith n hn).cte) fun _ => ?_
    refine .bind (grows_parseSelect _ _ _) fun _ => .bind (grows_parseOrderBy _ _) fun _ => ?_
    refine .bind (.attachPresent _ _) fun _ => ?_
    refine .bind (grows_parseHaving fun sel => ihh.condition sel false) fun _ => ?_
    refine .bind (.attachPresent _ _) fun _ => .bind (grows_parseGroupBy _ _) fun _ => ?_
    refine .bind (.attachPresent _ _) fun _ => ?_
    refine .bind (grows_parseWhere fun sel => ihw.condition sel false) fun _ => ?_
    refine .bind (.attachPresent _ _) fun _ => ?_
    refine .bind (grows_parseFrom _ (grows_parseFromItems fun n hn => (ihf n hn).fromItem)) ?_
    exact fun _ => .attachPresent _ _
  | _ =>
    refine hplain ?_ ?_ ?_ ?_ fun sel negated => ?_
    all_goals simp only [parseSelectStatement, parseSubselect, parseFromItem, parseCte,
      parseWhereExpression]
    exact .pure _

/-- The FROM items of a clause get new addresses. -/
theorem grows_fromItem (n : PgNode) : Grows (parseFromItem n) := (nodeGrows n).fromItem

/-- A subtree that is added leaves the root in its place. -/
theorem addSubtree_unary {i : Nat} {op : UnaryOp} {c sub t : RaNode}
    (h : addSubtree (.unary i op c) sub = some t) : ∃ c', t = .unary i op c' := by
  have hfind (hc : c ≠ .hole) : findEmptyLeaf (.unary i op c) =
      (findEmptyLeaf c).map fun r => (r.1 ++ [.unary i op], r.2) := by
    cases c <;> first | rfl | exact absurd rfl hc
  by_cases hc : c = .hole
  · subst hc
    have hleaf : findEmptyLeaf (.unary i op .hole) = some ([], .unary i op .hole) := rfl
    obtain ⟨-, -, rfl⟩ := (addSubtree_eq_some hleaf).mp h
    exact ⟨sub, rfl⟩
  · cases hleaf : findEmptyLeaf c with
    | none => simp [addSubtree, hfind hc, hleaf] at h
    | some r =>
      rw [hleaf, Option.map_some] at hfind
      obtain ⟨-, -, rfl⟩ := (addSubtree_eq_some (hfind hc)).mp h
      exact ⟨plug r.1 (insertChild sub r.2), by simp [Frame.plug]⟩

theorem attachPresent_projection {i : Nat} {pr : Projection} {c sub t : RaNode}
    {s s' : ParserState} (h : attachPresent (.projection i pr c) sub s = some (t, s')) :
    (∃ c', t = .projection i pr c') ∧ s' = s := by
  unfold attachPresent at h
  split at h
  · obtain ⟨rfl, rfl⟩ := Prod.mk.inj (pure_eq_some.mp h)
    exact ⟨⟨c, rfl⟩, rfl⟩
  · obtain ⟨hadd, rfl⟩ := attachTo_eq_some.mp h
    exact ⟨addSubtree_unary hadd, rfl⟩

private theorem parseSelect_root {distinct implicitGroupBy : Bool} {ns : List PgNode} {t : RaNode}
    {s s' : ParserState}
    (h : parseSelect distinct implicitGroupBy (parseTargets ns) s = some (t, s')) :
    ∃ pr c, t = .projection s.nextId pr c ∧ s.nextId < s'.nextId := by
  obtain ⟨i, s₁, hi, h⟩ := bind_eq_some.mp h
  obtain ⟨rfl, rfl⟩ := Prod.mk.inj (newId_eq_some.mp hi)
  obtain ⟨args, s₂, hargs, h⟩ := bind_eq_some.mp h
  obtain rfl := parseTargets_inPlace ns _ _ _ hargs
  split at h
  · obtain ⟨j, s₃, hj, h⟩ := bind_eq_some.mp h
    obtain ⟨rfl, rfl⟩ := Prod.mk.inj (newId_eq_some.mp hj)
    obtain ⟨hadd, rfl⟩ := attachTo_eq_some.mp h
    obtain ⟨c, rfl⟩ := addSubtree_unary hadd
    refine ⟨_, c, rfl, ?_⟩
    show s.nextId < s.nextId + 1 + 1
    omega
  · obtain ⟨rfl, rfl⟩ := Prod.mk.inj (pure_eq_some.mp h)
    exact ⟨_, _, rfl, Nat.lt_succ_self _⟩

/-- A statement becomes a new projection. -/
theorem parseSelectStatement_root {n : PgNode} {t : RaNode} {s s' : ParserState}
    (h : parseSelectStatement n s = some (t, s')) :
    ∃ i pr c, t = .projection i pr c ∧ s.nextId ≤ i ∧ i < s'.nextId := by
  cases n with
  | selectStmt distinct targetList fromClause whereClause groupClause havingClause sortClause
      withClause =>
    simp only [parseSelectStatement, bind_eq_some] at h
    obtain ⟨_, s₁, hwith, root, s₂, hroot, sort, s₃, hsort, root₁, s₄, hroot₁, having, s₅, hhaving,
      root₂, s₆, hroot₂, groupBy, s₇, hgroupBy, root₃, s₈, hroot₃, sel, s₉, hsel, root₄, s₁₀,
      hroot₄, cross, s₁₁, hcross, h⟩ := h
    obtain ⟨pr, c, rfl, hlt⟩ := parseSelect_root hroot
    obtain ⟨⟨c₁, rfl⟩, rfl⟩ := attachPresent_projection hroot₁
    obtain ⟨⟨c₂, rfl⟩, rfl⟩ := attachPresent_projection hroot₂
    obtain ⟨⟨c₃, rfl⟩, rfl⟩ := attachPresent_projection hroot₃
    obtain ⟨⟨c₄, rfl⟩, rfl⟩ := attachPresent_projection hroot₄
    obtain ⟨⟨c₅, rfl⟩, rfl⟩ := attachPresent_projection h
    have h₁ := grows_parseWith (fun n _ => (nodeGrows n).cte) _ _ _ hwith
    have h₃ := grows_parseOrderBy _ _ _ _ _ hsort
    have h₅ := grows_parseHaving (fun sel => (nodeGrows _).condition sel false) _ _ _ hhaving
    have h₇ := grows_parseGroupBy _ _ _ _ _ hgroupBy
    have h₉ := grows_parseWhere (fun sel => (nodeGrows _).condition sel false) _ _ _ hsel
    have h₁₁ :=
      grows_parseFrom _ (grows_parseFromItems fun n _ => (nodeGrows n).fromItem) _ _ _ hcross
    exact ⟨_, pr, c₅, rfl, h₁, by omega⟩
  | _ =>
    rw [parseSelectStatement] at h
    · cases h
    all_goals simp

/-- A FROM item: a relation, a join of two relations or a derived table. -/
inductive IsFromItem : RaNode → Prop
  | relation (i : Nat) (name aliasName : String) : IsFromItem (.relation i name aliasName)
  | derived (i : Nat) (pr : Projection) (c : RaNode) : IsFromItem (.projection i pr c)
  | join (i : Nat) (join : Join) (l r : RaNode) (type : join.type = .inner ∨ join.type = .left)
      (marker : join.marker = 0) : IsFromItem (.join i join l r)

/-- A parsed FROM item is a new tree, or the null pointer of a correlated subquery. -/
theorem parseFromItem_root {n : PgNode} {r : RaNode} {s s' : ParserState}
    (h : parseFromItem n s = some (some r, s')) (hr : r ≠ .hole) :
    IsFromItem r ∧ ∃ i, r.id? = some i ∧ s.nextId ≤ i ∧ i < s'.nextId := by
  cases n with
  | rangeVar relname a =>
    simp only [parseFromItem, relationOf, bind_eq_some, newId_eq_some, pure_eq_some,
      Prod.mk.injEq, Option.some.injEq] at h
    obtain ⟨_, _, ⟨_, _, ⟨rfl, rfl⟩, rfl, rfl⟩, rfl, rfl⟩ := h
    exact ⟨.relation _ _ _, _, rfl, le_rfl, Nat.lt_succ_self _⟩
  | rangeSubselect subquery a =>
    simp only [parseFromItem, parseFromSubquery, bind_eq_some, ofOption_eq_some, pure_eq_some,
      Prod.mk.injEq, Option.some.injEq] at h
    obtain ⟨_, _, ⟨pr, _, hpr, correlated, _, ⟨-, rfl⟩, rfl, rfl⟩, rfl, rfl⟩ := h
    obtain ⟨i, p, c, rfl, hi⟩ := parseSelectStatement_root hpr
    split at hr
    · exact absurd rfl hr
    · next hcorrelated =>
      rw [if_neg hcorrelated]
      exact ⟨.derived _ _ _, i, rfl, hi⟩
  | joinExpr type larg rarg quals a =>
    have hquals := grows_quals ((nodeGrows quals).condition .hole false)
    simp only [parseFromItem] at h
    obtain ⟨_, s₁, hjoin, h⟩ := bind_eq_some.mp h
    obtain ⟨hr', rfl⟩ := Prod.mk.inj (pure_eq_some.mp h)
    obtain rfl := Option.some.inj hr'
    unfold parseFromJoin at hjoin
    split at hjoin
    · simp only [relationOf, bind_eq_some, ofOption_eq_some, newId_eq_some, pure_eq_some,
        Prod.mk.injEq] at hjoin
      obtain ⟨joinType, _, ⟨htype, rfl⟩, _, _, ⟨rfl, rfl⟩, _, _, ⟨_, _, ⟨rfl, rfl⟩, rfl, rfl⟩, _, _,
        ⟨_, _, ⟨rfl, rfl⟩, rfl, rfl⟩, p, _, hp, rfl, rfl⟩ := hjoin
      have hgrows := hquals _ _ _ hp
      dsimp only at hgrows
      refine ⟨.join _ _ _ _ ?_ rfl, _, rfl, le_rfl, by omega⟩
      cases type <;> simp_all [joinTypeOf]
    · cases hjoin
  | _ =>
    simp only [parseFromItem, pure_eq_some, Prod.mk.injEq] at h
    exact absurd h.1 (by simp)

end SqlOptimizer.Parse.FreshRoots
