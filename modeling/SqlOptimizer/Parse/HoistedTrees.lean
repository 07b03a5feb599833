import SqlOptimizer.Parse.ParsedTree
import SqlOptimizer.Parse.Scoping

/-!
The trees of the parser and the blocks of its statement: each CTE is a WITH query with
the relation names of its body, and each tree carries the joins of its own markers.
-/

set_option autoImplicit false
set_option relaxedAutoImplicit false

namespace SqlOptimizer.Parse.HoistedTrees

open Algebra.RelationalAlgebra
open Tree.Frames
open PgQuery Correlation Builder ParseSqlToRa Inventory Supported ParsedTree Scoping

variable {α β : Type}

def relationName : Item → Option String
  | .relation name _ => some name
  | _ => none

/-- The names of the relations among the parts. -/
def relations (p : Parts) : Multiset String := p.items.filterMap relationName

@[simp] theorem relations_zero : relations 0 = 0 := rfl

@[simp] theorem relations_add (p q : Parts) : relations (p + q) = relations p + relations q :=
  Multiset.filterMap_add _ _ _

/-- The parts have the relation names of the occurrences, and the joins of their markers. -/
structure Owns (p : Parts) (os : List Occurrence) : Prop where
  relations : relations p = ↑(os.map Occurrence.name)
  markers : p.markers = p.joinMarkers

theorem Owns.zero : Owns 0 [] := ⟨rfl, rfl⟩

theorem Owns.add {p q : Parts} {os os' : List Occurrence} (h : Owns p os) (h' : Owns q os') :
    Owns (p + q) (os ++ os') :=
  ⟨by simp [h.relations, h'.relations], by simp [h.markers, h'.markers]⟩

/-- The tree is the WITH query. -/
def IsCte (t : RaNode) (block : Block) : Prop :=
  (∃ i pr c, t = .projection i pr c ∧ pr.subqueryAlias = block.name) ∧
    Owns (parts t) block.occurrences

/-- A subtree takes an empty place. -/
theorem parts_addSubtree {base sub t : RaNode} (h : addSubtree base sub = some t) :
    parts t + parts .hole = parts base + parts sub := by
  obtain ⟨K, owner, howner, rfl, rfl⟩ := exists_plug_of_addSubtree h
  have hparts : parts (insertChild sub owner) + parts .hole = parts owner + parts sub := by
    cases howner with
    | unary i op =>
      simp only [insertChild, parts]
      abel
    | left i join r => cases r <;> simp only [insertChild, parts] <;> abel
    | right i join l => cases l <;> simp only [insertChild, parts] <;> abel
  rw [parts_plug, parts_plug, add_assoc, hparts, add_assoc]

/-- The action adds to the parts `start` what the block owns, and hoists its WITH
queries. -/
def Hoists (x : Parser α) (start : Parts) (result : α → Parts) (b : Blocks)
    (post : α → Prop) : Prop :=
  ∀ s r s', x s = some (r, s') → post r ∧ ∃ p new, result r = start + p ∧ Owns p b.own ∧
    s'.ctes = s.ctes ++ new ∧ List.Forall₂ IsCte new b.ctes

namespace Hoists

variable {start : Parts} {result : α → Parts} {a b : Blocks} {post : α → Prop}

theorem pure {r : α} (hr : result r = start) (hpost : post r) :
    Hoists (pure r) start result {} post := by
  intro s r' s' h
  obtain ⟨rfl, rfl⟩ := Prod.mk.inj (pure_eq_some.mp h)
  exact ⟨hpost, 0, [], by simp [hr], .zero, by simp, .nil⟩

/-- Two actions after each other. -/
theorem bind {x : Parser α} {f : α → Parser β} {result' : β → Parts} {post' : β → Prop}
    (hx : Hoists x start result a post)
    (hf : ∀ r, post r → Hoists (f r) (result r) result' b post') :
    Hoists (x >>= f) start result' ⟨a.ctes ++ b.ctes, a.own ++ b.own⟩ post' := by
  intro s r s' h
  obtain ⟨r₁, s₁, h₁, h₂⟩ := bind_eq_some.mp h
  obtain ⟨hpost, p, new, hp, howns, hnew, hctes⟩ := hx s r₁ s₁ h₁
  obtain ⟨hpost', q, new', hq, howns', hnew', hctes'⟩ := hf r₁ hpost s₁ r s' h₂
  refine ⟨hpost', p + q, new ++ new', ?_, howns.add howns', by simp [hnew, hnew'],
    List.rel_append hctes hctes'⟩
  rw [hq, hp, add_assoc]

/-- An action that hoists nothing, before another one. -/
theorem bind_plain {x : Parser α} {f : α → Parser β} {result' : β → Parts} {post' : β → Prop}
    (hx : Hoists x start result {} post)
    (hf : ∀ r, post r → Hoists (f r) (result r) result' b post') :
    Hoists (x >>= f) start result' b post' := hx.bind hf

/-- An action that hoists nothing, after another one. -/
theorem then_plain {x : Parser α} {f : α → Parser β} {result' : β → Parts} {post' : β → Prop}
    (hx : Hoists x start result b post)
    (hf : ∀ r, post r → Hoists (f r) (result r) result' {} post') :
    Hoists (x >>= f) start result' b post' := by
  have h := hx.bind hf
  simpa using h

theorem mono {x : Parser α} {post' : α → Prop} (h : Hoists x start result b post)
    (hpost : ∀ r, post r → post' r) : Hoists x start result b post' := fun s r s' hr =>
  (h s r s' hr).imp_left (hpost r)

/-- Parts that the action leaves alone. -/
theorem frame {x : Parser α} (C : Parts) (h : Hoists x start result b post) :
    Hoists x (start + C) (fun r => result r + C) b post := by
  intro s r s' hr
  obtain ⟨hpost, p, new, hp, howns, hnew⟩ := h s r s' hr
  exact ⟨hpost, p, new, by simp only [hp, add_right_comm], howns, hnew⟩

theorem unframe {x : Parser α} (C : Parts)
    (h : Hoists x (start + C) (fun r => result r + C) b post) : Hoists x start result b post := by
  intro s r s' hr
  obtain ⟨hpost, p, new, hp, howns, hnew⟩ := h s r s' hr
  exact ⟨hpost, p, new, add_right_cancel (hp.trans (add_right_comm _ _ _)), howns, hnew⟩

/-- The same parts in another order. -/
theorem parts {x : Parser α} {start' : Parts} {result' : α → Parts}
    (h : Hoists x start result b post) (hstart : start = start')
    (hresult : ∀ r, result r = result' r) : Hoists x start' result' b post := by
  rw [← hstart, ← funext hresult]
  exact h

/-- Parts that are no relation and no marker do not count. -/
theorem owning {x : Parser α} {q : Parts} (h : Hoists x start result b post)
    (hq : Owns q []) : Hoists x start (fun r => result r + q) b post := by
  intro s r s' hr
  obtain ⟨hpost, p, new, hp, howns, hnew⟩ := h s r s' hr
  refine ⟨hpost, p + q, new, by simp only [hp, add_assoc], ?_, hnew⟩
  simpa using howns.add hq

theorem newId (start : Parts) :
    Hoists newId start (fun i => start + { ids := {i} }) {} fun _ => True := by
  intro s r s' h
  obtain ⟨rfl, rfl⟩ := Prod.mk.inj (newId_eq_some.mp h)
  exact ⟨trivial, { ids := {s.nextId} }, [], rfl, ⟨rfl, rfl⟩, by simp, .nil⟩

theorem ofOption (o : Option α) (start : Parts) :
    Hoists (ofOption o) start (fun _ => start) {} fun r => o = some r := by
  intro s r s' h
  obtain ⟨ho, hs⟩ := ofOption_eq_some.mp h
  simp only at ho hs
  subst hs
  exact ⟨ho, 0, [], by simp, .zero, by simp, .nil⟩

theorem crash : Hoists (crash : Parser α) start result b post := fun _ _ _ h => nomatch h

theorem attachTo (base sub : RaNode) :
    Hoists (attachTo base sub) (Inventory.parts base + Inventory.parts sub)
      (fun t => Inventory.parts t + Inventory.parts .hole) {} fun t => SameRoot base t := by
  intro s t s' h
  obtain ⟨hadd, rfl⟩ := attachTo_eq_some.mp h
  refine ⟨?_, 0, [], by simp only [parts_addSubtree hadd, add_zero], .zero, by simp, .nil⟩
  rintro i op c rfl
  cases hleaf : findEmptyLeaf (.unary i op c) with
  | none => simp [addSubtree, hleaf] at hadd
  | some r =>
    obtain ⟨-, -, rfl⟩ := (addSubtree_eq_some hleaf).mp hadd
    cases c with
    | hole =>
      cases hleaf
      exact ⟨sub, rfl⟩
    | _ =>
      obtain ⟨p, -, hr⟩ := Option.map_eq_some_iff.mp hleaf
      subst hr
      exact ⟨_, by simp [Frame.plug]; rfl⟩

theorem attachPresent (base sub : RaNode) :
    Hoists (attachPresent base sub) (Inventory.parts base + Inventory.parts sub)
      (fun t => Inventory.parts t + Inventory.parts .hole) {} fun t => SameRoot base t := by
  cases sub with
  | hole => exact .pure rfl fun i op c h => ⟨c, h⟩
  | _ => exact attachTo base _

end Hoists

/-- What a statement becomes. -/
def StatementHoists (n : PgNode) : Prop :=
  ∀ sc k, Hoists (parseSelectStatement n) 0 parts (blocks n sc k)
    fun t => ∃ i pr c, t = .projection i pr c

/-- A condition adds the joins of its subqueries. -/
def ConditionHoists (n : PgNode) : Prop :=
  ∀ sc k sel negated, Hoists (parseWhereExpression n sel negated) (parts sel)
    (fun r => parts r.2 + exprParts r.1) (blocks n sc k)
    fun r => r.1.isPresent = true ∧ SameRoot sel r.2

/-- Expressions hold no relations. -/
theorem blocks_expression {n : PgNode} (h : (n.isNull || isExpression n) = true) (sc : Scope)
    (k : Nat) : blocks n sc k = {} := by
  induction n using PgNode.ind generalizing k with
  | aExpr kind name lexpr rexpr ihl ihr =>
    simp only [PgNode.isNull, Bool.false_or, isExpression, Bool.and_eq_true] at h
    rw [blocks, seq, ihl h.1, ihr h.2]
    rfl
  | boolExpr => cases h
  | subLink => cases h
  | rangeVar => cases h
  | rangeSubselect => cases h
  | joinExpr => cases h
  | selectStmt => cases h
  | _ => rfl

/-- A marked join without its children, and its marker in the predicate. -/
private def markedJoinParts (i : Nat) (join : Join) : Parts where
  ids := {i}
  joinMarkers := {join.marker}
  markers := {join.marker}
  items := joinItems join

private theorem parts_markedJoin {i : Nat} {join : Join} {pr : RaNode} (hmarker : 0 < join.marker)
    (hpred : markers join.predicate = []) :
    Owns (markedJoinParts i join) [] ∧
      parts (.join i join .hole pr) + exprParts (rightMarker join) =
        parts .hole + (markedJoinParts i join + parts pr) := by
  refine ⟨⟨?_, rfl⟩, ?_⟩
  · have hitems : joinItems join = [.subquery (sublinkType join.type)] := by
      simp [joinItems, hmarker]
    simp only [relations, markedJoinParts, hitems]
    rfl
  · have hnode : nodeParts i [join.predicate] (joinItems join) + markerParts join +
        exprParts (rightMarker join) = markedJoinParts i join := by
      apply Parts.ext <;>
        simp [nodeParts, markerParts, exprParts, markedJoinParts, rightMarker, markers, allMarkers,
          hmarker, hpred]
    rw [← hnode]
    simp only [parts]
    abel

/-- A WHERE subquery becomes a marked join. -/
private theorem hoists_subqueryJoin {subselect : PgNode} (types : JoinType × JoinType) {probe : Expr}
    (hsub : StatementHoists subselect) (hprobe : markers probe = []) (sc : Scope) (k : Nat) :
    Hoists (subqueryJoin subselect types (parseSelectStatement subselect) (pure probe))
      (parts .hole) (fun r => parts r.2 + exprParts r.1) (blocks subselect sc k)
      fun r => r.1.isPresent = true ∧ r.2 ≠ .hole := by
  rintro s ⟨e, t⟩ s' h
  simp only [subqueryJoin, bind_eq_some, nextMarker_eq_some, ofOption_eq_some, newId_eq_some,
    pure_eq_some, Prod.mk.injEq] at h
  obtain ⟨m, _, ⟨rfl, rfl⟩, correlated, _, ⟨-, rfl⟩, i, _, ⟨rfl, rfl⟩, pr, s₁, hpr, predicate, _,
    ⟨rfl, rfl⟩, ⟨rfl, rfl⟩, rfl⟩ := h
  obtain ⟨-, p, new, hp, howns, hnew, hctes⟩ := hsub sc k _ _ _ hpr
  let join : Join := ⟨if correlated then types.1 else types.2, predicate, "", [], s.counter + 1⟩
  obtain ⟨hq, hparts⟩ : Owns (markedJoinParts s.nextId join) [] ∧ _ :=
    parts_markedJoin (Nat.succ_pos _) hprobe
  refine ⟨⟨rfl, by simp⟩, markedJoinParts s.nextId join + p, new, ?_, hq.add howns, hnew, hctes⟩
  rw [zero_add] at hp
  exact hp ▸ hparts

/-- The right operand of a comparison. -/
private theorem hoists_rightOperand {n : PgNode}
    (hn : (isExpression n || isItemList n || isScalarSubquery n) = true)
    (hsub : ∀ type testexpr subselect, n = .subLink type testexpr subselect →
      isSelect subselect = true → StatementHoists subselect) (sc : Scope) (k : Nat) :
    Hoists (rightOperand n (parseSubselect n) (parseItems n) (parseExpression n))
      (parts .hole) (fun r => parts r.2 + exprParts r.1) (blocks n sc k) fun _ => True := by
  rw [Bool.or_eq_true, Bool.or_eq_true] at hn
  rcases hn with (hn | hn) | hn
  · obtain ⟨e, he, hm⟩ := parseExpression_eq_pure hn
    rw [he, rightOperand_eq_pure hn, blocks_expression (by simp [hn])]
    exact .pure (by simp [exprParts_of_markers hm]) trivial
  · obtain ⟨es, hes, hm⟩ := parseItems_eq_pure hn
    have hpure : rightOperand n (parseSubselect n) (parseItems n) (parseExpression n) =
        pure (.list es, .hole) := by
      rw [hes]
      cases n <;> first | rfl | cases hn
    have hblocks : blocks n sc k = {} := by cases n <;> first | rfl | cases hn
    have hm' : markers (.list es) = [] := hm
    rw [hpure, hblocks]
    exact .pure (by simp [exprParts_of_markers hm']) trivial
  · obtain ⟨subselect, rfl⟩ := eq_subLink_of_isScalarSubquery hn
    rw [isScalarSubquery, Bool.and_eq_true] at hn
    exact (hoists_subqueryJoin scalarTypes (hsub _ _ subselect rfl hn.2) rfl sc k).mono fun _ _ => trivial

/-- A join is attached, the predicate `p` returned. -/
private theorem hoists_attachJoin (sel join : RaNode) {e p : Expr}
    (hp : exprParts p = exprParts e) (hpres : p.isPresent = true) :
    Hoists (do
        let sel ← attachPresent sel join
        pure (p, sel))
      (parts join + exprParts e + parts sel) (fun r => parts r.2 + exprParts r.1 + parts .hole) {}
      fun r => r.1.isPresent = true ∧ SameRoot sel r.2 := by
  have hatt := (Hoists.attachPresent sel join).frame (exprParts e)
  refine (Hoists.bind_plain (hatt.parts ?_ fun _ => rfl) fun t ht => .pure ?_ ⟨hpres, ht⟩)
  · abel
  · rw [hp]
    abel

/-- A comparison without a subquery on its left. -/
private theorem hoists_comparison (operator : String) {lexpr rexpr : PgNode}
    (hl : isExpression lexpr = true)
    (hr : (isExpression rexpr || isItemList rexpr || isScalarSubquery rexpr) = true)
    (hsub : ∀ type testexpr subselect, rexpr = .subLink type testexpr subselect →
      isSelect subselect = true → StatementHoists subselect) (sel : RaNode) (sc : Scope) (k : Nat) :
    Hoists (comparison operator sel (operand lexpr (parseSubselect lexpr) (parseExpression lexpr))
        (rightOperand rexpr (parseSubselect rexpr) (parseItems rexpr) (parseExpression rexpr)))
      (parts sel) (fun r => parts r.2 + exprParts r.1) (blocks rexpr sc k)
      fun r => r.1.isPresent = true ∧ SameRoot sel r.2 := by
  obtain ⟨l, hl', hml⟩ := parseExpression_eq_pure hl
  rw [hl', operand_eq_pure hl]
  simp only [comparison, pure_bind, attachPresent_hole]
  refine .unframe (parts .hole) ?_
  have hright := (hoists_rightOperand hr hsub sc k).frame (parts sel)
  refine (hright.parts (add_comm _ _) fun _ => rfl).then_plain fun r _ => ?_
  exact hoists_attachJoin _ _ (by simp [exprParts, markers, hml]) rfl

/-- EXISTS and IN subqueries. -/
private theorem hoists_whereSublink {type : SubLinkType} {testexpr subselect : PgNode}
    (htype : (type = .exists && testexpr.isNull || type = .any && isExpression testexpr) = true)
    (hsub : StatementHoists subselect) (sel : RaNode) (negated : Bool) (sc : Scope) (k : Nat) :
    Hoists (whereSublink sel (sublinkJoin type subselect negated (parseSelectStatement subselect)
        (parseExpression testexpr)))
      (parts sel) (fun r => parts r.2 + exprParts r.1) (blocks subselect sc k)
      fun r => r.1.isPresent = true ∧ SameRoot sel r.2 := by
  obtain ⟨types, probe, hjoin, hprobe⟩ : ∃ types probe,
      sublinkJoin type subselect negated (parseSelectStatement subselect)
        (parseExpression testexpr) =
          subqueryJoin subselect types (parseSelectStatement subselect) (pure probe) ∧
      markers probe = [] := by
    simp only [Bool.or_eq_true, Bool.and_eq_true, decide_eq_true_eq] at htype
    rcases htype with ⟨rfl, -⟩ | ⟨rfl, hexpr⟩
    · exact ⟨existsTypes negated, .nullptr, rfl, rfl⟩
    · obtain ⟨l, hl, hm⟩ := parseExpression_eq_pure hexpr
      exact ⟨inTypes negated, .predicate l .nullptr "", by simp [sublinkJoin, hl],
        by simp [markers, hm]⟩
  rw [hjoin]
  refine .unframe (parts .hole) ?_
  have hopen := (hoists_subqueryJoin types hsub hprobe sc k).frame (parts sel)
  refine Hoists.then_plain (hopen.parts (add_comm _ _) fun _ => rfl) fun r hr => ?_
  have hattach := hoists_attachJoin sel r.2 (p := r.1) rfl hr.1
  obtain ⟨e, t⟩ := r
  cases t with
  | hole => exact absurd rfl hr.2
  | _ => exact hattach

private theorem hoists_parseWhereArgs {ns : List PgNode} (ih : ∀ n ∈ ns, ConditionHoists n)
    (sel : RaNode) (negated : Bool) (sc : Scope) (k : Nat) :
    Hoists (parseWhereArgs ns sel negated) (parts sel)
      (fun r => parts r.2 + exprParts (.list r.1)) (allBlocks ns sc k)
      fun r => SameRoot sel r.2 := by
  induction ns generalizing sel k with
  | nil =>
    rw [parseWhereArgs]
    exact .pure (by simp [exprParts_of_markers (e := .list []) rfl]) fun i op c h => ⟨c, h⟩
  | cons n ns ihns =>
    rw [List.forall_mem_cons] at ih
    rw [parseWhereArgs]
    refine Hoists.bind (ih.1 sc k sel negated) ?_
    rintro ⟨p, sel₁⟩ ⟨hp, hroot⟩
    have hargs := (ihns ih.2 sel₁ (k + (blocks n sc k).ctes.length)).frame (exprParts p)
    refine Hoists.then_plain hargs fun r hr => .pure ?_ (hroot.trans hr)
    simp only [hp, if_true, exprParts_cons]
    abel

/-- The action of `parse_where` and of `parse_having` on a condition that is present. -/
private theorem hoists_predicateNode {n : PgNode} (hc : ConditionHoists n) {op : UnaryOp}
    (hop : op = .selection .nullptr ∨ op = .having .nullptr) (absent : RaNode → Parser RaNode)
    (sc : Scope) (k : Nat) :
    Hoists (do
        let id ← newId
        let (p, sel) ← parseWhereExpression n (.unary id op .hole) false
        if p.isPresent then return setPredicate p sel else absent sel)
      (parts .hole) parts (blocks n sc k) fun _ => True := by
  refine Hoists.bind_plain (Hoists.newId _) fun i _ => ?_
  have hparts : parts .hole + { ids := {i} } = parts (.unary i op .hole) := by
    rcases hop with rfl | rfl <;> apply Parts.ext <;>
      simp [parts, nodeParts, unaryExprs, unaryItems, allMarkers, markers]
  rw [hparts]
  refine Hoists.then_plain (hc sc k _ false) ?_
  rintro ⟨p, sel⟩ ⟨hp, hroot⟩
  obtain ⟨c, rfl⟩ := hroot i op .hole rfl
  simp only [hp, if_true]
  exact .pure (parts_setPredicate hop) trivial

private theorem hoists_parseWhere {n : PgNode} (hc : n.isNull = false → ConditionHoists n)
    (sc : Scope) (k : Nat) :
    Hoists (parseWhere n.isNull fun sel => parseWhereExpression n sel false) (parts .hole) parts
      (blocks n sc k) fun _ => True := by
  cases hn : n.isNull with
  | true =>
    rw [eq_nullptr_of_isNull hn]
    exact .pure rfl trivial
  | false =>
    exact hoists_predicateNode (hc hn) (.inl rfl) (fun sel => ofOption sel.childNodes.head?) sc k

private theorem hoists_parseHaving {n : PgNode} (hc : n.isNull = false → ConditionHoists n)
    (sc : Scope) (k : Nat) :
    Hoists (parseHaving n.isNull fun sel => parseWhereExpression n sel false) (parts .hole) parts
      (blocks n sc k) fun _ => True := by
  cases hn : n.isNull with
  | true =>
    rw [eq_nullptr_of_isNull hn]
    exact .pure rfl trivial
  | false =>
    have hnode := hoists_predicateNode (hc hn) (.inr rfl) (fun _ => pure .hole) sc k
    simpa [parseHaving, apply_ite] using hnode

/-- A clause without subqueries becomes an operator that lacks its child. -/
private theorem hoists_operator (op : UnaryOp) (hexprs : allMarkers (unaryExprs op) = [])
    (hitems : unaryItems op = []) :
    Hoists (do
        let id ← newId
        return .unary id op .hole)
      (parts .hole) parts {} fun t => ∃ i, t = .unary i op .hole := by
  refine Hoists.bind_plain (Hoists.newId _) fun i _ => .pure ?_ ⟨i, rfl⟩
  apply Parts.ext <;> simp [parts, nodeParts, hexprs, hitems]

/-- A clause is attached to the tree. -/
private theorem hoists_clause (root : RaNode) {x : Parser RaNode} {b : Blocks}
    {post : RaNode → Prop} (hx : Hoists x (parts .hole) parts b post) :
    Hoists (do
        let t ← x
        attachPresent root t)
      (parts root) parts b fun t => SameRoot root t := by
  refine .unframe (parts .hole) ?_
  have hclause := hx.frame (parts root)
  refine Hoists.then_plain (hclause.parts (add_comm _ _) fun _ => add_comm _ _) fun t _ => ?_
  exact Hoists.attachPresent root t

private theorem hoists_parseOrderBy {ns : List PgNode} (h : areSorts ns = true) :
    Hoists (parseOrderBy ns.isEmpty (parseSorts ns)) (parts .hole) parts {} fun _ => True := by
  obtain ⟨es, hes, hm⟩ := parseSorts_eq_pure h
  cases ns with
  | nil => exact .pure rfl trivial
  | cons n ns =>
    have hop := hoists_operator (.orderBy (es.map Prod.fst) (es.map Prod.snd)) hm rfl
    rw [hes]
    simp only [parseOrderBy, List.isEmpty_cons, Bool.false_eq_true, if_false, pure_bind]
    exact hop.mono fun _ _ => trivial

private theorem hoists_parseGroupBy {ns : List PgNode} (h : areExpressions ns = true) :
    Hoists (parseGroupBy ns.isEmpty (parseExpressions ns)) (parts .hole) parts {} fun _ => True := by
  obtain ⟨es, hes, hm⟩ := parseExpressionList_eq_pure h
  cases ns with
  | nil => exact .pure rfl trivial
  | cons n ns =>
    have hop := hoists_operator (.groupBy es false) hm rfl
    rw [hes]
    simp only [parseGroupBy, List.isEmpty_cons, Bool.false_eq_true, if_false, pure_bind]
    exact hop.mono fun _ _ => trivial

/-- The projection, and the implicit GROUP BY below it. -/
private theorem hoists_parseSelect {ns : List PgNode} (h : areTargets ns = true)
    (distinct implicitGroupBy : Bool) :
    Hoists (parseSelect distinct implicitGroupBy (parseTargets ns)) (parts .hole) parts {}
      fun t => ∃ i pr c, t = .projection i pr c := by
  obtain ⟨es, hes, hm⟩ := parseTargets_eq_pure h
  have hpr := hoists_operator (.projection ⟨es, "", [], distinct⟩) hm rfl
  rw [hes]
  have hgroup : ∀ t, (∃ i, t = RaNode.projection i ⟨es, "", [], distinct⟩ .hole) →
      Hoists (if implicitGroupBy then do
          let id ← newId
          attachTo t (.groupBy id [] true .hole)
        else return t) (parts t) parts {} fun t => ∃ i pr c, t = .projection i pr c := by
    rintro t ⟨i, rfl⟩
    cases implicitGroupBy with
    | false => exact .pure rfl ⟨_, _, _, rfl⟩
    | true =>
      have hclause := hoists_clause (.projection i ⟨es, "", [], distinct⟩ .hole)
        (hoists_operator (.groupBy [] true) rfl rfl)
      have hmono := hclause.mono fun t ht => show ∃ i pr c, t = .projection i pr c by
        obtain ⟨c, rfl⟩ := ht _ _ _ rfl
        exact ⟨_, _, _, rfl⟩
      simpa using hmono
  simpa [parseSelect] using Hoists.bind_plain hpr hgroup

/-- A relation owns its name. -/
private theorem hoists_relationOf (relname : String) (a : Option Alias) (sc : Scope) (k : Nat)
    (start : Parts) :
    Hoists (relationOf relname a) start (fun t => start + parts t)
      (blocks (.rangeVar relname a) sc k) fun _ => True := by
  intro s t s' h
  simp only [relationOf, bind_eq_some, newId_eq_some, pure_eq_some, Prod.mk.injEq] at h
  obtain ⟨i, _, ⟨rfl, rfl⟩, rfl, rfl⟩ := h
  exact ⟨trivial, _, [], rfl, ⟨rfl, rfl⟩, by simp, .nil⟩

/-- An unmarked join without its children. -/
private theorem parts_plainJoin (i : Nat) (join : Join) (hmarker : join.marker = 0)
    (hpred : markers join.predicate = []) (l r : RaNode) :
    ∃ q, Owns q [] ∧ parts (.join i join l r) = q + parts l + parts r := by
  refine ⟨nodeParts i [join.predicate] (joinItems join) + markerParts join, ⟨?_, ?_⟩, rfl⟩
  · have hitems : ∀ item ∈ joinItems join, relationName item = none := by
      intro item hitem
      unfold joinItems at hitem
      split at hitem
      · simp_all
      · split at hitem <;> simp_all [relationName]
    have hnone : (joinItems join).filterMap relationName = [] :=
      List.filterMap_eq_nil_iff.mpr hitems
    simp [relations, nodeParts, markerParts, hnone]
  · simp [nodeParts, markerParts, allMarkers, hmarker, hpred]

/-- What a FROM item becomes. -/
def FromItemHoists (n : PgNode) : Prop :=
  ∀ sc k, Hoists (parseFromItem n) 0 (fun r => allParts r.toList) (blocks n sc k)
    fun r => r.isSome = true

/-- What a WITH query becomes. -/
def CteHoists (n : PgNode) : Prop :=
  ∀ name cols query, n = .commonTableExpr name cols query → StatementHoists query

/-- A join of two relations. -/
private theorem hoists_parseFromJoin {type : PgJoinType} {lname rname : String}
    {lalias ralias a : Option Alias} {quals : PgNode}
    (hquals : (quals.isNull || isCondition false quals) = true) (sc : Scope) (k : Nat) :
    Hoists (parseFromJoin type (.rangeVar lname lalias) (.rangeVar rname ralias) a <|
        orNull quals do
          let (p, _) ← parseWhereExpression quals .hole false
          return p)
      0 parts (blocks (.joinExpr type (.rangeVar lname lalias) (.rangeVar rname ralias) quals a) sc k)
      fun _ => True := by
  obtain ⟨p, hp, hm⟩ : ∃ p, (orNull quals do
      let (p, _) ← parseWhereExpression quals .hole false
      return p) = pure p ∧ markers p = [] := by
    cases hnull : quals.isNull with
    | true =>
      rw [eq_nullptr_of_isNull hnull]
      exact ⟨.nullptr, rfl, rfl⟩
    | false =>
      rw [hnull, Bool.false_or] at hquals
      obtain ⟨p, hp, hm, -⟩ := parseCondition_eq_pure hquals
      exact ⟨p, by simp [orNull, hnull, hp], hm⟩
  rw [hp]
  intro s t s' h
  simp only [parseFromJoin, bind_eq_some, ofOption_eq_some, newId_eq_some, pure_eq_some,
    Prod.mk.injEq] at h
  obtain ⟨type', s₀, ⟨-, rfl⟩, i, _, ⟨rfl, rfl⟩, l, s₁, hl, r, s₂, hr, p', _, ⟨rfl, rfl⟩, rfl, rfl⟩ := h
  obtain ⟨-, p₁, new₁, hp₁, howns₁, hnew₁, hctes₁⟩ := hoists_relationOf lname lalias sc k 0 _ _ _ hl
  obtain ⟨-, p₂, new₂, hp₂, howns₂, hnew₂, hctes₂⟩ := hoists_relationOf rname ralias sc k 0 _ _ _ hr
  obtain ⟨q, hq, hparts⟩ := parts_plainJoin s₀.nextId ⟨type', p', _, _, 0⟩ rfl hm l r
  have howns := hq.add (howns₁.add howns₂)
  refine ⟨trivial, q + (p₁ + p₂), new₁ ++ new₂, ?_, howns, by simp [hnew₂, hnew₁], ?_⟩
  · simp only [zero_add] at hp₁ hp₂
    rw [hparts, hp₁, hp₂, zero_add, add_assoc]
  · exact List.rel_append hctes₁ hctes₂

/-- A FROM subquery or a CTE gets its name. -/
private theorem hoists_renameProjection {query : PgNode} (hquery : StatementHoists query)
    (name : String) (cols : List String) (sc : Scope) (k : Nat) :
    Hoists (do
        let pr ← parseSelectStatement query
        pure (renameProjection name cols pr))
      0 parts (blocks query sc k) fun t => ∃ i pr c, t = .projection i pr c ∧
        pr.subqueryAlias = name := by
  intro s t s' h
  obtain ⟨u, s₁, hu, h⟩ := bind_eq_some.mp h
  obtain ⟨rfl, rfl⟩ := Prod.mk.inj (pure_eq_some.mp h)
  obtain ⟨⟨i, pr, c, rfl⟩, p, new, hp, howns, hnew, hctes⟩ := hquery sc k _ _ _ hu
  refine ⟨⟨_, _, _, rfl, rfl⟩, _, new, (zero_add _).symm, ?_, hnew, hctes⟩
  rw [zero_add] at hp
  have hrelations : ∀ q : Projection, Multiset.filterMap relationName
      (unaryItems (.projection q) : Multiset Item) = 0 := by
    intro q
    simp only [unaryItems]
    split <;> rfl
  have hown : relations (parts (.projection i pr c)) = relations (parts c) := by
    simp [parts, nodeParts, relations, hrelations]
  have hmarkers := howns.markers
  rw [← hp] at hmarkers
  refine ⟨?_, hmarkers⟩
  rw [← howns.relations, ← hp, hown]
  simp [renameProjection, parts, nodeParts, relations, hrelations]

/-- A FROM subquery that is not taken for a correlated one. -/
private theorem hoists_parseFromSubquery {subquery : PgNode} {a : Alias}
    (hsub : StatementHoists subquery) (hcorr : isCorrelatedSubquery subquery = some false)
    (sc : Scope) (k : Nat) :
    Hoists (parseFromSubquery subquery a (parseSelectStatement subquery)) 0 parts
      (blocks (.rangeSubselect subquery a) sc k) fun _ => True := by
  have hpure : ofOption (isCorrelatedSubquery subquery) = pure false := by rw [hcorr]; rfl
  rw [parseFromSubquery, hpure]
  simp only [pure_bind, Bool.false_eq_true, if_false, blocks]
  exact (hoists_renameProjection hsub a.aliasname a.colnames sc k).mono fun _ _ => trivial

private theorem hoists_parseFromItems {ns : List PgNode} (ih : ∀ n ∈ ns, FromItemHoists n)
    (sc : Scope) (k : Nat) :
    Hoists (parseFromItems ns) 0 allParts (allBlocks ns sc k) fun rs => rs.length = ns.length := by
  induction ns generalizing k with
  | nil =>
    rw [parseFromItems]
    exact .pure rfl rfl
  | cons n ns ihns =>
    rw [List.forall_mem_cons] at ih
    rw [parseFromItems]
    refine Hoists.bind (ih.1 sc k) fun r hr => ?_
    obtain ⟨t, rfl⟩ := Option.isSome_iff_exists.mp hr
    have hrest := (ihns ih.2 (k + (blocks n sc k).ctes.length)).frame (allParts (some t).toList)
    rw [zero_add] at hrest
    refine Hoists.then_plain hrest fun rs hrs => .pure ?_ (by simp [hrs])
    rw [allParts_append, add_comm]

/-- The loop of `parse_from` attaches every relation below a cross product. -/
private theorem hoists_addRelations (base : RaNode) (rs : List RaNode) (hlen : 2 ≤ rs.length) :
    Hoists (addRelations base rs) (parts base + allParts rs)
      (fun t => parts t + (parts .hole + parts .hole)) {} fun _ => True := by
  fun_induction addRelations base rs with
  | case1 => cases hlen
  | case2 => simp at hlen
  | case3 base r r' =>
    have hfirst := (Hoists.attachTo base r).frame (parts r')
    refine Hoists.bind_plain (hfirst.parts (by simp [add_assoc]) fun _ => rfl) fun t _ => ?_
    have hsecond := (Hoists.attachTo t r').frame (parts .hole)
    exact (hsecond.mono fun _ _ => trivial).parts (add_right_comm _ _ _) fun _ => add_assoc _ _ _
  | case4 base r rs hone htwo ih =>
    have hlen' : 2 ≤ rs.length := by
      rcases rs with _ | ⟨r', _ | ⟨r'', rs⟩⟩
      · simp at hlen
      · exact absurd rfl (htwo r')
      · simp
    have hfirst := (Hoists.attachTo base r).frame (allParts rs)
    refine Hoists.bind_plain (hfirst.parts (by simp [add_assoc]) fun _ => rfl) fun t _ => ?_
    refine Hoists.bind_plain ((Hoists.newId _).owning .zero) fun i _ => ?_
    have hcross := (Hoists.attachTo t (.join i crossJoin .hole .hole)).frame (allParts rs)
    have hstart : parts t + parts (.join i crossJoin .hole .hole) + allParts rs =
        parts t + parts .hole + allParts rs + { ids := {i} } + 0 + parts .hole := by
      rw [parts_cross]
      abel
    refine .unframe (parts .hole) ?_
    refine Hoists.bind_plain (hcross.parts hstart fun _ => rfl) fun u _ => ?_
    refine ((ih u hlen').frame (parts .hole)).parts ?_ fun _ => rfl
    abel

/-- `SQLtoRA::parse_from`. -/
private theorem hoists_parseFrom {ns : List PgNode} (h : ∀ n ∈ ns, FromItemHoists n) (sc : Scope)
    (k : Nat) :
    Hoists (parseFrom ns.isEmpty (parseFromItems ns)) 0 parts (allBlocks ns sc k)
      fun _ => True := by
  cases ns with
  | nil =>
    have hdummy := Hoists.newId 0
    refine Hoists.bind_plain hdummy fun i _ => .pure ?_ trivial
    simp [parts, nodeParts, leafExprs, leafItems, allMarkers]
  | cons n ns =>
    rw [parseFrom, List.isEmpty_cons, if_neg (by simp)]
    refine Hoists.then_plain (hoists_parseFromItems h sc k) fun rs hrs => ?_
    rcases rs with _ | ⟨r, _ | ⟨r', rs⟩⟩
    · cases hrs
    · exact .pure (by simp) trivial
    · refine Hoists.bind_plain (Hoists.newId _) fun i _ => ?_
      have hadd := hoists_addRelations (.join i crossJoin .hole .hole) (r :: r' :: rs) (by simp)
      refine .unframe (parts .hole + parts .hole) (hadd.parts ?_ fun _ => rfl)
      rw [parts_cross]
      abel

/-- `SQLtoRA::parse_with`: the WITH queries follow each other in the list. -/
private theorem hoists_parseWith {ns : List PgNode} (hctes : ∀ n ∈ ns, isCte n = true)
    (ih : ∀ n ∈ ns, CteHoists n) (sc : Scope) (k : Nat) :
    Hoists (parseWith ns) 0 (fun _ => 0) ⟨(withBlocks ns sc k).1, []⟩ fun _ => True := by
  induction ns generalizing sc k with
  | nil =>
    rw [parseWith]
    exact .pure rfl trivial
  | cons n ns ihns =>
    rw [List.forall_mem_cons] at ih hctes
    cases n with
    | commonTableExpr name cols query =>
      intro s r s' h
      rw [parseWith] at h
      simp only [bind_eq_some, pushCte_eq_some, Prod.mk.injEq] at h
      obtain ⟨t, s₁, ht, _, s₂, ⟨-, rfl⟩, h⟩ := h
      rw [parseCte] at ht
      obtain ⟨hname, p, new, hp, howns, hnew, hblocks⟩ :=
        hoists_renameProjection (ih.1 name cols query rfl) name cols sc k _ _ _ ht
      obtain ⟨-, q, new', hq, howns', hnew', hblocks'⟩ := ihns hctes.2 ih.2 _ _ _ _ _ h
      rw [zero_add] at hp
      refine ⟨trivial, q, new ++ t :: new', hq, howns', by simp [hnew', hnew], ?_⟩
      refine List.rel_append hblocks (.cons ⟨hname, ?_⟩ hblocks')
      exact hp ▸ howns
    | _ => cases hctes.1

/-- What is hoisted for an AST node, by the place in which it is supported. -/
private structure NodeHoists (n : PgNode) : Prop where
  condition : isCondition true n = true → isBuildable n = true → ConditionHoists n := by
    rintro ⟨⟩
  statement : isSelect n = true → isBuildable n = true → StatementHoists n := by rintro ⟨⟩
  fromItem : isFromItem n = true → isBuildable n = true → FromItemHoists n := by rintro ⟨⟩
  cte : isCte n = true → isBuildable n = true → CteHoists n := by rintro ⟨⟩
  operand : ∀ type testexpr subselect, n = .subLink type testexpr subselect →
    isSelect subselect = true → isBuildable n = true → StatementHoists subselect := by
    rintro _ _ _ ⟨⟩

private theorem isBuildable_below {n m : PgNode} (h : isBuildable n = true)
    (hm : ∀ d ∈ nodes m, d ∈ nodes n) : isBuildable m = true := by
  rw [isBuildable, List.all_eq_true] at h ⊢
  exact fun d hd => h d (hm d hd)

private theorem isBuildableNode_self {n : PgNode} (h : isBuildable n = true)
    (hn : n ∈ nodes n) : isBuildableNode n = true := by
  rw [isBuildable, List.all_eq_true] at h
  exact h n hn

/-- The clauses of a SELECT statement, one after the other. -/
private theorem hoists_selectStmt {distinct : Bool} {targetList fromClause groupClause sortClause
    withClause : List PgNode} {whereClause havingClause : PgNode}
    (hfrom : ∀ n ∈ fromClause, NodeHoists n) (hwhere : NodeHoists whereClause)
    (hhaving : NodeHoists havingClause) (hwith : ∀ n ∈ withClause, NodeHoists n)
    (h : isSelect (.selectStmt distinct targetList fromClause whereClause groupClause havingClause
      sortClause withClause) = true)
    (hgood : isBuildable (.selectStmt distinct targetList fromClause whereClause groupClause
      havingClause sortClause withClause) = true) :
    StatementHoists (.selectStmt distinct targetList fromClause whereClause groupClause havingClause
      sortClause withClause) := by
  intro sc k
  simp only [isSelect, Bool.and_eq_true, areCtes_eq_all, areFromItems_eq_all, List.all_eq_true,
    Bool.or_eq_true] at h
  obtain ⟨⟨⟨⟨⟨⟨hctes, htargets⟩, hsorts⟩, hhave⟩, hgroup⟩, hcond⟩, hitems⟩ := h
  have hbelow (m : PgNode) (hm : m ∈ withClause ∨ m = havingClause ∨ m = whereClause ∨
      m ∈ fromClause) : isBuildable m = true := by
    refine isBuildable_below hgood fun d hd => ?_
    simp only [nodes, List.mem_cons, List.mem_append, mem_allNodes]
    rcases hm with hm | rfl | rfl | hm
    · exact .inr (.inl (.inl (.inl (.inl (.inl (.inl ⟨m, hm, hd⟩))))))
    · exact .inr (.inl (.inl (.inl (.inr hd))))
    · exact .inr (.inl (.inr hd))
    · exact .inr (.inr ⟨m, hm, hd⟩)
  have hctes' := hoists_parseWith hctes
    (fun n hn => (hwith n hn).cte (hctes n hn) (hbelow n (.inl hn))) sc k
  rw [parseSelectStatement]
  refine .unframe (parts .hole) (Hoists.bind (hctes'.frame (parts .hole)) fun _ _ => ?_)
  rw [zero_add]
  generalize (withBlocks withClause sc k).1 = w
  generalize (withBlocks withClause sc k).2 = sc'
  have hhaving' := hoists_parseHaving (fun hn => hhaving.condition
    (hhave.resolve_left (by simp [hn])) (hbelow _ (.inr (.inl rfl)))) sc' (k + w.length)
  have hwhere' (k' : Nat) := hoists_parseWhere (fun hn => hwhere.condition
    (hcond.resolve_left (by simp [hn])) (hbelow _ (.inr (.inr (.inl rfl))))) sc' k'
  have hfrom' (k' : Nat) := hoists_parseFrom
    (fun n hn => (hfrom n hn).fromItem (hitems n hn) (hbelow n (.inr (.inr (.inr hn))))) sc' k'
  have hblock {t u : RaNode} (ht : ∃ i pr c, t = .projection i pr c) (h : SameRoot t u) :
      ∃ i pr c, u = .projection i pr c := by
    obtain ⟨i, pr, c, rfl⟩ := ht
    obtain ⟨c', rfl⟩ := h _ _ _ rfl
    exact ⟨i, pr, c', rfl⟩
  refine Hoists.bind_plain (hoists_parseSelect htargets distinct _) fun t₁ ht₁ => ?_
  have hsort := hoists_clause t₁ (hoists_parseOrderBy hsorts)
  have hgroup' (t : RaNode) := hoists_clause t (hoists_parseGroupBy hgroup)
  rw [← bind_assoc]
  refine Hoists.bind_plain hsort fun t₂ ht₂ => ?_
  rw [← bind_assoc]
  refine Hoists.bind (hoists_clause t₂ hhaving') fun t₃ ht₃ => ?_
  rw [← bind_assoc]
  refine Hoists.bind_plain (hgroup' t₃) fun t₄ ht₄ => ?_
  rw [← bind_assoc]
  refine Hoists.bind (hoists_clause t₄ (hwhere' _)) fun t₅ ht₅ => ?_
  have hrelations := (hfrom' (k + w.length + (blocks havingClause sc' (k + w.length)).ctes.length +
    (blocks whereClause sc' (k + w.length +
      (blocks havingClause sc' (k + w.length)).ctes.length)).ctes.length)).frame (parts t₅)
  rw [zero_add] at hrelations
  refine Hoists.then_plain hrelations fun t₆ _ => ?_
  refine ((Hoists.attachPresent t₅ t₆).mono fun t ht => ?_).parts (add_comm _ _) fun _ => rfl
  exact hblock ht₁ (ht₂.trans (ht₃.trans (ht₄.trans (ht₅.trans ht))))

/-- A condition without subqueries. -/
private theorem conditionHoists_plain {n : PgNode} (h : isCondition false n = true)
    (hblocks : ∀ sc k, blocks n sc k = {}) : ConditionHoists n := by
  intro sc k sel negated
  obtain ⟨p, hp, hm, hpres⟩ := parseCondition_eq_pure h
  rw [hp, hblocks]
  exact .pure (by simp [exprParts_of_markers hm]) ⟨hpres, fun i op c hc => ⟨c, hc⟩⟩

/-- Every supported node hoists its WITH queries. -/
private theorem nodeHoists (n : PgNode) : NodeHoists n := by
  induction n using PgNode.ind with
  | aExpr kind name lexpr rexpr ihl ihr =>
    refine { condition := fun h hgood => ?_ }
    by_cases hkind : kind = .inList
    · subst hkind
      refine conditionHoists_plain h fun sc k => ?_
      simp only [isCondition, if_true, Bool.and_eq_true] at h
      have hr : blocks rexpr sc (k + (blocks lexpr sc k).ctes.length) = {} := by
        cases rexpr <;> first | rfl | cases h.2
      rw [blocks, seq, hr, blocks_expression (by simp [h.1])]
      rfl
    · intro sc k sel negated
      simp only [isCondition, if_neg hkind, Bool.and_eq_true, Bool.true_and, Bool.or_eq_true] at h
      have hl : isExpression lexpr = true := by
        refine h.1.2.resolve_right fun hscalar => ?_
        obtain ⟨subselect, rfl⟩ := eq_subLink_of_isScalarSubquery hscalar
        have hself := isBuildableNode_self hgood (by simp [nodes])
        cases hself
      have hsub : ∀ type testexpr subselect, rexpr = .subLink type testexpr subselect →
          isSelect subselect = true → StatementHoists subselect :=
        fun type testexpr subselect heq hs => ihr.operand type testexpr subselect heq hs
          (isBuildable_below hgood fun d hd => by simp [nodes, hd])
      have hcomparison := hoists_comparison (binaryOperator kind name) hl
        (by simpa only [Bool.or_eq_true] using h.2) hsub sel sc k
      rw [parseWhereExpression, if_neg hkind, blocks, seq, blocks_expression (by simp [hl])]
      exact hcomparison
  | boolExpr op args ih =>
    refine { condition := fun h hgood => ?_ }
    intro sc k sel negated
    simp only [isCondition, areConditions_eq_all, List.all_eq_true] at h
    have hargs := hoists_parseWhereArgs (fun n hn => (ih n hn).condition (h n hn)
      (isBuildable_below hgood fun d hd => by
        simp only [nodes, List.mem_cons, mem_allNodes]
        exact .inr ⟨n, hn, hd⟩)) sel (decide (op = .not)) sc k
    rw [parseWhereExpression]
    exact Hoists.then_plain hargs fun r hr => .pure rfl ⟨rfl, hr⟩
  | nullTest arg type ih =>
    refine { condition := fun h _ => ?_ }
    exact conditionHoists_plain (n := .nullTest arg type) h fun _ _ => rfl
  | subLink type testexpr subselect iht ihs =>
    have hstatement (hselect : isSelect subselect = true)
        (hgood : isBuildable (.subLink type testexpr subselect) = true) :
        StatementHoists subselect :=
      ihs.statement hselect (isBuildable_below hgood fun d hd => by simp [nodes, hd])
    refine { condition := fun h hgood => ?_, operand := ?_ }
    · intro sc k sel negated
      simp only [isCondition, Bool.true_and, Bool.and_eq_true] at h
      rw [parseWhereExpression]
      exact hoists_whereSublink h.1 (hstatement h.2.2 hgood) sel negated sc k
    · rintro type' testexpr' subselect' heq hselect hgood
      obtain ⟨-, -, rfl⟩ := PgNode.subLink.inj heq
      exact hstatement hselect hgood
  | rangeVar relname a =>
    refine { fromItem := fun _ _ sc k => ?_ }
    rw [parseFromItem]
    exact Hoists.then_plain (hoists_relationOf relname a sc k 0) fun t _ => .pure (by simp) rfl
  | rangeSubselect subquery a ih =>
    refine { fromItem := fun h hgood sc k => ?_ }
    simp only [isFromItem, Bool.and_eq_true, decide_eq_true_eq] at h
    obtain ⟨correlated, hcorr⟩ := Option.isSome_iff_exists.mp h.2.1
    have hself := isBuildableNode_self hgood (by simp [nodes])
    obtain rfl : correlated = false := by
      cases correlated with
      | false => rfl
      | true => simp [isBuildableNode, isCorrelatedDerived, hcorr] at hself
    have hsub := ih.statement h.2.2 (isBuildable_below hgood fun d hd => by simp [nodes, hd])
    rw [parseFromItem]
    exact Hoists.then_plain (hoists_parseFromSubquery hsub hcorr sc k) fun t _ =>
      .pure (by simp) rfl
  | joinExpr type larg rarg quals a ihl ihr ihq =>
    refine { fromItem := fun h _ sc k => ?_ }
    obtain ⟨lname, lalias, rname, ralias, rfl, rfl⟩ := eq_rangeVars_of_isFromItem h
    simp only [isFromItem, Bool.and_eq_true, decide_eq_true_eq] at h
    rw [parseFromItem]
    exact Hoists.then_plain (hoists_parseFromJoin h.2 sc k) fun t _ => .pure (by simp) rfl
  | commonTableExpr name cols query ih =>
    refine { cte := fun h hgood name' cols' query' heq => ?_ }
    obtain ⟨-, -, rfl⟩ := PgNode.commonTableExpr.inj heq
    simp only [isCte, Bool.and_eq_true, decide_eq_true_eq] at h
    exact ih.statement h.2 (isBuildable_below hgood fun d hd => by simp [nodes, hd])
  | selectStmt distinct targetList fromClause whereClause groupClause havingClause sortClause
      withClause iht ihf ihw ihg ihh ihs ihc =>
    exact { statement := hoists_selectStmt ihf ihw ihh ihc }
  | _ => exact {}

/-- The parser hoists the WITH queries of the statement in the order of its blocks, and the
main tree owns the names outside of them. -/
theorem parse_hoists {stmt : PgNode} {t : RaNode} {s : ParserState} (h : isSelect stmt = true)
    (hgood : isBuildable stmt = true) (hparse : parse stmt = some (t, s)) :
    List.Forall₂ IsCte s.ctes (blocks stmt [] 0).ctes ∧ Owns (parts t) (blocks stmt [] 0).own := by
  obtain ⟨-, p, new, hp, howns, hnew, hctes⟩ :=
    (nodeHoists stmt).statement h hgood [] 0 {} t s hparse
  have hs : s.ctes = new := by simpa using hnew
  rw [zero_add] at hp
  exact ⟨hs ▸ hctes, hp ▸ howns⟩

end SqlOptimizer.Parse.HoistedTrees
