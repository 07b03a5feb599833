import SqlOptimizer.Parse.Accounting
import SqlOptimizer.Tree.Addresses

/-!
What `parse_select_statement` builds from a supported statement: a full tree without
sharing, in which every FROM item and every subquery occurs once and every marker of a
predicate is the marker of one join.
-/

set_option autoImplicit false
set_option relaxedAutoImplicit false

namespace SqlOptimizer.Parse.ParsedTree

open Algebra.RelationalAlgebra
open Tree.Addresses Tree.Frames
open PgQuery Correlation Builder ParseSqlToRa Inventory Supported Accounting

/-- The projection of a query block, not yet renamed. -/
def IsBlock (t : RaNode) : Prop :=
  ∃ i pr c, t = .projection i pr c ∧ pr.subqueryAlias = "" ∧ pr.subqueryColumns = []

/-- A join that still lacks its left child. -/
def IsOpenJoin (t : RaNode) : Prop := ∃ i join pr, t = .join i join .hole pr ∧ pr ≠ .hole

/-- The state of the tree under construction between two clauses. -/
structure UnderConstruction (s : ParserState) (t : RaNode) : Prop where
  leftOpen : LeftOpen t
  ids_lt : ∀ i ∈ t.ids, i < s.nextId

/-- The operator at the root stays. -/
def SameRoot (t t' : RaNode) : Prop := ∀ i op c, t = .unary i op c → ∃ c', t' = .unary i op c'

/-- A SELECT statement becomes a query block. -/
def StatementBuilds (n : PgNode) : Prop :=
  ∀ s, Builds (nodes n) s (parseSelectStatement n) 0 parts fun t _ => IsBlock t

/-- The subquery of a sublink becomes a query block. -/
def SubselectBuilds (n : PgNode) : Prop :=
  ∀ type testexpr subselect, n = .subLink type testexpr subselect → isSelect subselect = true →
    StatementBuilds subselect

/-- A condition becomes a predicate, and its subqueries joins at the end of the left spine. -/
def ConditionBuilds (n : PgNode) : Prop :=
  ∀ s sel negated, UnderConstruction s sel →
    Builds (nodes n) s (parseWhereExpression n sel negated) (parts sel)
      (fun r => parts r.2 + exprParts r.1)
      fun r s' => r.1.isPresent = true ∧ UnderConstruction s' r.2 ∧ SameRoot sel r.2

theorem exprParts_of_markers {e : Expr} (h : markers e = []) : exprParts e = 0 := by
  simp [exprParts, h]
  rfl

theorem exprParts_cons (e : Expr) (es : List Expr) :
    exprParts (.list (e :: es)) = exprParts e + exprParts (.list es) := by
  apply Parts.ext <;> simp [exprParts, markers, allMarkers]

theorem sameRoot_graft (sub t : RaNode) : SameRoot t (graft sub t) := by
  rintro i op c rfl
  cases c <;> exact ⟨_, rfl⟩

theorem SameRoot.trans {t t' t'' : RaNode} (h : SameRoot t t') (h' : SameRoot t' t'') :
    SameRoot t t'' := by
  intro i op c ht
  obtain ⟨c', rfl⟩ := h i op c ht
  exact h' i op c' rfl

theorem ids_graft {base sub : RaNode} (hb : LeftOpen base) {i : Nat} :
    i ∈ (graft sub base).ids ↔ i ∈ base.ids ∨ i ∈ sub.ids := by
  have h := congrArg Parts.ids (parts_graft hb sub)
  simp only [Parts.ids_add, ids_parts] at h
  rw [← Multiset.mem_coe, ← Multiset.mem_coe, ← Multiset.mem_coe (a := i) (l := sub.ids),
    ← Multiset.mem_add, ← h]
  simp [RaNode.ids]

/-- A fresh clause, join or FROM tree is attached to the tree. -/
private theorem builds_attach {s : ParserState} {base sub : RaNode} {low : Nat} (hb : LeftOpen base)
    (hlow : ∀ i ∈ base.ids, i < low) (hids : ∀ i ∈ sub.ids, low ≤ i) :
    Builds [] s (attachPresent base sub) (parts base + parts sub) (fun t => parts t + parts .hole)
      fun t s' => s' = s ∧ (sub = .hole ∧ t = base ∨ sub ≠ .hole ∧ t = graft sub base) := by
  by_cases hsub : sub = .hole
  · subst hsub
    exact Builds.pure rfl ⟨rfl, .inl ⟨rfl, rfl⟩⟩
  · have hatt : attachPresent base sub = attachTo base sub := by
      cases sub <;> first | rfl | exact absurd rfl hsub
    rw [hatt]
    refine (Builds.attachTo hb hsub fun i hi hi' => ?_).mono fun t s' ht => ⟨ht.2, .inr ⟨hsub, ht.1⟩⟩
    exact absurd (hlow i hi) (Nat.not_lt.mpr (hids i hi'))

/-- A clause or join that is left-open leaves the tree under construction. -/
private theorem builds_attachPresent {s : ParserState} {base sub : RaNode} {low : Nat}
    (hb : UnderConstruction s base) (hlow : ∀ i ∈ base.ids, i < low)
    (hsub : sub = .hole ∨ LeftOpen sub) (hids : ∀ i ∈ sub.ids, low ≤ i ∧ i < s.nextId) :
    Builds [] s (attachPresent base sub) (parts base + parts sub) (fun t => parts t + parts .hole)
      fun t s' => UnderConstruction s' t ∧ SameRoot base t := by
  refine (builds_attach hb.leftOpen hlow fun i hi => (hids i hi).1).mono ?_
  rintro t s' ⟨rfl, ⟨rfl, rfl⟩ | ⟨hne, rfl⟩⟩
  · exact ⟨hb, fun i op c h => ⟨c, h⟩⟩
  · refine ⟨⟨leftOpen_graft hb.leftOpen (hsub.resolve_left hne), fun i hi => ?_⟩,
      sameRoot_graft sub base⟩
    exact ((ids_graft hb.leftOpen).mp hi).elim (hb.ids_lt i) fun hi => (hids i hi).2

/-- A new join for a WHERE subquery, without its children, and the marker in the predicate. -/
private def openJoinParts (type : SubLinkType) (s : ParserState) : Parts where
  ids := {s.nextId}
  joinMarkers := {s.counter + 1}
  markers := {s.counter + 1}
  items := {.subquery type}

private theorem accounts_openJoin (type : SubLinkType) (testexpr subselect : PgNode)
    (s : ParserState) :
    Accounts [.subLink type testexpr subselect] s
      { s with counter := s.counter + 1, nextId := s.nextId + 1 } (openJoinParts type s) where
  counter_le := Nat.le_succ _
  nextId_le := Nat.le_succ _
  ids_nodup := Multiset.nodup_singleton _
  ids_mem := by simp [openJoinParts]
  joinMarkers_nodup := Multiset.nodup_singleton _
  joinMarkers_mem := by simp [openJoinParts]
  markers_eq _ := rfl
  whole := by simp [openJoinParts, isBuildableNode, hasLeftSubquery, isCorrelatedDerived]
  items_eq := by simp [openJoinParts, itemOf]

private theorem parts_openJoin {type : SubLinkType} {s : ParserState} {join : Join} {pr : RaNode}
    (hmarker : join.marker = s.counter + 1) (hpred : markers join.predicate = [])
    (hitems : joinItems join = [.subquery type]) :
    parts (.join s.nextId join .hole pr) + exprParts (rightMarker join) =
      parts .hole + openJoinParts type s + parts pr := by
  have hnode : nodeParts s.nextId [join.predicate] (joinItems join) + markerParts join +
      exprParts (rightMarker join) = openJoinParts type s := by
    apply Parts.ext <;>
      simp [nodeParts, markerParts, exprParts, openJoinParts, rightMarker, markers, allMarkers,
        hmarker, hpred, hitems]
  rw [← hnode]
  simp only [parts]
  abel

/-- A WHERE subquery becomes a join with a fresh marker. -/
private theorem builds_subqueryJoin {type : SubLinkType} {testexpr subselect : PgNode}
    {types : JoinType × JoinType} {probe : Expr} (hsub : StatementBuilds subselect)
    (hcorr : (isCorrelatedSubquery subselect).isSome = true) (hprobe : markers probe = [])
    (htypes : sublinkType types.1 = type ∧ sublinkType types.2 = type) (htest : IsPlain testexpr)
    (s : ParserState) :
    Builds (nodes (.subLink type testexpr subselect)) s
      (subqueryJoin subselect types (parseSelectStatement subselect) (pure probe)) (parts .hole)
      (fun r => parts r.2 + exprParts r.1) fun r _ => IsOpenJoin r.2 ∧ r.1.isPresent = true := by
  suffices h : Builds ([.subLink type testexpr subselect] ++ nodes subselect ++ nodes testexpr) s
      (subqueryJoin subselect types (parseSelectStatement subselect) (pure probe)) (parts .hole)
      (fun r => parts r.2 + exprParts r.1) fun r _ => IsOpenJoin r.2 ∧ r.1.isPresent = true by
    refine h.perm ?_
    rw [nodes, List.append_assoc, List.singleton_append]
    exact .cons _ List.perm_append_comm
  refine Builds.plain ⟨?_, fun hgood => ?_⟩ htest
  · rintro ⟨e, t⟩ s' h
    simp only [subqueryJoin, bind_eq_some, nextMarker_eq_some, ofOption_eq_some, newId_eq_some,
      pure_eq_some, Prod.mk.injEq] at h
    obtain ⟨m, _, ⟨rfl, rfl⟩, correlated, _, ⟨-, rfl⟩, i, _, ⟨rfl, rfl⟩, pr, s₁, hpr, predicate,
      _, ⟨rfl, rfl⟩, ⟨rfl, rfl⟩, rfl⟩ := h
    obtain ⟨-, D, new, hD, hnew, hparts⟩ := (hsub _).1 pr _ hpr
    have hne := returnsNode_parseSelectStatement subselect _ _ _ hpr
    refine ⟨⟨⟨_, _, pr, rfl, hne⟩, rfl⟩, _, new,
      (accounts_openJoin type testexpr subselect s).trans hD, hnew, ?_⟩
    rw [zero_add] at hparts
    have hitems : joinItems ⟨if correlated = true then types.1 else types.2, predicate, "", [],
        s.counter + 1⟩ = [.subquery type] := by
      cases correlated <;> simp [joinItems, htypes]
    calc parts (.join s.nextId ⟨_, predicate, "", [], s.counter + 1⟩ .hole pr) +
            exprParts (rightMarker ⟨_, predicate, "", [], s.counter + 1⟩) + allParts new
        = parts .hole + openJoinParts type s + parts pr + allParts new := by
          rw [parts_openJoin rfl hprobe hitems]
      _ = parts .hole + (openJoinParts type s + D) := by
          rw [← hparts]
          abel
  · rw [List.all_append, Bool.and_eq_true] at hgood
    obtain ⟨correlated, hcorr'⟩ := Option.isSome_iff_exists.mp hcorr
    have hsome := (hsub { s with counter := s.counter + 1, nextId := s.nextId + 1 }).2 hgood.2
    obtain ⟨r, hr⟩ := Option.isSome_iff_exists.mp hsome
    let join : Join := ⟨if correlated then types.1 else types.2, probe, "", [], s.counter + 1⟩
    refine Option.isSome_iff_exists.mpr
      ⟨((rightMarker join, .join s.nextId join .hole r.1), r.2), ?_⟩
    simp only [subqueryJoin, bind_eq_some, nextMarker_eq_some, ofOption_eq_some, newId_eq_some,
      pure_eq_some]
    exact ⟨_, _, rfl, correlated, _, ⟨hcorr', rfl⟩, _, _, rfl, r.1, r.2, hr, _, _, rfl, rfl⟩

theorem IsOpenJoin.leftOpen {t : RaNode} (h : IsOpenJoin t) : LeftOpen t := by
  obtain ⟨i, join, pr, rfl, hpr⟩ := h
  exact leftOpen_join hpr

theorem eq_subLink_of_isScalarSubquery {n : PgNode} (h : isScalarSubquery n = true) :
    ∃ subselect, n = .subLink .expr .nullptr subselect := by
  unfold isScalarSubquery at h
  split at h
  · exact ⟨_, rfl⟩
  · cases h

/-- The right operand of a comparison, with a new join if it is a subquery. -/
private theorem builds_rightOperand {n : PgNode}
    (hn : (isExpression n || isItemList n || isScalarSubquery n) = true)
    (hsub : SubselectBuilds n) (s : ParserState) :
    Builds (nodes n) s (rightOperand n (parseSubselect n) (parseItems n) (parseExpression n))
      (parts .hole) (fun r => parts r.2 + exprParts r.1)
      fun r _ => r.2 = .hole ∨ IsOpenJoin r.2 := by
  rw [Bool.or_eq_true, Bool.or_eq_true] at hn
  rcases hn with (hn | hn) | hn
  · obtain ⟨e, he, hm⟩ := parseExpression_eq_pure hn
    rw [he, rightOperand_eq_pure hn]
    exact (Builds.pure (by simp [exprParts_of_markers hm]) (.inl rfl)).plain (isPlain_expression hn)
  · obtain ⟨es, hes, hm⟩ := parseItems_eq_pure hn
    have hpure : rightOperand n (parseSubselect n) (parseItems n) (parseExpression n) =
        pure (.list es, .hole) := by
      rw [hes]
      cases n <;> first | rfl | cases hn
    rw [hpure]
    have hm' : markers (.list es) = [] := hm
    exact (Builds.pure (by simp [exprParts_of_markers hm']) (.inl rfl)).plain (isPlain_itemList hn)
  · obtain ⟨subselect, rfl⟩ := eq_subLink_of_isScalarSubquery hn
    rw [isScalarSubquery, Bool.and_eq_true] at hn
    rw [parseSubselect]
    exact (builds_subqueryJoin (hsub _ _ subselect rfl hn.2) hn.1 rfl ⟨rfl, rfl⟩ isPlain_nullptr s).mono
      fun r _ h => .inr h.1

private theorem exprParts_predicate {l r : Expr} {op : String} (hl : markers l = []) :
    exprParts (.predicate l r op) = exprParts r := by
  simp [exprParts, markers, hl]

/-- The join of a subquery is attached, the predicate `p` returned. -/
private theorem builds_attachJoin {s s₁ : ParserState} {sel join : RaNode} {e p : Expr}
    (hsel : UnderConstruction s sel) (hjoin : join = .hole ∨ IsOpenJoin join)
    (hids : ∀ i ∈ (parts join + exprParts e).ids, s.nextId ≤ i ∧ i < s₁.nextId)
    (hle : s.nextId ≤ s₁.nextId) (hp : exprParts p = exprParts e) (hpres : p.isPresent = true) :
    Builds [] s₁ (do
        let sel ← attachPresent sel join
        pure (p, sel))
      (parts join + exprParts e + parts sel) (fun r => parts r.2 + exprParts r.1 + parts .hole)
      fun r s' => r.1.isPresent = true ∧ UnderConstruction s' r.2 ∧ SameRoot sel r.2 := by
  have hsel₁ : UnderConstruction s₁ sel :=
    ⟨hsel.leftOpen, fun i hi => (hsel.ids_lt i hi).trans_le hle⟩
  have hids' : ∀ i ∈ join.ids, s.nextId ≤ i ∧ i < s₁.nextId := by simpa [exprParts] using hids
  have hatt := (builds_attachPresent hsel₁ hsel.ids_lt (hjoin.imp_right IsOpenJoin.leftOpen)
    hids').frame (exprParts e)
  refine Builds.parts (Builds.bind hatt fun t s₂ ht _ => Builds.pure ?_ ⟨hpres, ht⟩) ?_ fun _ => rfl
  · rw [hp]
    abel
  · abel

/-- A comparison; with a subquery on its left it has no result. -/
private theorem builds_comparison {lexpr rexpr : PgNode} {operator : String}
    (hl : (isExpression lexpr || isScalarSubquery lexpr) = true)
    (hr : (isExpression rexpr || isItemList rexpr || isScalarSubquery rexpr) = true)
    (hsub : SubselectBuilds rexpr) {s : ParserState} {sel : RaNode} (hsel : UnderConstruction s sel) (kind : AExprKind)
    (name : String) :
    Builds (nodes (.aExpr kind name lexpr rexpr)) s
      (comparison operator sel (operand lexpr (parseSubselect lexpr) (parseExpression lexpr))
        (rightOperand rexpr (parseSubselect rexpr) (parseItems rexpr) (parseExpression rexpr)))
      (parts sel) (fun r => parts r.2 + exprParts r.1)
      fun r s' => r.1.isPresent = true ∧ UnderConstruction s' r.2 ∧ SameRoot sel r.2 := by
  rw [Bool.or_eq_true] at hl
  rcases hl with hl | hl
  · obtain ⟨l, hl', hml⟩ := parseExpression_eq_pure hl
    have hplain : ∀ d ∈ PgNode.aExpr kind name lexpr rexpr :: nodes lexpr,
        itemOf d = none ∧ isBuildableNode d = true := by
      refine List.forall_mem_cons.mpr ⟨⟨rfl, ?_⟩, isPlain_expression hl⟩
      cases lexpr <;> first | rfl | cases hl
    rw [hl', operand_eq_pure hl]
    simp only [comparison, pure_bind, attachPresent_hole]
    refine Builds.unframe (parts .hole)
      (Builds.perm (Builds.plain ?_ hplain) List.perm_append_comm)
    · have hright := ((builds_rightOperand hr hsub s).fresh (by simp [parts])).frame (parts sel)
      have h := Builds.bind hright fun r s₁ hr hle =>
        builds_attachJoin hsel hr.1 hr.2 hle (p := .predicate l r.1 operator)
          (exprParts_predicate hml) rfl
      simpa [add_comm] using h
  · obtain ⟨subselect, rfl⟩ := eq_subLink_of_isScalarSubquery hl
    constructor
    · intro r s' h
      simp [parseSubselect, comparison_subquery hsel.leftOpen] at h
    · intro hgood
      simp [nodes, isBuildableNode, hasLeftSubquery] at hgood

/-- EXISTS and IN subqueries. -/
private theorem builds_whereSublink {type : SubLinkType} {testexpr subselect : PgNode}
    (htype : (type = .exists && testexpr.isNull || type = .any && isExpression testexpr) = true)
    (hcorr : (isCorrelatedSubquery subselect).isSome = true) (hsub : StatementBuilds subselect)
    {s : ParserState} {sel : RaNode} (hsel : UnderConstruction s sel) (negated : Bool) :
    Builds (nodes (.subLink type testexpr subselect)) s
      (whereSublink sel (sublinkJoin type subselect negated (parseSelectStatement subselect)
        (parseExpression testexpr)))
      (parts sel) (fun r => parts r.2 + exprParts r.1)
      fun r s' => r.1.isPresent = true ∧ UnderConstruction s' r.2 ∧ SameRoot sel r.2 := by
  obtain ⟨types, probe, hjoin, hprobe, htypes, htest⟩ : ∃ types probe,
      sublinkJoin type subselect negated (parseSelectStatement subselect)
        (parseExpression testexpr) =
          subqueryJoin subselect types (parseSelectStatement subselect) (pure probe) ∧
      markers probe = [] ∧ (sublinkType types.1 = type ∧ sublinkType types.2 = type) ∧
      IsPlain testexpr := by
    simp only [Bool.or_eq_true, Bool.and_eq_true, decide_eq_true_eq] at htype
    rcases htype with ⟨rfl, hnull⟩ | ⟨rfl, hexpr⟩
    · refine ⟨existsTypes negated, .nullptr, rfl, rfl, by cases negated <;> exact ⟨rfl, rfl⟩, ?_⟩
      cases testexpr <;> first | exact isPlain_nullptr | cases hnull
    · obtain ⟨l, hl, hm⟩ := parseExpression_eq_pure hexpr
      refine ⟨inTypes negated, .predicate l .nullptr "", ?_, by simp [markers, hm],
        by cases negated <;> exact ⟨rfl, rfl⟩, isPlain_expression hexpr⟩
      simp [sublinkJoin, hl]
  rw [hjoin]
  refine Builds.unframe (parts .hole) ?_
  have hopen := ((builds_subqueryJoin hsub hcorr hprobe htypes htest s).fresh
    (by simp [parts])).frame (parts sel)
  have h : Builds _ s (whereSublink sel (subqueryJoin subselect types
      (parseSelectStatement subselect) (pure probe))) _ _ _ := Builds.bind hopen fun r s₁ hr hle => by
    have hattach := builds_attachJoin hsel (.inr hr.1.1) hr.2 hle (p := r.1) rfl hr.1.2
    obtain ⟨e, t⟩ := r
    obtain ⟨i, join, pr, rfl, -⟩ := hr.1.1
    exact hattach
  simpa [add_comm] using h

private theorem builds_parseWhereArgs {ns : List PgNode} (h : areConditions true ns = true)
    (ih : ∀ n ∈ ns, isCondition true n = true → ConditionBuilds n) {s : ParserState} {sel : RaNode}
    (hsel : UnderConstruction s sel) (negated : Bool) :
    Builds (allNodes ns) s (parseWhereArgs ns sel negated) (parts sel)
      (fun r => parts r.2 + exprParts (.list r.1))
      fun r s' => UnderConstruction s' r.2 ∧ SameRoot sel r.2 := by
  induction ns generalizing s sel with
  | nil =>
    rw [parseWhereArgs]
    exact Builds.pure (by simp [exprParts_of_markers (e := .list []) rfl])
      ⟨hsel, fun i op c h => ⟨c, h⟩⟩
  | cons n ns hns =>
    rw [List.forall_mem_cons] at ih
    rw [areConditions, Bool.and_eq_true] at h
    rw [parseWhereArgs, allNodes]
    refine Builds.bind (ih.1 h.1 s sel negated hsel) ?_
    rintro ⟨p, sel₁⟩ s₁ ⟨hp, hsel₁, hroot₁⟩ -
    have hargs := (hns h.2 ih.2 hsel₁).frame (exprParts p)
    have hcons : ∀ (r : List Expr × RaNode) (s₂ : ParserState),
        UnderConstruction s₂ r.2 ∧ SameRoot sel₁ r.2 → s₁.nextId ≤ s₂.nextId →
        Builds [] s₂ (pure (p :: r.1, r.2)) (parts r.2 + exprParts (.list r.1) + exprParts p)
          (fun r => parts r.2 + exprParts (.list r.1))
          fun r s' => UnderConstruction s' r.2 ∧ SameRoot sel r.2 := by
      rintro r s₂ ⟨hsel₂, hroot₂⟩ -
      refine Builds.pure ?_ ⟨hsel₂, hroot₁.trans hroot₂⟩
      rw [exprParts_cons]
      abel
    simpa [hp] using Builds.bind hargs hcons

theorem parts_setPredicate {i : Nat} {op : UnaryOp} {c : RaNode} {p : Expr}
    (hop : op = .selection .nullptr ∨ op = .having .nullptr) :
    parts (setPredicate p (.unary i op c)) = parts (.unary i op c) + exprParts p := by
  have hnode : ∀ q : Expr → UnaryOp, (∀ e, unaryExprs (q e) = [e]) → (∀ e, unaryItems (q e) = []) →
      parts (.unary i (q p) c) = parts (.unary i (q .nullptr) c) + exprParts p := by
    intro q hexprs hitems
    apply Parts.ext <;>
      simp [parts, nodeParts, exprParts, hexprs, hitems, allMarkers, markers, add_comm]
  rcases hop with rfl | rfl
  · exact hnode .selection (fun _ => rfl) fun _ => rfl
  · exact hnode .having (fun _ => rfl) fun _ => rfl

private theorem leftOpen_setPredicate {t : RaNode} (h : LeftOpen t) (p : Expr) :
    LeftOpen (setPredicate p t) := by
  unfold setPredicate
  split
  · next i e c => cases c <;> exact h
  · next i e c => cases c <;> exact h
  · exact h

/-- The action of `parse_where` and of `parse_having` on a condition that is present. -/
private theorem builds_predicateNode {n : PgNode} (hc : ConditionBuilds n) {op : UnaryOp}
    (hop : op = .selection .nullptr ∨ op = .having .nullptr) (s : ParserState)
    (absent : RaNode → Parser RaNode) :
    Builds (nodes n) s (do
        let id ← newId
        let (p, sel) ← parseWhereExpression n (.unary id op .hole) false
        if p.isPresent then return setPredicate p sel else absent sel)
      (parts .hole) parts fun t _ => t = .hole ∨ LeftOpen t := by
  have hnew := Builds.newId s (parts .hole)
  refine Builds.bind hnew fun i s₁ hi _ => ?_
  have hparts : parts .hole + { ids := {i} } = parts (.unary i op .hole) := by
    rcases hop with rfl | rfl <;> apply Parts.ext <;>
      simp [parts, nodeParts, unaryExprs, unaryItems, allMarkers, markers]
  rw [hparts]
  have hsel : UnderConstruction s₁ (.unary i op .hole) :=
    ⟨trivial, by simp [RaNode.ids, hi.1, hi.2]⟩
  have hcond := hc s₁ _ false hsel
  have hset : ∀ (r : Expr × RaNode) (s₂ : ParserState), (r.1.isPresent = true ∧
      UnderConstruction s₂ r.2 ∧ SameRoot (.unary i op .hole) r.2) → s₁.nextId ≤ s₂.nextId →
      Builds [] s₂ (if r.1.isPresent then return setPredicate r.1 r.2 else absent r.2)
        (parts r.2 + exprParts r.1) parts fun t _ => t = .hole ∨ LeftOpen t := by
    rintro ⟨p, sel⟩ s₂ ⟨hp, hsel, hroot⟩ -
    obtain ⟨c, rfl⟩ := hroot i op .hole rfl
    rw [if_pos hp]
    exact Builds.pure (parts_setPredicate hop) (.inr (leftOpen_setPredicate hsel.leftOpen p))
  simpa using Builds.bind hcond hset

theorem eq_nullptr_of_isNull {n : PgNode} (h : n.isNull = true) : n = .nullptr := by
  cases n <;> first | rfl | cases h

private theorem builds_parseWhere {n : PgNode} (h : (n.isNull || isCondition true n) = true)
    (hc : isCondition true n = true → ConditionBuilds n) (s : ParserState) :
    Builds (nodes n) s (parseWhere n.isNull fun sel => parseWhereExpression n sel false)
      (parts .hole) parts fun t _ => t = .hole ∨ LeftOpen t := by
  cases hn : n.isNull with
  | true =>
    rw [eq_nullptr_of_isNull hn]
    exact (Builds.pure rfl (.inl rfl)).plain isPlain_nullptr
  | false =>
    rw [hn, Bool.false_or] at h
    exact builds_predicateNode (hc h) (.inl rfl) s fun sel => ofOption sel.childNodes.head?

private theorem builds_parseHaving {n : PgNode} (h : (n.isNull || isCondition true n) = true)
    (hc : isCondition true n = true → ConditionBuilds n) (s : ParserState) :
    Builds (nodes n) s (parseHaving n.isNull fun sel => parseWhereExpression n sel false)
      (parts .hole) parts fun t _ => t = .hole ∨ LeftOpen t := by
  cases hn : n.isNull with
  | true =>
    rw [eq_nullptr_of_isNull hn]
    exact (Builds.pure rfl (.inl rfl)).plain isPlain_nullptr
  | false =>
    rw [hn, Bool.false_or] at h
    have hnode := builds_predicateNode (hc h) (.inr rfl) s fun _ => pure .hole
    simpa [parseHaving, apply_ite] using hnode

/-- A clause without subqueries becomes an operator that lacks its child. -/
private theorem builds_operator (op : UnaryOp) {ds : List PgNode}
    (hds : ∀ d ∈ ds, itemOf d = none ∧ isBuildableNode d = true)
    (hexprs : allMarkers (unaryExprs op) = []) (hitems : unaryItems op = []) (s : ParserState) :
    Builds ds s (do
        let id ← newId
        return .unary id op .hole)
      (parts .hole) parts fun t s' => t = .unary s.nextId op .hole ∧ s'.nextId = s.nextId + 1 := by
  have hpure : ∀ (i : Nat) (s₁ : ParserState),
      (i = s.nextId ∧ s₁ = { s with nextId := s.nextId + 1 }) → s.nextId ≤ s₁.nextId →
      Builds [] s₁ (pure (.unary i op .hole)) (parts .hole + { ids := {i} }) parts
        fun t s' => t = .unary s.nextId op .hole ∧ s'.nextId = s.nextId + 1 := by
    rintro i s₁ ⟨rfl, rfl⟩ -
    refine Builds.pure ?_ ⟨rfl, rfl⟩
    apply Parts.ext <;> simp [parts, nodeParts, hexprs, hitems]
  exact (Builds.bind (Builds.newId s (parts .hole)) hpure).plain hds

private theorem builds_parseOrderBy {ns : List PgNode} (h : areSorts ns = true) (s : ParserState) :
    Builds (allNodes ns) s (parseOrderBy ns.isEmpty (parseSorts ns)) (parts .hole) parts
      fun t _ => t = .hole ∨ LeftOpen t := by
  obtain ⟨es, hes, hm⟩ := parseSorts_eq_pure h
  cases ns with
  | nil => exact Builds.pure rfl (.inl rfl)
  | cons n ns =>
    have hop := builds_operator (.orderBy (es.map Prod.fst) (es.map Prod.snd))
      (isPlain_sorts h) hm rfl s
    rw [hes]
    simp only [parseOrderBy, List.isEmpty_cons, Bool.false_eq_true, if_false, pure_bind]
    exact hop.mono fun t s' ht => .inr (ht.1 ▸ trivial)

private theorem builds_parseGroupBy {ns : List PgNode} (h : areExpressions ns = true)
    (s : ParserState) :
    Builds (allNodes ns) s (parseGroupBy ns.isEmpty (parseExpressions ns)) (parts .hole) parts
      fun t _ => t = .hole ∨ LeftOpen t := by
  obtain ⟨es, hes, hm⟩ := parseExpressionList_eq_pure h
  cases ns with
  | nil => exact Builds.pure rfl (.inl rfl)
  | cons n ns =>
    have hop := builds_operator (.groupBy es false) (isPlain_expressions h) hm rfl s
    rw [hes]
    simp only [parseGroupBy, List.isEmpty_cons, Bool.false_eq_true, if_false, pure_bind]
    exact hop.mono fun t s' ht => .inr (ht.1 ▸ trivial)

/-- A clause is built and attached to the tree. -/
private theorem builds_clause {ds : List PgNode} {s : ParserState} {x : Parser RaNode} {root : RaNode}
    (hx : Builds ds s x (parts .hole) parts fun t _ => t = .hole ∨ LeftOpen t)
    (hroot : UnderConstruction s root) :
    Builds ds s (do
        let t ← x
        attachPresent root t)
      (parts root) parts fun t s' => UnderConstruction s' t ∧ SameRoot root t := by
  refine Builds.unframe (parts .hole) ?_
  have hclause := (hx.fresh (by simp [parts])).frame (parts root)
  have hattach : ∀ (t : RaNode) (s₁ : ParserState), ((t = .hole ∨ LeftOpen t) ∧
      ∀ i ∈ (parts t).ids, s.nextId ≤ i ∧ i < s₁.nextId) → s.nextId ≤ s₁.nextId →
      Builds [] s₁ (attachPresent root t) (parts t + parts root) (fun t => parts t + parts .hole)
        fun t s' => UnderConstruction s' t ∧ SameRoot root t := by
    rintro t s₁ ⟨ht, hids⟩ hle
    have hroot₁ : UnderConstruction s₁ root :=
      ⟨hroot.leftOpen, fun i hi => (hroot.ids_lt i hi).trans_le hle⟩
    exact (builds_attachPresent hroot₁ hroot.ids_lt ht (by simpa using hids)).parts
      (add_comm _ _) fun _ => rfl
  simpa [add_comm] using Builds.bind hclause hattach

/-- The projection, and the implicit GROUP BY below it. -/
private theorem builds_parseSelect {ns : List PgNode} (h : areTargets ns = true)
    (distinct implicitGroupBy : Bool) (s : ParserState) :
    Builds (allNodes ns) s (parseSelect distinct implicitGroupBy (parseTargets ns)) (parts .hole)
      parts fun t s' => UnderConstruction s' t ∧ IsBlock t := by
  obtain ⟨es, hes, hm⟩ := parseTargets_eq_pure h
  have hpr := builds_operator (.projection ⟨es, "", [], distinct⟩) (isPlain_targets h) hm rfl s
  have hgroup : ∀ (t : RaNode) (s₁ : ParserState),
      (t = .projection s.nextId ⟨es, "", [], distinct⟩ .hole ∧ s₁.nextId = s.nextId + 1) →
      s.nextId ≤ s₁.nextId →
      Builds [] s₁ (if implicitGroupBy then do
          let id ← newId
          attachTo t (.groupBy id [] true .hole)
        else return t)
        (parts t) parts fun t s' => UnderConstruction s' t ∧ IsBlock t := by
    rintro t s₁ ⟨rfl, hs₁⟩ -
    have hroot : UnderConstruction s₁ (.projection s.nextId ⟨es, "", [], distinct⟩ .hole) :=
      ⟨trivial, by simp [RaNode.ids, hs₁]⟩
    cases implicitGroupBy with
    | false => exact Builds.pure rfl ⟨hroot, _, _, _, rfl, rfl, rfl⟩
    | true =>
      have hplain : ∀ d ∈ ([] : List PgNode), itemOf d = none ∧ isBuildableNode d = true := by
        simp
      have hop := (builds_operator (.groupBy [] true) hplain rfl rfl s₁).mono
        fun t s' ht => show t = .hole ∨ LeftOpen t from .inr (ht.1 ▸ trivial)
      have hclause := (builds_clause hop hroot).mono
        fun t s' ht => show UnderConstruction s' t ∧ IsBlock t by
          obtain ⟨c, rfl⟩ := ht.2 _ _ _ rfl
          exact ⟨ht.1, _, _, _, rfl, rfl, rfl⟩
      simpa using hclause
  rw [hes]
  simpa [parseSelect] using Builds.bind hpr hgroup

/-- An item of a FROM clause becomes a tree, or leaves a null pointer. -/
def FromItemBuilds (n : PgNode) : Prop :=
  ∀ s, Builds (nodes n) s (parseFromItem n) 0 (fun r => allParts r.toList) fun r _ =>
    r.isSome = true

private theorem builds_relationOf (relname : String) (a : Option Alias) (s : ParserState)
    (start : Parts) :
    Builds [.rangeVar relname a] s (relationOf relname a) start (fun t => start + parts t)
      fun _ _ => True := by
  have hleaf : ∀ (i : Nat) (s₁ : ParserState), (i = s.nextId ∧ s₁ = { s with nextId := s.nextId + 1 }) →
      s.nextId ≤ s₁.nextId →
      Builds [] s₁ (pure (.relation i relname ((a.map Alias.aliasname).getD "")))
        (start + { ids := {i} } + { items := {.relation relname ((a.map Alias.aliasname).getD "")} })
        (fun t => start + parts t) fun _ _ => True := by
    intro i s₁ _ _
    refine Builds.pure ?_ trivial
    rw [add_assoc]
    rfl
  exact Builds.bind ((Builds.newId s start).item (n := .rangeVar relname a) rfl rfl) hleaf

private theorem parts_renameProjection {t : RaNode} {name : String} {columns : List String}
    (ht : IsBlock t) (hname : name ≠ "") :
    parts (renameProjection name columns t) = parts t + { items := {.derived name columns} } := by
  obtain ⟨i, pr, c, rfl, halias, hcolumns⟩ := ht
  apply Parts.ext <;>
    simp [parts, renameProjection, nodeParts, unaryExprs, unaryItems, halias, hcolumns, hname,
      add_comm]

/-- A derived table or a CTE gets its name. -/
private theorem builds_renameProjection {n : PgNode} {query : PgNode} {name : String}
    {columns : List String} (hquery : StatementBuilds query) (hname : name ≠ "")
    (hitem : itemOf n = some (.derived name columns)) (hbuild : isBuildableNode n = true)
    (s : ParserState) :
    Builds (n :: nodes query) s (do
        let pr ← parseSelectStatement query
        return renameProjection name columns pr) 0 parts fun _ _ => True := by
  have hrename : ∀ (t : RaNode) (s₁ : ParserState), IsBlock t → s.nextId ≤ s₁.nextId →
      Builds [] s₁ (pure (renameProjection name columns t))
        (parts t + { items := {.derived name columns} }) parts fun _ _ => True :=
    fun t s₁ ht _ => Builds.pure (parts_renameProjection ht hname) trivial
  refine (Builds.bind ((hquery s).item hitem hbuild) hrename).perm ?_
  rw [List.append_nil]
  exact List.perm_append_comm

/-- A FROM subquery that is taken for a correlated one leaves a null pointer. -/
private theorem builds_parseFromSubquery {subquery : PgNode} {a : Alias}
    (hsub : StatementBuilds subquery) (hcorr : (isCorrelatedSubquery subquery).isSome = true)
    (ha : a.aliasname ≠ "") (s : ParserState) :
    Builds (nodes (.rangeSubselect subquery a)) s
      (parseFromSubquery subquery a (parseSelectStatement subquery)) 0 parts fun _ _ => True := by
  obtain ⟨correlated, hcorr⟩ := Option.isSome_iff_exists.mp hcorr
  have hpure : ofOption (isCorrelatedSubquery subquery) = pure correlated := by rw [hcorr]; rfl
  rw [parseFromSubquery, hpure]
  simp only [pure_bind]
  cases correlated with
  | false =>
    exact builds_renameProjection (n := .rangeSubselect subquery a) hsub ha rfl
      (by simp [isBuildableNode, hasLeftSubquery, isCorrelatedDerived, hcorr]) s
  | true =>
    have hbad : (nodes (.rangeSubselect subquery a)).all isBuildableNode = false := by
      simp [nodes, isBuildableNode, hasLeftSubquery, isCorrelatedDerived, hcorr]
    refine ⟨fun r s' hr => ⟨trivial, ?_⟩, fun hgood => absurd hgood (by simp [hbad])⟩
    obtain ⟨t, s₁, ht, hr⟩ := bind_eq_some.mp hr
    obtain ⟨rfl, rfl⟩ := Prod.mk.inj (pure_eq_some.mp hr)
    obtain ⟨-, D, new, hD, hnew, hparts⟩ := (hsub s).1 t _ ht
    rw [zero_add] at hparts
    exact ⟨_, new, (hparts ▸ hD).drop hbad, hnew, by simp⟩

/-- A join of two relations. -/
private theorem builds_parseFromJoin {type : PgJoinType} {lname rname : String}
    {lalias ralias a : Option Alias} {quals : PgNode} (htype : type ≠ .other)
    (hquals : (quals.isNull || isCondition false quals) = true) (s : ParserState) :
    Builds (nodes (.joinExpr type (.rangeVar lname lalias) (.rangeVar rname ralias) quals a)) s
      (parseFromJoin type (.rangeVar lname lalias) (.rangeVar rname ralias) a <| orNull quals do
        let (p, _) ← parseWhereExpression quals .hole false
        return p) 0 parts fun _ _ => True := by
  obtain ⟨p, hp, hm, hplain⟩ : ∃ p, (orNull quals do
      let (p, _) ← parseWhereExpression quals .hole false
      return p) = pure p ∧ markers p = [] ∧ IsPlain quals := by
    cases hnull : quals.isNull with
    | true =>
      rw [eq_nullptr_of_isNull hnull]
      exact ⟨.nullptr, rfl, rfl, isPlain_nullptr⟩
    | false =>
      rw [hnull, Bool.false_or] at hquals
      obtain ⟨p, hp, hm, -⟩ := parseCondition_eq_pure hquals
      exact ⟨p, by simp [orNull, hnull, hp], hm, isPlain_condition hquals⟩
  obtain ⟨joinType, hjoin, hitems⟩ : ∃ joinType, joinTypeOf type = some joinType ∧
      ∀ name columns, joinItems ⟨joinType, p, name, columns, 0⟩ = [.join type name columns] := by
    cases type with
    | inner => exact ⟨.inner, rfl, fun _ _ => rfl⟩
    | left => exact ⟨.left, rfl, fun _ _ => rfl⟩
    | other => exact absurd rfl htype
  have hpure : ofOption (joinTypeOf type) = pure joinType := by rw [hjoin]; rfl
  rw [hp]
  simp only [parseFromJoin, hpure, pure_bind]
  have hitem : itemOf (.joinExpr type (.rangeVar lname lalias) (.rangeVar rname ralias) quals a) =
      some (.join type ((a.map Alias.aliasname).getD "") ((a.map Alias.colnames).getD [])) := rfl
  generalize (a.map Alias.aliasname).getD "" = name at hitem ⊢
  generalize (a.map Alias.colnames).getD [] = columns at hitem ⊢
  have hid := (Builds.newId s 0).item hitem rfl
  have hjoined : ∀ (i : Nat) (l r : RaNode) (s₃ : ParserState),
      Builds [] s₃ (pure (.join i ⟨joinType, p, name, columns, 0⟩ l r))
        (0 + { ids := {i} } + { items := {.join type name columns} } + parts l + parts r) parts
        fun _ _ => True := by
    intro i l r s₃
    refine Builds.pure ?_ trivial
    simp only [parts, hitems]
    congr 2
    apply Parts.ext <;> simp [nodeParts, markerParts, allMarkers, hm]
  have hbind := Builds.bind hid fun i s₁ _ _ =>
    Builds.bind (builds_relationOf lname lalias s₁ _) fun l s₂ _ _ =>
      Builds.bind (builds_relationOf rname ralias s₂ _) fun r s₃ _ _ => hjoined i l r s₃
  have hnodes : nodes (.joinExpr type (.rangeVar lname lalias) (.rangeVar rname ralias) quals a) =
      ([] ++ [.joinExpr type (.rangeVar lname lalias) (.rangeVar rname ralias) quals a] ++
        ([.rangeVar lname lalias] ++ ([.rangeVar rname ralias] ++ []))) ++ nodes quals := by
    simp [nodes]
  rw [hnodes]
  exact Builds.plain hbind hplain

private theorem builds_parseFromItems {ns : List PgNode} (h : ∀ n ∈ ns, FromItemBuilds n)
    (s : ParserState) :
    Builds (allNodes ns) s (parseFromItems ns) 0 allParts fun rs _ => rs.length = ns.length := by
  induction ns generalizing s with
  | nil =>
    rw [parseFromItems]
    exact Builds.pure rfl rfl
  | cons n ns ih =>
    rw [List.forall_mem_cons] at h
    rw [parseFromItems, allNodes]
    refine Builds.bind (h.1 s) fun r s₁ hr _ => ?_
    obtain ⟨r, rfl⟩ := Option.isSome_iff_exists.mp hr
    have hcons : ∀ (rs : List RaNode) (s₂ : ParserState), rs.length = ns.length →
        s₁.nextId ≤ s₂.nextId →
        Builds [] s₂ (pure (r :: rs)) (allParts rs + allParts (some r).toList) allParts
          fun rs _ => rs.length = (n :: ns).length :=
      fun rs s₂ hrs _ => Builds.pure (by simp [add_comm]) (by simp [hrs])
    simpa using Builds.bind ((ih h.2 s₁).frame (allParts (some r).toList)) hcons

private theorem attachTo_hole (base : RaNode) (s : ParserState) : attachTo base .hole s = none := by
  cases h : findEmptyLeaf base <;> simp [attachTo, ofOption, addSubtree, h, RaNode.isHole]

/-- A null pointer among several FROM items cannot be attached. -/
private theorem addRelations_hole {rs : List RaNode} (h : .hole ∈ rs) (base : RaNode)
    (s : ParserState) : addRelations base rs s = none := by
  rw [Option.eq_none_iff_forall_ne_some]
  intro t ht
  fun_induction addRelations base rs generalizing s with
  | case1 => cases h
  | case2 base r =>
    rw [List.mem_singleton] at h
    rw [← h, attachTo_hole] at ht
    cases ht
  | case3 base r r' =>
    obtain ⟨base', s₁, hr, hr'⟩ := bind_eq_some.mp ht
    rcases List.mem_cons.mp h with rfl | h
    · rw [attachTo_hole] at hr
      cases hr
    · rw [List.mem_singleton] at h
      rw [← h, attachTo_hole] at hr'
      cases hr'
  | case4 base r rs _ _ ih =>
    obtain ⟨base', s₁, hr, ht⟩ := bind_eq_some.mp ht
    rcases List.mem_cons.mp h with rfl | h
    · rw [attachTo_hole] at hr
      cases hr
    · obtain ⟨id, s₂, -, ht⟩ := bind_eq_some.mp ht
      obtain ⟨base'', s₃, -, ht⟩ := bind_eq_some.mp ht
      exact ih base'' h s₃ ht

private theorem attachTo_cross {K : List Frame} {i : Nat} {join : Join} {r sub : RaNode}
    (hK : ∀ f ∈ K, ∃ i join r, f = .left i join r ∧ r ≠ .hole) (hsub : sub ≠ .hole)
    (hi : i ∉ sub.ids) :
    attachTo (plug K (.join i join .hole r)) sub =
      pure (plug K (insertChild sub (.join i join .hole r))) := by
  rw [attachTo, addSubtree_cross hK hsub hi]
  rfl

/-- A cross product that only lists FROM items. -/
def crossJoin : Join := { type := .crossProduct }

theorem parts_cross (i : Nat) (l r : RaNode) :
    parts (.join i crossJoin l r) = { ids := {i} } + parts l + parts r := by
  simp only [parts]
  congr 2

/-- The loop of `parse_from` from a lowest cross product without children. -/
private theorem builds_addRelations {rs : List RaNode} {K : List Frame} {i low : Nat}
    {s : ParserState} (hlen : 2 ≤ rs.length)
    (hK : ∀ f ∈ K, ∃ i join r, f = .left i join r ∧ r ≠ .hole) (hrs : ∀ r ∈ rs, r ≠ .hole)
    (hids : ∀ r ∈ rs, ∀ j ∈ r.ids, j < low) (hi : low ≤ i) (hs : i < s.nextId) :
    Builds [] s (addRelations (plug K (.join i crossJoin .hole .hole)) rs)
      (contextParts K + { ids := {i} } + allParts rs) parts fun _ _ => True := by
  induction rs generalizing K i s with
  | nil => cases hlen
  | cons r rs ih =>
    rw [List.forall_mem_cons] at hrs hids
    have hfresh : ∀ {r : RaNode} {i : Nat}, (∀ j ∈ r.ids, j < low) → low ≤ i → i ∉ r.ids :=
      fun hr hi hmem => absurd (hr _ hmem) (Nat.not_lt.mpr hi)
    match rs, hlen with
    | [r'], _ =>
      simp only [List.mem_singleton, forall_eq] at hrs hids
      rw [addRelations, attachTo_cross hK hrs.1 (hfresh hids.1 hi), pure_bind]
      have hinsert : insertChild r (.join i crossJoin .hole .hole) = .join i crossJoin .hole r := rfl
      have hinsert' : insertChild r' (.join i crossJoin .hole r) = .join i crossJoin r' r := by
        cases r <;> first | rfl | exact absurd rfl hrs.1
      rw [hinsert, attachTo_cross hK hrs.2 (hfresh hids.2 hi), hinsert']
      refine Builds.pure ?_ trivial
      rw [parts_plug, parts_cross, allParts_cons, allParts_cons, allParts_nil]
      abel
    | r' :: r'' :: rs', _ =>
      rw [addRelations, attachTo_cross hK hrs.1 (hfresh hids.1 hi), pure_bind]
      · have hnext : ∀ (id : Nat) (s₁ : ParserState),
            (id = s.nextId ∧ s₁ = { s with nextId := s.nextId + 1 }) → s.nextId ≤ s₁.nextId →
            Builds [] s₁ (do
                let base ← attachTo (plug K (insertChild r (.join i crossJoin .hole .hole)))
                  (.join id crossJoin .hole .hole)
                addRelations base (r' :: r'' :: rs'))
              (contextParts K + { ids := {i} } + allParts (r :: r' :: r'' :: rs') + { ids := {id} })
              parts fun _ _ => True := by
          rintro id s₁ ⟨rfl, rfl⟩ -
          have hinsert : insertChild (.join s.nextId crossJoin .hole .hole)
              (insertChild r (.join i crossJoin .hole .hole)) =
                .join i crossJoin (.join s.nextId crossJoin .hole .hole) r := by
            cases r <;> first | rfl | exact absurd rfl hrs.1
          have hcross : insertChild r (.join i crossJoin .hole .hole) = .join i crossJoin .hole r := rfl
          rw [hcross, attachTo_cross hK (by simp) (by simp [RaNode.ids]; omega), ← hcross, hinsert,
            pure_bind]
          refine (ih (K := .left i crossJoin r :: K) (i := s.nextId) (by simp) ?_ hrs.2 hids.2
            (hi.trans hs.le) (Nat.lt_succ_self _)).parts ?_ fun _ => rfl
          · exact List.forall_mem_cons.mpr ⟨⟨i, crossJoin, r, rfl, hrs.1⟩, hK⟩
          · have hframe : frameParts (.left i crossJoin r) = { ids := {i} } + parts r := by
              simp only [frameParts]
              congr 1
            simp only [contextParts, List.map_cons, List.sum_cons, hframe, allParts_cons]
            abel
        exact Builds.bind (Builds.newId s _) hnext
      all_goals simp

private theorem holes_le_of_mem {ts : List RaNode} {t : RaNode} (h : t ∈ ts) :
    (parts t).holes ≤ (allParts ts).holes := by
  induction ts with
  | nil => cases h
  | cons u ts ih =>
    rw [allParts_cons, Parts.holes_add]
    rcases List.mem_cons.mp h with rfl | h
    · exact Nat.le_add_right _ _
    · exact (ih h).trans (Nat.le_add_left _ _)

private theorem ids_subset_of_mem {ts : List RaNode} {t : RaNode} (h : t ∈ ts) {i : Nat}
    (hi : i ∈ t.ids) : i ∈ (allParts ts).ids := by
  induction ts with
  | nil => cases h
  | cons u ts ih =>
    rw [allParts_cons, Parts.ids_add, Multiset.mem_add]
    rcases List.mem_cons.mp h with rfl | h
    · exact .inl (by simpa using hi)
    · exact .inr (ih h)

/-- Two or more FROM items are listed below cross products. -/
private theorem builds_cross {r r' : RaNode} {rs : List RaNode} {s s₁ : ParserState}
    (hids : ∀ i ∈ (allParts (r :: r' :: rs)).ids, s.nextId ≤ i ∧ i < s₁.nextId)
    (hne : ∀ t ∈ r :: r' :: rs, t ≠ .hole) :
    Builds [] s₁ (do
        let id ← newId
        addRelations (.join id { type := .crossProduct } .hole .hole) (r :: r' :: rs))
      (allParts (r :: r' :: rs)) parts fun _ _ => True := by
  have hadd : ∀ (id : Nat) (s₂ : ParserState),
      (id = s₁.nextId ∧ s₂ = { s₁ with nextId := s₁.nextId + 1 }) → s₁.nextId ≤ s₂.nextId →
      Builds [] s₂ (addRelations (.join id crossJoin .hole .hole) (r :: r' :: rs))
        (allParts (r :: r' :: rs) + { ids := {id} }) parts fun _ _ => True := by
    rintro id s₂ ⟨rfl, rfl⟩ -
    refine (builds_addRelations (K := []) (by simp) nofun hne
      (fun t ht i hi => (hids i (ids_subset_of_mem ht hi)).2) le_rfl (Nat.lt_succ_self _)).parts ?_
      fun _ => rfl
    simp [contextParts, add_comm]
  exact Builds.bind (Builds.newId s₁ _) hadd

/-- `SQLtoRA::parse_from`. -/
private theorem builds_parseFrom {ns : List PgNode} (h : ∀ n ∈ ns, FromItemBuilds n)
    (s : ParserState) :
    Builds (allNodes ns) s (parseFrom ns.isEmpty (parseFromItems ns)) 0 parts fun _ _ => True := by
  cases ns with
  | nil =>
    have hdummy : ∀ (i : Nat) (s₁ : ParserState),
        Builds [] s₁ (pure (.leaf i .dummy)) (0 + { ids := {i} }) parts fun _ _ => True :=
      fun i s₁ => Builds.pure rfl trivial
    exact Builds.bind (Builds.newId s 0) fun i s₁ _ _ => hdummy i s₁
  | cons n ns =>
    have hitems := ((builds_parseFromItems h s).fresh rfl).whole rfl
    rw [parseFrom, List.isEmpty_cons, if_neg (by simp), ← List.append_nil (allNodes (n :: ns))]
    refine Builds.bind_of hitems ?_ ?_
    · rintro rs s₁ ⟨⟨hlen, hids⟩, -⟩ hle
      match rs, hlen with
      | [r], _ => exact (Builds.pure (by simp) trivial).1
      | r :: r' :: rs, _ =>
        by_cases hhole : RaNode.hole ∈ r :: r' :: rs
        · intro t s₂ ht
          obtain ⟨id, s₃, -, ht⟩ := bind_eq_some.mp ht
          simp [addRelations_hole hhole] at ht
        · exact (builds_cross hids (fun t ht hh => hhole (hh ▸ ht))).1
    · rintro rs s₁ ⟨⟨hlen, hids⟩, hwhole⟩ hle hgood -
      match rs, hlen with
      | [r], _ => rfl
      | r :: r' :: rs, _ => 
        have hne : ∀ t ∈ r :: r' :: rs, t ≠ .hole := by
          rintro t ht rfl
          have hle := holes_le_of_mem ht
          rw [hwhole hgood] at hle
          simp [parts] at hle
        exact (builds_cross hids hne).2 rfl

/-- A CTE becomes a renamed query block. -/
def CteBuilds (n : PgNode) : Prop := ∀ s, Builds (nodes n) s (parseCte n) 0 parts fun _ _ => True

private theorem builds_parseWith {ns : List PgNode} (h : ∀ n ∈ ns, CteBuilds n) (s : ParserState) :
    Builds (allNodes ns) s (parseWith ns) 0 (fun _ => 0) fun _ _ => True := by
  induction ns generalizing s with
  | nil =>
    rw [parseWith]
    exact Builds.pure rfl trivial
  | cons n ns ih =>
    rw [List.forall_mem_cons] at h
    rw [parseWith, allNodes]
    refine Builds.bind (h.1 s) fun cte s₁ _ _ => ?_
    have hpush := (Builds.pushCte s₁ 0 cte).parts (zero_add _) fun _ => rfl
    exact Builds.bind hpush fun _ s₂ _ _ => ih h.2 s₂

/-- The FROM tree takes the last empty place. -/
private theorem builds_fromClause {ns : List PgNode} (h : ∀ n ∈ ns, FromItemBuilds n)
    {s : ParserState} {root : RaNode} (hroot : UnderConstruction s root) :
    Builds (allNodes ns) s (do
        let t ← parseFrom ns.isEmpty (parseFromItems ns)
        attachPresent root t)
      (parts root) (fun t => parts t + parts .hole) fun t _ => SameRoot root t := by
  have hfrom := ((builds_parseFrom h s).fresh rfl).frame (parts root)
  have hattach : ∀ (t : RaNode) (s₁ : ParserState), (True ∧
      ∀ i ∈ (parts t).ids, s.nextId ≤ i ∧ i < s₁.nextId) → s.nextId ≤ s₁.nextId →
      Builds [] s₁ (attachPresent root t) (parts t + parts root) (fun t => parts t + parts .hole)
        fun t _ => SameRoot root t := by
    rintro t s₁ ⟨-, hids⟩ hle
    refine ((builds_attach hroot.leftOpen hroot.ids_lt fun i hi =>
      (hids i (by simpa using hi)).1).mono ?_).parts (add_comm _ _) fun _ => rfl
    rintro u s' ⟨-, ⟨-, rfl⟩ | ⟨-, rfl⟩⟩
    · exact fun i op c h => ⟨c, h⟩
    · exact sameRoot_graft t root
  simpa using Builds.bind hfrom hattach

private theorem IsBlock.sameRoot {t u : RaNode} (ht : IsBlock t) (h : SameRoot t u) : IsBlock u := by
  obtain ⟨i, pr, c, rfl, hpr⟩ := ht
  obtain ⟨c', rfl⟩ := h _ _ _ rfl
  exact ⟨i, pr, c', rfl, hpr⟩

/-- What is built for an AST node, by the place in which it is supported. -/
private structure NodeBuilds (n : PgNode) : Prop where
  condition : isCondition true n = true → ConditionBuilds n := by rintro ⟨⟩
  statement : isSelect n = true → StatementBuilds n := by rintro ⟨⟩
  subselect : SubselectBuilds n := by rintro _ _ _ ⟨⟩
  fromItem : isFromItem n = true → FromItemBuilds n := by rintro ⟨⟩
  cte : isCte n = true → CteBuilds n := by rintro ⟨⟩

/-- The clauses of a SELECT statement, one after the other. -/
private theorem builds_selectStmt {distinct : Bool} {targetList fromClause groupClause sortClause
    withClause : List PgNode} {whereClause havingClause : PgNode}
    (hfrom : ∀ n ∈ fromClause, NodeBuilds n) (hwhere : NodeBuilds whereClause)
    (hhaving : NodeBuilds havingClause) (hwith : ∀ n ∈ withClause, NodeBuilds n)
    (h : isSelect (.selectStmt distinct targetList fromClause whereClause groupClause havingClause
      sortClause withClause) = true) :
    StatementBuilds (.selectStmt distinct targetList fromClause whereClause groupClause havingClause
      sortClause withClause) := by
  intro s
  simp only [isSelect, Bool.and_eq_true, areCtes_eq_all, areFromItems_eq_all, List.all_eq_true] at h
  obtain ⟨⟨⟨⟨⟨⟨hctes, htargets⟩, hsorts⟩, hhave⟩, hgroup⟩, hcond⟩, hitems⟩ := h
  rw [parseSelectStatement]
  refine Builds.unframe (parts .hole) ?_
  have hctes' := builds_parseWith fun n hn => (hwith n hn).cte (hctes n hn)
  have hfrom' := fun n hn => (hfrom n hn).fromItem (hitems n hn)
  have hbind := Builds.bind ((hctes' s).frame (parts .hole)) fun _ s₁ _ _ =>
    ((Builds.bind (builds_parseSelect htargets distinct (groupClause.isEmpty &&
        anyAggregate (targetList.map targetValue)) s₁) fun root s₂ hroot _ =>
      Builds.bind (builds_clause (builds_parseOrderBy hsorts s₂) hroot.1) fun root₁ s₃ hroot₁ _ =>
      Builds.bind (builds_clause (builds_parseHaving hhave hhaving.condition s₃) hroot₁.1)
        fun root₂ s₄ hroot₂ _ =>
      Builds.bind (builds_clause (builds_parseGroupBy hgroup s₄) hroot₂.1) fun root₃ s₅ hroot₃ _ =>
      Builds.bind (builds_clause (builds_parseWhere hcond hwhere.condition s₅) hroot₃.1)
        fun root₄ s₆ hroot₄ _ =>
      (builds_fromClause hfrom' hroot₄.1).mono fun t _ ht => show IsBlock t from
        hroot.2.sameRoot (hroot₁.2.trans (hroot₂.2.trans (hroot₃.2.trans (hroot₄.2.trans ht))))).parts
          (zero_add _).symm fun _ => rfl)
  have hself : ∀ d ∈ [PgNode.selectStmt distinct targetList fromClause whereClause groupClause
      havingClause sortClause withClause], itemOf d = none ∧ isBuildableNode d = true := by
    simp [itemOf, isBuildableNode, hasLeftSubquery, isCorrelatedDerived]
  have hnodes := (hbind.plain hself).perm List.perm_append_comm
  simpa only [nodes, bind_assoc, List.append_assoc, List.singleton_append] using hnodes

/-- A condition without subqueries. -/
private theorem conditionBuilds_plain {n : PgNode} (h : isCondition false n = true) :
    ConditionBuilds n := by
  intro s sel negated hsel
  obtain ⟨p, hp, hm, hpres⟩ := parseCondition_eq_pure h
  rw [hp]
  exact (Builds.pure (by simp [exprParts_of_markers hm])
    ⟨hpres, hsel, fun i op c hc => ⟨c, hc⟩⟩).plain (isPlain_condition h)

private theorem builds_some (t : RaNode) (s : ParserState) :
    Builds [] s (pure (some t)) (parts t) (fun r => allParts r.toList) fun r _ => r.isSome = true :=
  Builds.pure (by simp) rfl

/-- Every supported node is built. -/
private theorem nodeBuilds (n : PgNode) : NodeBuilds n := by
  induction n using PgNode.ind with
  | aExpr kind name lexpr rexpr ihl ihr =>
    refine { condition := fun h s sel negated hsel => ?_ }
    by_cases hkind : kind = .inList
    · refine conditionBuilds_plain ?_ s sel negated hsel
      simpa [isCondition, hkind] using h
    · simp only [isCondition, if_neg hkind, Bool.and_eq_true, Bool.true_and] at h
      rw [parseWhereExpression, if_neg hkind]
      exact builds_comparison h.1.2 h.2 ihr.subselect hsel kind name
  | boolExpr op args ih =>
    refine { condition := fun h s sel negated hsel => ?_ }
    have hself : ∀ d ∈ [PgNode.boolExpr op args], itemOf d = none ∧ isBuildableNode d = true := by
      simp [itemOf, isBuildableNode, hasLeftSubquery, isCorrelatedDerived]
    have hargs := (builds_parseWhereArgs h (fun n hn => (ih n hn).condition) hsel
      (decide (op = .not))).plain hself
    rw [parseWhereExpression, nodes]
    have hbool : ∀ (r : List Expr × RaNode) (s₁ : ParserState),
        UnderConstruction s₁ r.2 ∧ SameRoot sel r.2 → s.nextId ≤ s₁.nextId →
        Builds [] s₁ (pure (Expr.boolPredicate op r.1, r.2)) (parts r.2 + exprParts (.list r.1))
          (fun r => parts r.2 + exprParts r.1)
          fun r s' => r.1.isPresent = true ∧ UnderConstruction s' r.2 ∧ SameRoot sel r.2 :=
      fun r s₁ hr _ => Builds.pure rfl ⟨rfl, hr⟩
    refine (Builds.bind hargs hbool).perm ?_
    rw [List.append_nil]
    exact List.perm_append_comm
  | nullTest arg type ih =>
    exact { condition := fun h => conditionBuilds_plain (n := .nullTest arg type) h }
  | subLink type testexpr subselect iht ihs =>
    refine { condition := fun h s sel negated hsel => ?_, subselect := ?_ }
    · simp only [isCondition, Bool.true_and, Bool.and_eq_true] at h
      rw [parseWhereExpression]
      exact builds_whereSublink h.1 h.2.1 (ihs.statement h.2.2) hsel negated
    · rintro type' testexpr' subselect' heq hselect
      obtain ⟨-, -, rfl⟩ := PgNode.subLink.inj heq
      exact ihs.statement hselect
  | rangeVar relname a =>
    refine { fromItem := fun _ s => ?_ }
    rw [parseFromItem]
    exact Builds.bind ((builds_relationOf relname a s 0).parts rfl fun t => zero_add (parts t))
      fun t s₁ _ _ => builds_some t s₁
  | rangeSubselect subquery a ih =>
    refine { fromItem := fun h s => ?_ }
    simp only [isFromItem, Bool.and_eq_true, decide_eq_true_eq] at h
    rw [parseFromItem, ← List.append_nil (nodes _)]
    exact Builds.bind (builds_parseFromSubquery (ih.statement h.2.2) h.2.1 h.1 s)
      fun t s₁ _ _ => builds_some t s₁
  | joinExpr type larg rarg quals a ihl ihr ihq =>
    refine { fromItem := fun h s => ?_ }
    obtain ⟨lname, lalias, rname, ralias, rfl, rfl⟩ := eq_rangeVars_of_isFromItem h
    simp only [isFromItem, Bool.and_eq_true, decide_eq_true_eq] at h
    rw [parseFromItem, ← List.append_nil (nodes _)]
    exact Builds.bind (builds_parseFromJoin h.1 h.2 s) fun t s₁ _ _ => builds_some t s₁
  | commonTableExpr name cols query ih =>
    refine { cte := fun h s => ?_ }
    simp only [isCte, Bool.and_eq_true, decide_eq_true_eq] at h
    rw [parseCte]
    exact builds_renameProjection (n := .commonTableExpr name cols query) (ih.statement h.2) h.1
      rfl rfl s
  | selectStmt distinct targetList fromClause whereClause groupClause havingClause sortClause
      withClause iht ihf ihw ihg ihh ihs ihc =>
    exact { statement := builds_selectStmt ihf ihw ihh ihc }
  | _ => exact {}

/-- The trees `ts`, the main tree and the CTEs, are what `stmt` stands for: every node is
full, no node occurs twice, every FROM item, CTE and subquery of `stmt` occurs once, and
every marker in a predicate is the marker of exactly one join. -/
structure WellBuilt (stmt : PgNode) (ts : List RaNode) : Prop where
  full : ∀ t ∈ ts, t.Full
  distinct : (ts.flatMap RaNode.ids).Nodup
  items : (allParts ts).items = statementItems stmt
  markers : ∀ m ∈ (allParts ts).markers, (allParts ts).joinMarkers.count m = 1

private theorem full_iff_allParts {ts : List RaNode} :
    (∀ t ∈ ts, t.Full) ↔ (allParts ts).holes = 0 := by
  induction ts with
  | nil => simp
  | cons t ts ih =>
    rw [List.forall_mem_cons, full_iff_holes, ih]
    simp

private theorem ids_allParts (ts : List RaNode) : (allParts ts).ids = ts.flatMap RaNode.ids := by
  induction ts with
  | nil => rfl
  | cons t ts ih => simp [ih]

/-- What the parser builds for a supported statement is accounted for. -/
theorem parse_accounts {stmt : PgNode} (h : isSelect stmt = true) {t : RaNode} {s : ParserState}
    (hparse : parse stmt = some (t, s)) :
    IsBlock t ∧ Accounts (nodes stmt) {} s (allParts (t :: s.ctes)) := by
  obtain ⟨hblock, D, new, hD, hnew, hparts⟩ := ((nodeBuilds stmt).statement h {}).1 t s hparse
  have hctes : s.ctes = new := by simpa using hnew
  refine ⟨hblock, ?_⟩
  rw [allParts_cons, hctes, hparts, zero_add]
  exact hD

/-- The parser gives every address to one node. -/
theorem parse_addressed {stmt : PgNode} (h : isSelect stmt = true) {t : RaNode} {s : ParserState}
    (hparse : parse stmt = some (t, s)) : ∀ u ∈ t :: s.ctes, Addressed s.nextId u := by
  obtain ⟨-, haccounts⟩ := parse_accounts h hparse
  have hnodup := haccounts.ids_nodup
  have hmem := haccounts.ids_mem
  rw [ids_allParts] at hnodup hmem
  intro u hu
  refine ⟨(List.nodup_flatMap.mp (Multiset.coe_nodup.mp hnodup)).1 u hu, fun i hi => ?_⟩
  exact (hmem i (Multiset.mem_coe.mpr (List.mem_flatMap.mpr ⟨u, hu, hi⟩))).2

/-- No node of a tree is missing that the parser builds for a statement it can handle. -/
theorem parse_full {stmt : PgNode} (h : isSelect stmt = true) (hgood : isBuildable stmt = true)
    {t : RaNode} {s : ParserState} (hparse : parse stmt = some (t, s)) :
    ∀ u ∈ t :: s.ctes, u.Full :=
  full_iff_allParts.mpr ((parse_accounts h hparse).2.whole.mpr hgood)

/-- The parser does not fail on a statement that it can handle. -/
theorem exists_parse {stmt : PgNode} (h : isSelect stmt = true) (hgood : isBuildable stmt = true) :
    ∃ t s, parse stmt = some (t, s) := by
  have hsome := ((nodeBuilds stmt).statement h {}).2 hgood
  obtain ⟨⟨t, s⟩, hparse⟩ := Option.isSome_iff_exists.mp hsome
  exact ⟨t, s, hparse⟩

/-- A statement with three FROM items, a FROM subquery with a WHERE clause, nested EXISTS
and IN subqueries and a scalar subquery on the right. -/
def nestedStatement : PgNode :=
  let star := PgNode.resTarget "" (.columnRef ["*"])
  let column := fun r x => PgNode.columnRef [r, x]
  .selectStmt false [star]
    [.rangeVar "r" none,
      .rangeSubselect (.selectStmt false [star] [.rangeVar "s" none]
        (.aExpr .op "=" (column "s" "x") (.aConst (.integer 1))) [] .nullptr [] []) ⟨"d", []⟩,
      .rangeVar "t" (some ⟨"u", []⟩)]
    (.boolExpr .and
      [.subLink .exists .nullptr (.selectStmt false [star] [.rangeVar "i" none]
        (.subLink .any (column "i" "a")
          (.selectStmt false [.resTarget "" (column "k" "a")] [.rangeVar "k" none] .nullptr []
            .nullptr [] [])) [] .nullptr [] []),
        .aExpr .op "<" (column "r" "y")
          (.subLink .expr .nullptr (.selectStmt false
            [.resTarget "" (.funcCall "min" [column "s" "x"] false false)] [.rangeVar "s" none]
            (.aExpr .op "=" (column "s" "y") (column "r" "y")) [] .nullptr [] []))])
    [] .nullptr [] []

/-- `select * from r where (select min(s.x) from s) < r.y`. -/
def leftSubquery : PgNode :=
  .selectStmt false [.resTarget "" (.columnRef ["*"])] [.rangeVar "r" none]
    (.aExpr .op "<"
      (.subLink .expr .nullptr (.selectStmt false
        [.resTarget "" (.funcCall "min" [.columnRef ["s", "x"]] false false)] [.rangeVar "s" none]
        .nullptr [] .nullptr [] []))
      (.columnRef ["r", "y"]))
    [] .nullptr [] []

end SqlOptimizer.Parse.ParsedTree
