import SqlOptimizer.Parse.ParseSqlToRa
import SqlOptimizer.Parse.Inventory

/-!
The SELECT statements that the parser has cases for, and what they are made of: their
FROM items, CTEs and subqueries. Expressions hold none of these, and the parser reads
them without touching its state.
-/

set_option autoImplicit false
set_option relaxedAutoImplicit false

namespace SqlOptimizer.Parse.Supported

open Algebra.RelationalAlgebra
open PgQuery Correlation Builder ParseSqlToRa Inventory

mutual

/-- The node and the nodes below it. -/
def nodes : PgNode → List PgNode
  | .aExpr kind name lexpr rexpr => .aExpr kind name lexpr rexpr :: (nodes lexpr ++ nodes rexpr)
  | .funcCall f args star distinct => .funcCall f args star distinct :: allNodes args
  | .typeCast type typmod arg => .typeCast type typmod arg :: nodes arg
  | .caseExpr args d => .caseExpr args d :: (allNodes args ++ nodes d)
  | .caseWhen expr result => .caseWhen expr result :: (nodes expr ++ nodes result)
  | .list items => .list items :: allNodes items
  | .boolExpr op args => .boolExpr op args :: allNodes args
  | .nullTest arg type => .nullTest arg type :: nodes arg
  | .subLink type testexpr subselect =>
      .subLink type testexpr subselect :: (nodes testexpr ++ nodes subselect)
  | .resTarget name val => .resTarget name val :: nodes val
  | .sortBy node dir => .sortBy node dir :: nodes node
  | .rangeSubselect subquery a => .rangeSubselect subquery a :: nodes subquery
  | .joinExpr type larg rarg quals a =>
      .joinExpr type larg rarg quals a :: (nodes larg ++ nodes rarg ++ nodes quals)
  | .commonTableExpr name cols query => .commonTableExpr name cols query :: nodes query
  | .selectStmt distinct targetList fromClause whereClause groupClause havingClause sortClause
      withClause =>
      .selectStmt distinct targetList fromClause whereClause groupClause havingClause sortClause
        withClause :: (allNodes withClause ++ allNodes targetList ++ allNodes sortClause ++
          nodes havingClause ++ allNodes groupClause ++ nodes whereClause ++ allNodes fromClause)
  | n => [n]

def allNodes : List PgNode → List PgNode
  | [] => []
  | n :: ns => nodes n ++ allNodes ns

end

/-- The FROM item, CTE or subquery that a node stands for. -/
def itemOf : PgNode → Option Item
  | .rangeVar relname a => some (.relation relname ((a.map Alias.aliasname).getD ""))
  | .rangeSubselect _ a => some (.derived a.aliasname a.colnames)
  | .joinExpr type _ _ _ a =>
      some (.join type ((a.map Alias.aliasname).getD "") ((a.map Alias.colnames).getD []))
  | .commonTableExpr name cols _ => some (.derived name cols)
  | .subLink type _ _ => some (.subquery type)
  | _ => none

/-- The FROM items, CTEs and subqueries of a statement. -/
def statementItems (n : PgNode) : List Item := (nodes n).filterMap itemOf

/-- A comparison with a subquery as its left operand. -/
def hasLeftSubquery : PgNode → Bool
  | .aExpr _ _ (.subLink _ _ _) _ => true
  | _ => false

/-- A FROM subquery that the parser takes for a correlated one. -/
def isCorrelatedDerived : PgNode → Bool
  | .rangeSubselect subquery _ => isCorrelatedSubquery subquery = some true
  | _ => false

def isBuildableNode (n : PgNode) : Bool := !hasLeftSubquery n && !isCorrelatedDerived n

/-- No comparison below the node has a subquery on its left, and no FROM subquery is taken
for a correlated one. -/
def isBuildable (n : PgNode) : Bool := (nodes n).all isBuildableNode

mutual

/-- Expressions without subqueries. -/
def isExpression : PgNode → Bool
  | .columnRef fields => (columnRefAttribute fields).isSome
  | .aConst val => val ≠ .other
  | .aExpr _ _ lexpr rexpr =>
      (lexpr.isNull || isExpression lexpr) && (rexpr.isNull || isExpression rexpr)
  | .funcCall _ args _ _ => areExpressions args
  | .typeCast _ typmod arg => (typModText typmod).isSome && isExpression arg
  | .caseExpr args d => areWhens args && (d.isNull || isExpression d)
  | _ => false

def areExpressions : List PgNode → Bool
  | [] => true
  | n :: ns => isExpression n && areExpressions ns

def isWhen : PgNode → Bool
  | .caseWhen expr result => isCondition false expr && isExpression result
  | _ => false

def areWhens : List PgNode → Bool
  | [] => true
  | n :: ns => isWhen n && areWhens ns

def isItemList : PgNode → Bool
  | .list items => areExpressions items
  | _ => false

/-- A scalar subquery. -/
def isScalarSubquery : PgNode → Bool
  | .subLink .expr .nullptr subselect => (isCorrelatedSubquery subselect).isSome && isSelect subselect
  | _ => false

/-- SELECT statements. Where one is nested, `is_correlated_subquery` must not follow a null
pointer. -/
def isSelect : PgNode → Bool
  | .selectStmt _ targetList fromClause whereClause groupClause havingClause sortClause
      withClause =>
      areCtes withClause && areTargets targetList && areSorts sortClause &&
        (havingClause.isNull || isCondition true havingClause) && areExpressions groupClause &&
        (whereClause.isNull || isCondition true whereClause) && areFromItems fromClause
  | _ => false

/-- WHERE and HAVING conditions, with or without subqueries. -/
def isCondition (sublinks : Bool) : PgNode → Bool
  | .boolExpr _ args => areConditions sublinks args
  | .aExpr kind _ lexpr rexpr =>
      if kind = .inList then isExpression lexpr && isItemList rexpr
      else kind ≠ .other && (isExpression lexpr || (sublinks && isScalarSubquery lexpr)) &&
        (isExpression rexpr || isItemList rexpr || (sublinks && isScalarSubquery rexpr))
  | .subLink type testexpr subselect =>
      sublinks && ((type = .exists && testexpr.isNull) || (type = .any && isExpression testexpr)) &&
        ((isCorrelatedSubquery subselect).isSome && isSelect subselect)
  | .nullTest arg _ => isExpression arg
  | _ => false

def areConditions (sublinks : Bool) : List PgNode → Bool
  | [] => true
  | n :: ns => isCondition sublinks n && areConditions sublinks ns

def isTarget : PgNode → Bool
  | .resTarget _ val => isExpression val
  | _ => false

def areTargets : List PgNode → Bool
  | [] => true
  | n :: ns => isTarget n && areTargets ns

def isSort : PgNode → Bool
  | .sortBy node _ => isExpression node
  | _ => false

def areSorts : List PgNode → Bool
  | [] => true
  | n :: ns => isSort n && areSorts ns

/-- Relations, FROM subqueries with an alias, and joins of two relations. -/
def isFromItem : PgNode → Bool
  | .rangeVar _ _ => true
  | .rangeSubselect subquery a => 
      a.aliasname ≠ "" && ((isCorrelatedSubquery subquery).isSome && isSelect subquery)
  | .joinExpr type (.rangeVar _ _) (.rangeVar _ _) quals _ =>
      type ≠ .other && (quals.isNull || isCondition false quals)
  | _ => false

def areFromItems : List PgNode → Bool
  | [] => true
  | n :: ns => isFromItem n && areFromItems ns

def isCte : PgNode → Bool
  | .commonTableExpr name _ query => name ≠ "" && isSelect query
  | _ => false

def areCtes : List PgNode → Bool
  | [] => true
  | n :: ns => isCte n && areCtes ns

end

/-- The node holds no FROM item and no subquery. -/
def IsPlain (n : PgNode) : Prop := ∀ d ∈ nodes n, itemOf d = none ∧ isBuildableNode d = true

/-- The items of a supported join are tables. -/
theorem eq_rangeVars_of_isFromItem {type : PgJoinType} {larg rarg quals : PgNode}
    {a : Option Alias} (h : isFromItem (.joinExpr type larg rarg quals a) = true) :
    ∃ lname lalias rname ralias, larg = .rangeVar lname lalias ∧ rarg = .rangeVar rname ralias := by
  cases larg with
  | rangeVar lname lalias =>
    cases rarg with
    | rangeVar rname ralias => exact ⟨lname, lalias, rname, ralias, rfl, rfl⟩
    | _ => cases h
  | _ => cases h

/-- What the parser does with a node that holds no subquery. -/
private structure ReadsPlainly (n : PgNode) : Prop where
  expression : isExpression n = true → ∃ e, parseExpression n = pure e ∧ markers e = [] := by
    rintro ⟨⟩
  items : isItemList n = true → ∃ es, parseItems n = pure es ∧ allMarkers es = [] := by rintro ⟨⟩
  case : isWhen n = true → ∃ e, parseWhen n = pure e ∧ markers e = [] := by rintro ⟨⟩
  condition : isCondition false n = true →
    ∃ p, (∀ sel negated, parseWhereExpression n sel negated = pure (p, sel)) ∧ markers p = [] ∧
      p.isPresent = true := by rintro ⟨⟩

private theorem parseExpressions_eq_mapM (ns : List PgNode) :
    parseExpressions ns = ns.mapM parseExpression := by
  induction ns with
  | nil => simp [parseExpressions]
  | cons n ns ih => simp [parseExpressions, ih]

private theorem parseWhens_eq_mapM (ns : List PgNode) : parseWhens ns = ns.mapM parseWhen := by
  induction ns with
  | nil => simp [parseWhens]
  | cons n ns ih => simp [parseWhens, ih]

theorem areExpressions_eq_all (ns : List PgNode) : areExpressions ns = ns.all isExpression := by
  induction ns with
  | nil => rfl
  | cons n ns ih => simp [areExpressions, ih]

private theorem areWhens_eq_all (ns : List PgNode) : areWhens ns = ns.all isWhen := by
  induction ns with
  | nil => rfl
  | cons n ns ih => simp [areWhens, ih]

theorem areConditions_eq_all (sublinks : Bool) (ns : List PgNode) :
    areConditions sublinks ns = ns.all (isCondition sublinks) := by
  induction ns with
  | nil => rfl
  | cons n ns ih => simp [areConditions, ih]

/-- A list that is read element by element without touching the state. -/
theorem mapM_eq_pure {β : Type} {f : PgNode → Parser β} {m : β → List Nat} {ns : List PgNode}
    (h : ∀ n ∈ ns, ∃ e, f n = pure e ∧ m e = []) :
    ∃ es, ns.mapM f = pure es ∧ es.flatMap m = [] := by
  induction ns with
  | nil => exact ⟨[], by simp, rfl⟩
  | cons n ns ih =>
    rw [List.forall_mem_cons] at h
    obtain ⟨e, he, hm⟩ := h.1
    obtain ⟨es, hes, hms⟩ := ih h.2
    exact ⟨e :: es, by simp [he, hes], by simp [hm, hms]⟩

private theorem parseExpressions_eq_pure {ns : List PgNode} (h : areExpressions ns = true)
    (ih : ∀ n ∈ ns, ReadsPlainly n) :
    ∃ es, parseExpressions ns = pure es ∧ allMarkers es = [] := by
  rw [areExpressions_eq_all, List.all_eq_true] at h
  simp only [parseExpressions_eq_mapM, allMarkers_eq_flatMap]
  exact mapM_eq_pure fun n hn => (ih n hn).expression (h n hn)

private theorem parseWhens_eq_pure {ns : List PgNode} (h : areWhens ns = true)
    (ih : ∀ n ∈ ns, ReadsPlainly n) : ∃ es, parseWhens ns = pure es ∧ allMarkers es = [] := by
  rw [areWhens_eq_all, List.all_eq_true] at h
  simp only [parseWhens_eq_mapM, allMarkers_eq_flatMap]
  exact mapM_eq_pure fun n hn => (ih n hn).case (h n hn)

private theorem parseWhereArgs_eq_pure {ns : List PgNode} (h : areConditions false ns = true)
    (ih : ∀ n ∈ ns, ReadsPlainly n) :
    ∃ ps, (∀ sel negated, parseWhereArgs ns sel negated = pure (ps, sel)) ∧ allMarkers ps = [] := by
  induction ns with
  | nil => exact ⟨[], fun sel negated => by rw [parseWhereArgs], rfl⟩
  | cons n ns hns =>
    rw [List.forall_mem_cons] at ih
    rw [areConditions, Bool.and_eq_true] at h
    obtain ⟨p, hp, hm, hpres⟩ := ih.1.condition h.1
    obtain ⟨ps, hps, hms⟩ := hns h.2 ih.2
    exact ⟨p :: ps, fun sel negated => by simp [parseWhereArgs, hp, hps, hpres],
      by simp [allMarkers, hm, hms]⟩

private theorem orNull_eq_pure {n : PgNode} (h : (n.isNull || isExpression n) = true)
    (ih : ReadsPlainly n) : ∃ e, orNull n (parseExpression n) = pure e ∧ markers e = [] := by
  rw [Bool.or_eq_true] at h
  unfold orNull
  by_cases hn : n.isNull = true
  · exact ⟨.nullptr, by rw [if_pos hn], rfl⟩
  · rw [if_neg hn]
    exact ih.expression (h.resolve_left hn)

theorem operand_eq_pure {n : PgNode} {subquery : Parser RaNode} {e : Expr}
    (h : isExpression n = true) : operand n subquery (pure e) = pure (e, .hole) := by
  cases n <;> first | rfl | cases h

theorem rightOperand_eq_pure {n : PgNode} {subquery : Parser RaNode}
    {items : Parser (List Expr)} {e : Expr} (h : isExpression n = true) :
    rightOperand n subquery items (pure e) = pure (e, .hole) := by
  cases n <;> first | rfl | cases h

/-- Every node without subqueries is read without touching the state. -/
private theorem readsPlainly (n : PgNode) : ReadsPlainly n := by
  induction n using PgNode.ind with
  | columnRef fields =>
    refine { expression := fun _ => ⟨attributeOf fields, by rw [parseExpression], ?_⟩ }
    unfold attributeOf
    split <;> rfl
  | aConst val =>
    refine { expression := fun _ => ⟨constantOf val, by rw [parseExpression], ?_⟩ }
    cases val <;> rfl
  | aExpr kind name lexpr rexpr ihl ihr =>
    refine { expression := fun h => ?_, condition := fun h => ?_ }
    · rw [isExpression, Bool.and_eq_true] at h
      obtain ⟨l, hl, hml⟩ := orNull_eq_pure h.1 ihl
      obtain ⟨r, hr, hmr⟩ := orNull_eq_pure h.2 ihr
      exact ⟨.expression l r name, by simp [parseExpression, hl, hr], by simp [markers, hml, hmr]⟩
    · simp only [isCondition, Bool.false_and, Bool.or_false] at h
      split at h
      · next hkind =>
        rw [Bool.and_eq_true] at h
        obtain ⟨l, hl, hml⟩ := ihl.expression h.1
        obtain ⟨es, hes, hmes⟩ := ihr.items h.2
        exact ⟨.predicate l (.inList es) (binaryOperator kind name),
          fun sel negated => by simp [parseWhereExpression, hkind, hl, hes],
          by simp [markers, hml, hmes], rfl⟩
      · next hkind =>
        rw [Bool.and_eq_true, Bool.and_eq_true, Bool.or_eq_true] at h
        obtain ⟨l, hl, hml⟩ := ihl.expression h.1.2
        obtain ⟨r, hr, hmr⟩ : ∃ r, rightOperand rexpr (parseSubselect rexpr) (parseItems rexpr)
            (parseExpression rexpr) = pure (r, .hole) ∧ markers r = [] := by
          rcases h.2 with hr | hr
          · obtain ⟨r, hr', hmr⟩ := ihr.expression hr
            exact ⟨r, by rw [hr', rightOperand_eq_pure hr], hmr⟩
          · obtain ⟨es, hes, hmes⟩ := ihr.items hr
            refine ⟨.list es, ?_, hmes⟩
            rw [hes]
            cases rexpr <;> first | rfl | cases hr
        refine ⟨.predicate l r (binaryOperator kind name), fun sel negated => ?_,
          by simp [markers, hml, hmr], rfl⟩
        rw [parseWhereExpression, if_neg hkind, hl, operand_eq_pure h.1.2, hr]
        simp [comparison]
  | funcCall f args star distinct ih =>
    refine { expression := fun h => ?_ }
    obtain ⟨es, hes, hm⟩ := parseExpressions_eq_pure h ih
    refine ⟨.funcCall (raFuncName f) (if star then es ++ [.attribute "*" ""] else es)
      (isAggregateName (raFuncName f)) (isAggregateName (raFuncName f) && distinct),
      by simp [parseExpression, hes], ?_⟩
    rw [allMarkers_eq_flatMap] at hm
    cases star <;> simp [markers, allMarkers_eq_flatMap, hm]
  | typeCast type typmod arg ih =>
    refine { expression := fun h => ?_ }
    rw [isExpression, Bool.and_eq_true] at h
    obtain ⟨mod, hmod⟩ := Option.isSome_iff_exists.mp h.1
    obtain ⟨e, he, hm⟩ := ih.expression h.2
    have hmod' : ofOption (typModText typmod) = pure mod := by rw [hmod]; rfl
    exact ⟨.typeCast type mod e, by simp [parseExpression, he, hmod'], hm⟩
  | caseExpr args d ih ihd =>
    refine { expression := fun h => ?_ }
    rw [isExpression, Bool.and_eq_true] at h
    obtain ⟨es, hes, hm⟩ := parseWhens_eq_pure h.1 ih
    obtain ⟨e, he, hme⟩ := orNull_eq_pure h.2 ihd
    exact ⟨.caseExpr es e, by simp [parseExpression, hes, he], by simp [markers, hm, hme]⟩
  | caseWhen expr result ihe ihr =>
    refine { case := fun h => ?_ }
    rw [isWhen, Bool.and_eq_true] at h
    obtain ⟨w, hw, hmw, -⟩ := ihe.condition h.1
    obtain ⟨t, ht, hmt⟩ := ihr.expression h.2
    exact ⟨.caseWhen w t, by simp [parseWhen, hw, ht], by simp [markers, hmw, hmt]⟩
  | list items ih =>
    refine { items := fun h => ?_ }
    obtain ⟨es, hes, hm⟩ := parseExpressions_eq_pure h ih
    exact ⟨es, by rw [parseItems, hes], hm⟩
  | boolExpr op args ih =>
    refine { condition := fun h => ?_ }
    obtain ⟨ps, hps, hm⟩ := parseWhereArgs_eq_pure h ih
    exact ⟨.boolPredicate op ps, fun sel negated => by simp [parseWhereExpression, hps], hm, rfl⟩
  | nullTest arg type ih =>
    refine { condition := fun h => ?_ }
    obtain ⟨e, he, hm⟩ := ih.expression h
    exact ⟨.nullTest e type, fun sel negated => by simp [parseWhereExpression, he], hm, rfl⟩
  | _ => exact {}

theorem parseExpression_eq_pure {n : PgNode} (h : isExpression n = true) :
    ∃ e, parseExpression n = pure e ∧ markers e = [] :=
  (readsPlainly n).expression h

theorem parseExpressionList_eq_pure {ns : List PgNode} (h : areExpressions ns = true) :
    ∃ es, parseExpressions ns = pure es ∧ allMarkers es = [] :=
  parseExpressions_eq_pure h fun n _ => readsPlainly n

theorem parseItems_eq_pure {n : PgNode} (h : isItemList n = true) :
    ∃ es, parseItems n = pure es ∧ allMarkers es = [] :=
  (readsPlainly n).items h

theorem parseCondition_eq_pure {n : PgNode} (h : isCondition false n = true) :
    ∃ p, (∀ sel negated, parseWhereExpression n sel negated = pure (p, sel)) ∧ markers p = [] ∧
      p.isPresent = true :=
  (readsPlainly n).condition h

theorem mem_allNodes {ns : List PgNode} {d : PgNode} : d ∈ allNodes ns ↔ ∃ n ∈ ns, d ∈ nodes n := by
  induction ns with
  | nil => simp [allNodes]
  | cons n ns ih => simp [allNodes, ih]

/-- Expressions, their lists and conditions without subqueries. -/
private def isPlainRole (n : PgNode) : Bool :=
  n.isNull || isExpression n || isItemList n || isWhen n || isCondition false n

private theorem isPlain_cons {n : PgNode} {ds : List PgNode} (hnodes : nodes n = n :: ds)
    (hitem : itemOf n = none) (hbuild : isBuildableNode n = true)
    (hds : ∀ d ∈ ds, itemOf d = none ∧ isBuildableNode d = true) : IsPlain n := by
  rw [IsPlain, hnodes]
  exact List.forall_mem_cons.mpr ⟨⟨hitem, hbuild⟩, hds⟩

private theorem isPlain_allNodes {ns : List PgNode} {p : PgNode → Bool} (h : ns.all p = true)
    (ih : ∀ n ∈ ns, p n = true → IsPlain n) :
    ∀ d ∈ allNodes ns, itemOf d = none ∧ isBuildableNode d = true := by
  intro d hd
  obtain ⟨n, hn, hd⟩ := mem_allNodes.mp hd
  exact ih n hn (List.all_eq_true.mp h n hn) d hd

private theorem isPlain_append {ds es : List PgNode}
    (hds : ∀ d ∈ ds, itemOf d = none ∧ isBuildableNode d = true)
    (hes : ∀ d ∈ es, itemOf d = none ∧ isBuildableNode d = true) :
    ∀ d ∈ ds ++ es, itemOf d = none ∧ isBuildableNode d = true :=
  fun d hd => (List.mem_append.mp hd).elim (hds d) (hes d)

private theorem isPlain_of_role (n : PgNode) : isPlainRole n = true → IsPlain n := by
  induction n using PgNode.ind with
  | nullptr => exact fun _ => isPlain_cons rfl rfl rfl nofun
  | columnRef fields => exact fun _ => isPlain_cons rfl rfl rfl nofun
  | aConst val => exact fun _ => isPlain_cons rfl rfl rfl nofun
  | aExpr kind name lexpr rexpr ihl ihr =>
    intro h
    have hlr : isPlainRole lexpr = true ∧ isPlainRole rexpr = true := by
      simp only [isPlainRole, isExpression, isItemList, isWhen, isCondition, PgNode.isNull] at h ⊢
      grind
    refine isPlain_cons rfl rfl ?_ (isPlain_append (ihl hlr.1) (ihr hlr.2))
    cases lexpr <;> first | rfl | cases hlr.1
  | funcCall f args star distinct ih =>
    intro h
    have hargs : args.all isExpression = true := by
      simpa [isPlainRole, isExpression, isItemList, isWhen, isCondition, PgNode.isNull,
        areExpressions_eq_all] using h
    exact isPlain_cons rfl rfl rfl
      (isPlain_allNodes hargs fun n hn hp => ih n hn (by simp [isPlainRole, hp]))
  | typeCast type typmod arg ih =>
    intro h
    have harg : isPlainRole arg = true := by
      simp only [isPlainRole, isExpression, isItemList, isWhen, isCondition, PgNode.isNull] at h ⊢
      grind
    exact isPlain_cons rfl rfl rfl (ih harg)
  | caseExpr args d ih ihd =>
    intro h
    have hargs : args.all isWhen = true ∧ isPlainRole d = true := by
      simp only [isPlainRole, isExpression, isItemList, isWhen, isCondition, PgNode.isNull,
        areWhens_eq_all] at h ⊢
      grind
    exact isPlain_cons rfl rfl rfl (isPlain_append
      (isPlain_allNodes hargs.1 fun n hn hp => ih n hn (by simp [isPlainRole, hp])) (ihd hargs.2))
  | caseWhen expr result ihe ihr =>
    intro h
    have hargs : isPlainRole expr = true ∧ isPlainRole result = true := by
      simp only [isPlainRole, isExpression, isItemList, isWhen, isCondition, PgNode.isNull] at h ⊢
      grind
    exact isPlain_cons rfl rfl rfl (isPlain_append (ihe hargs.1) (ihr hargs.2))
  | list items ih =>
    intro h
    have hargs : items.all isExpression = true := by
      simpa [isPlainRole, isExpression, isItemList, isWhen, isCondition, PgNode.isNull,
        areExpressions_eq_all] using h
    exact isPlain_cons rfl rfl rfl
      (isPlain_allNodes hargs fun n hn hp => ih n hn (by simp [isPlainRole, hp]))
  | boolExpr op args ih =>
    intro h
    have hargs : args.all (isCondition false) = true := by
      simpa [isPlainRole, isExpression, isItemList, isWhen, isCondition, PgNode.isNull,
        areConditions_eq_all] using h
    exact isPlain_cons rfl rfl rfl
      (isPlain_allNodes hargs fun n hn hp => ih n hn (by simp [isPlainRole, hp]))
  | nullTest arg type ih =>
    intro h
    have harg : isPlainRole arg = true := by
      simp only [isPlainRole, isExpression, isItemList, isWhen, isCondition, PgNode.isNull] at h ⊢
      grind
    exact isPlain_cons rfl rfl rfl (ih harg)
  | _ => exact nofun

theorem isPlain_nullptr : IsPlain .nullptr := isPlain_of_role .nullptr rfl

theorem isPlain_expression {n : PgNode} (h : isExpression n = true) : IsPlain n :=
  isPlain_of_role n (by simp [isPlainRole, h])

theorem isPlain_itemList {n : PgNode} (h : isItemList n = true) : IsPlain n :=
  isPlain_of_role n (by simp [isPlainRole, h])

theorem isPlain_condition {n : PgNode} (h : isCondition false n = true) : IsPlain n :=
  isPlain_of_role n (by simp [isPlainRole, h])

theorem isPlain_expressions {ns : List PgNode} (h : areExpressions ns = true) :
    ∀ d ∈ allNodes ns, itemOf d = none ∧ isBuildableNode d = true :=
  isPlain_allNodes ((areExpressions_eq_all ns).symm.trans h) fun _ _ => isPlain_expression

theorem areTargets_eq_all (ns : List PgNode) : areTargets ns = ns.all isTarget := by
  induction ns with
  | nil => rfl
  | cons n ns ih => simp [areTargets, ih]

theorem areSorts_eq_all (ns : List PgNode) : areSorts ns = ns.all isSort := by
  induction ns with
  | nil => rfl
  | cons n ns ih => simp [areSorts, ih]

theorem areFromItems_eq_all (ns : List PgNode) : areFromItems ns = ns.all isFromItem := by
  induction ns with
  | nil => rfl
  | cons n ns ih => simp [areFromItems, ih]

theorem areCtes_eq_all (ns : List PgNode) : areCtes ns = ns.all isCte := by
  induction ns with
  | nil => rfl
  | cons n ns ih => simp [areCtes, ih]

private theorem parseTargets_eq_mapM (ns : List PgNode) : parseTargets ns = ns.mapM parseTarget := by
  induction ns with
  | nil => simp [parseTargets]
  | cons n ns ih => simp [parseTargets, ih]

private theorem parseSorts_eq_mapM (ns : List PgNode) : parseSorts ns = ns.mapM parseSort := by
  induction ns with
  | nil => simp [parseSorts]
  | cons n ns ih => simp [parseSorts, ih]

theorem parseTargets_eq_pure {ns : List PgNode} (h : areTargets ns = true) :
    ∃ es, parseTargets ns = pure es ∧ allMarkers es = [] := by
  rw [areTargets_eq_all, List.all_eq_true] at h
  simp only [parseTargets_eq_mapM, allMarkers_eq_flatMap]
  refine mapM_eq_pure fun n hn => ?_
  cases n with
  | resTarget name val =>
    obtain ⟨e, he, hm⟩ := parseExpression_eq_pure (h _ hn)
    exact ⟨.selectExpression e name, by simp [parseTarget, he], hm⟩
  | _ => cases h _ hn

theorem isPlain_targets {ns : List PgNode} (h : areTargets ns = true) :
    ∀ d ∈ allNodes ns, itemOf d = none ∧ isBuildableNode d = true := by
  refine isPlain_allNodes ((areTargets_eq_all ns).symm.trans h) fun n _ hn => ?_
  cases n with
  | resTarget name val => exact isPlain_cons rfl rfl rfl (isPlain_expression hn)
  | _ => cases hn

theorem parseSorts_eq_pure {ns : List PgNode} (h : areSorts ns = true) :
    ∃ es, parseSorts ns = pure es ∧ allMarkers (es.map Prod.fst) = [] := by
  rw [areSorts_eq_all, List.all_eq_true] at h
  simp only [parseSorts_eq_mapM, allMarkers_eq_flatMap, List.flatMap_map]
  refine mapM_eq_pure fun n hn => ?_
  cases n with
  | sortBy node dir =>
    obtain ⟨e, he, hm⟩ := parseExpression_eq_pure (h _ hn)
    exact ⟨(e, dir), by simp [parseSort, he], hm⟩
  | _ => cases h _ hn

theorem isPlain_sorts {ns : List PgNode} (h : areSorts ns = true) :
    ∀ d ∈ allNodes ns, itemOf d = none ∧ isBuildableNode d = true := by
  refine isPlain_allNodes ((areSorts_eq_all ns).symm.trans h) fun n _ hn => ?_
  cases n with
  | sortBy node dir => exact isPlain_cons rfl rfl rfl (isPlain_expression hn)
  | _ => cases hn

end SqlOptimizer.Parse.Supported
