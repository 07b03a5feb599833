import SqlOptimizer.Parse.Correlation

/-!
The column references of a SELECT statement that no FROM clause binds, and what
`is_correlated_subquery` sees of them. The function looks at a part of the references, and of the
FROM items it knows the relations and the two sides of a join.
-/

set_option autoImplicit false
set_option relaxedAutoImplicit false

namespace SqlOptimizer.Parse.FreeReferences

open PgQuery Correlation

/-- The names under which a FROM item binds references. -/
def itemNames : PgNode → List String
  | .rangeVar relname tableAlias => relname :: tableAlias.toList.map Alias.aliasname
  | .rangeSubselect _ tableAlias => [tableAlias.aliasname]
  | .joinExpr _ larg rarg _ none => itemNames larg ++ itemNames rarg
  | .joinExpr _ _ _ _ (some tableAlias) => [tableAlias.aliasname]
  | _ => []

/-- What the ON condition of a join sees of its sides. -/
def sideNames (larg rarg : PgNode) : List String := itemNames larg ++ itemNames rarg

/-- A reference with a qualifier that is none of the names. -/
def isUnbound (names : List String) (a : AttributeRef) : Bool := a.2 ≠ "" && a.2 ∉ names

mutual

/-- The references of a node that nothing binds. The expressions of the node see the names
`inner`; a statement or a derived table in its place sees `outer` around it. -/
def freeIn (inner outer : List String) : PgNode → List AttributeRef
  | .columnRef fields => (columnRefAttribute fields).toList.filter (isUnbound inner)
  | .aExpr _ _ lexpr rexpr => freeIn inner outer lexpr ++ freeIn inner outer rexpr
  | .funcCall _ args _ _ => allFreeIn inner outer args
  | .typeCast _ _ arg => freeIn inner outer arg
  | .caseExpr args defresult => allFreeIn inner outer args ++ freeIn inner outer defresult
  | .caseWhen expr result => freeIn inner outer expr ++ freeIn inner outer result
  | .list items => allFreeIn inner outer items
  | .boolExpr _ args => allFreeIn inner outer args
  | .nullTest arg _ => freeIn inner outer arg
  | .subLink _ testexpr subselect => freeIn inner outer testexpr ++ freeIn inner inner subselect
  | .resTarget _ val => freeIn inner outer val
  | .sortBy node _ => freeIn inner outer node
  | .rangeSubselect subquery _ => freeIn outer outer subquery
  | .joinExpr _ larg rarg quals _ =>
      freeIn inner outer larg ++ freeIn inner outer rarg ++
        freeIn (sideNames larg rarg ++ inner) outer quals
  | .commonTableExpr _ _ ctequery => freeIn outer outer ctequery
  | .selectStmt _ targetList fromClause whereClause groupClause havingClause sortClause withClause =>
      let own := fromClause.flatMap itemNames ++ outer
      allFreeIn own outer targetList ++ allFreeIn own outer fromClause ++
        freeIn own outer whereClause ++ allFreeIn own outer groupClause ++
        freeIn own outer havingClause ++ allFreeIn own outer sortClause ++
        allFreeIn own outer withClause
  | _ => []

def allFreeIn (inner outer : List String) : List PgNode → List AttributeRef
  | [] => []
  | n :: ns => freeIn inner outer n ++ allFreeIn inner outer ns

end

/-- The references of a statement that are bound neither in it nor in a statement inside it. -/
def freeReferences (stmt : PgNode) : List AttributeRef := freeIn [] [] stmt

mutual

/-- Every column reference has a qualifier; only a star may stand alone. -/
def isQualified : PgNode → Bool
  | .columnRef ["*"] => true
  | .columnRef [aliasName, _] => aliasName ≠ ""
  | .columnRef _ => false
  | .aExpr _ _ lexpr rexpr => isQualified lexpr && isQualified rexpr
  | .funcCall _ args _ _ => areQualified args
  | .typeCast _ _ arg => isQualified arg
  | .caseExpr args defresult => areQualified args && isQualified defresult
  | .caseWhen expr result => isQualified expr && isQualified result
  | .list items => areQualified items
  | .boolExpr _ args => areQualified args
  | .nullTest arg _ => isQualified arg
  | .subLink _ testexpr subselect => isQualified testexpr && isQualified subselect
  | .resTarget _ val => isQualified val
  | .sortBy node _ => isQualified node
  | .rangeSubselect subquery _ => isQualified subquery
  | .joinExpr _ larg rarg quals _ => isQualified larg && isQualified rarg && isQualified quals
  | .commonTableExpr _ _ ctequery => isQualified ctequery
  | .selectStmt _ targetList fromClause whereClause groupClause havingClause sortClause withClause =>
      areQualified targetList && areQualified fromClause && isQualified whereClause &&
        areQualified groupClause && isQualified havingClause && areQualified sortClause &&
        areQualified withClause
  | _ => true

def areQualified : List PgNode → Bool
  | [] => true
  | n :: ns => isQualified n && areQualified ns

end

/-- A reference and the names that are visible where it stands. -/
abbrev Use := AttributeRef × List String

mutual

/-- The references that `find_where_expression_attributes` comes to. -/
def seenInCondition (inner : List String) : PgNode → List Use
  | .boolExpr _ args => allSeenInCondition inner args
  | .aExpr _ _ lexpr rexpr => seen inner lexpr ++ seen inner rexpr
  | _ => []

def allSeenInCondition (inner : List String) : List PgNode → List Use
  | [] => []
  | n :: ns => seenInCondition inner n ++ allSeenInCondition inner ns

/-- The references that `find_expression_attributes` comes to. -/
def seen (inner : List String) : PgNode → List Use
  | .columnRef fields => (columnRefAttribute fields).toList.map (·, inner)
  | .aExpr _ _ lexpr rexpr => seen inner lexpr ++ seen inner rexpr
  | .funcCall _ args _ _ => allSeen inner args
  | .joinExpr _ larg rarg quals _ => seenInCondition (sideNames larg rarg ++ inner) quals
  | _ => []

def allSeen (inner : List String) : List PgNode → List Use
  | [] => []
  | n :: ns => seen inner n ++ allSeen inner ns

end

mutual

/-- `find_where_expression_attributes` meets no null pointer. -/
def isReadableCondition : PgNode → Bool
  | .nullptr => false
  | .boolExpr _ args => areReadableConditions args
  | .aExpr _ _ lexpr rexpr => isReadable lexpr && isReadable rexpr
  | _ => true

def areReadableConditions : List PgNode → Bool
  | [] => true
  | n :: ns => isReadableCondition n && areReadableConditions ns

/-- `find_expression_attributes` meets no null pointer; an arithmetic expression may lack an
operand. -/
def isReadable : PgNode → Bool
  | .nullptr => false
  | .columnRef fields => (columnRefAttribute fields).isSome
  | .aExpr _ _ lexpr rexpr => (lexpr.isNull || isReadable lexpr) && (rexpr.isNull || isReadable rexpr)
  | .funcCall _ args _ _ => areReadable args
  | .joinExpr _ _ _ quals _ => isReadableCondition quals
  | _ => true

def areReadable : List PgNode → Bool
  | [] => true
  | n :: ns => isReadable n && areReadable ns

end

/-- A join of the FROM clause joins two relations. -/
def isReadableItem : PgNode → Bool
  | .joinExpr _ (.rangeVar _ _) (.rangeVar _ _) _ _ => true
  | .joinExpr _ _ _ _ _ => false
  | _ => true

/-- The names of relations, and their aliases, that `is_correlated_subquery` knows. -/
def knownNames : PgNode → List String
  | .rangeVar relname tableAlias => relname :: tableAlias.toList.map Alias.aliasname
  | .joinExpr _ (.rangeVar lname lalias) (.rangeVar rname ralias) _ _ =>
      lname :: lalias.toList.map Alias.aliasname ++ rname :: ralias.toList.map Alias.aliasname
  | _ => []

/-- The function meets no null pointer in the statement. -/
def isReadableStatement : PgNode → Bool
  | .selectStmt _ targetList fromClause whereClause _ _ _ _ =>
      fromClause.all isReadableItem && areReadable (targetList.map targetValue) &&
        (whereClause.isNull || isReadableCondition whereClause) && areReadable fromClause
  | _ => false

/-- The references that the function takes for free ones: they are no star, and their qualifier is
no name or alias of a relation in the FROM clause. -/
def unknownUses : PgNode → List Use
  | .selectStmt _ targetList fromClause whereClause _ _ _ _ =>
      let own := fromClause.flatMap itemNames
      (allSeen own (targetList.map targetValue) ++ seenInCondition own whereClause ++
        allSeen own fromClause).filter fun u =>
          u.1.1 ≠ "*" && u.1.2 ∉ fromClause.flatMap knownNames
  | _ => []

/-- Those that are free where they stand. -/
def freeUses (stmt : PgNode) : List Use := (unknownUses stmt).filter fun u => isUnbound u.2 u.1

/-- Those that the alias of a derived table or of a join binds. -/
def boundUses (stmt : PgNode) : List Use := (unknownUses stmt).filter fun u => !isUnbound u.2 u.1

private theorem findAllExpressionAttributes_eq (inner : List String) {ns : List PgNode}
    (ih : ∀ n ∈ ns, findExpressionAttributes n =
      if isReadable n then some ((seen inner n).map Prod.fst) else none) :
    findAllExpressionAttributes ns =
      if areReadable ns then some ((allSeen inner ns).map Prod.fst) else none := by
  induction ns with
  | nil => rfl
  | cons n ns ihns =>
    rw [List.forall_mem_cons] at ih
    rw [findAllExpressionAttributes, ih.1, ihns ih.2, areReadable, allSeen]
    cases isReadable n <;> cases areReadable ns <;> simp

private theorem findAllWhereAttributes_eq (inner : List String) {ns : List PgNode}
    (ih : ∀ n ∈ ns, findWhereExpressionAttributes n =
      if isReadableCondition n then some ((seenInCondition inner n).map Prod.fst) else none) :
    findAllWhereAttributes ns =
      if areReadableConditions ns then some ((allSeenInCondition inner ns).map Prod.fst)
      else none := by
  induction ns with
  | nil => rfl
  | cons n ns ihns =>
    rw [List.forall_mem_cons] at ih
    rw [findAllWhereAttributes, ih.1, ihns ih.2, areReadableConditions, allSeenInCondition]
    cases isReadableCondition n <;> cases areReadableConditions ns <;> simp

/-- What the two collectors give. -/
private theorem findAttributes_eq (n : PgNode) : ∀ inner : List String,
    (findExpressionAttributes n =
      if isReadable n then some ((seen inner n).map Prod.fst) else none) ∧
    findWhereExpressionAttributes n =
      if isReadableCondition n then some ((seenInCondition inner n).map Prod.fst) else none := by
  induction n using PgNode.ind with
  | nullptr => exact fun inner => ⟨rfl, rfl⟩
  | columnRef fields =>
    intro inner
    refine ⟨?_, rfl⟩
    rw [findExpressionAttributes, isReadable, seen]
    cases columnRefAttribute fields <;> simp
  | aExpr kind name lexpr rexpr ihl ihr =>
    intro inner
    obtain ⟨hl, -⟩ := ihl inner
    obtain ⟨hr, -⟩ := ihr inner
    refine ⟨?_, ?_⟩
    · have hnull (l : PgNode) : l.isNull = true ↔ l = .nullptr := by
        cases l <;> simp [PgNode.isNull]
      by_cases hln : lexpr = .nullptr
      · subst hln
        by_cases hrn : rexpr = .nullptr
        · subst hrn
          rfl
        · have hstep : findExpressionAttributes (.aExpr kind name .nullptr rexpr) =
              findExpressionAttributes rexpr := by
            cases rexpr <;> first | rfl | exact absurd rfl hrn
          have hrnull : rexpr.isNull = false := Bool.eq_false_iff.mpr fun h => hrn ((hnull _).mp h)
          rw [hstep, hr, isReadable, seen, hrnull]
          simp [PgNode.isNull, seen]
      · have hlnull : lexpr.isNull = false := Bool.eq_false_iff.mpr fun h => hln ((hnull _).mp h)
        by_cases hrn : rexpr = .nullptr
        · subst hrn
          have hstep : findExpressionAttributes (.aExpr kind name lexpr .nullptr) =
              findExpressionAttributes lexpr := by
            cases lexpr <;> first | rfl | exact absurd rfl hln
          rw [hstep, hl, isReadable, seen, hlnull]
          simp [PgNode.isNull, seen]
        · have hrnull : rexpr.isNull = false := Bool.eq_false_iff.mpr fun h => hrn ((hnull _).mp h)
          rw [findExpressionAttributes, hl, hr, isReadable, seen, hlnull, hrnull]
          · cases isReadable lexpr <;> cases isReadable rexpr <;> simp
          all_goals simp [hln, hrn]
    · rw [findWhereExpressionAttributes, hl, hr, isReadableCondition, seenInCondition]
      cases isReadable lexpr <;> cases isReadable rexpr <;> simp
  | funcCall f args star distinct ih =>
    exact fun inner => ⟨findAllExpressionAttributes_eq inner fun n hn => (ih n hn inner).1, rfl⟩
  | boolExpr op args ih =>
    exact fun inner => ⟨rfl, findAllWhereAttributes_eq inner fun n hn => (ih n hn inner).2⟩
  | joinExpr type larg rarg quals a _ _ ih => exact fun inner => ⟨(ih _).2, rfl⟩
  | _ => exact fun inner => ⟨rfl, rfl⟩

private theorem areQualified_iff {ns : List PgNode} :
    areQualified ns = true ↔ ∀ n ∈ ns, isQualified n = true := by
  induction ns with
  | nil => simp [areQualified]
  | cons n ns ih => simp [areQualified, ih]

private theorem forall_allSeen {P : Use → Prop} {inner : List String} {ns : List PgNode}
    (ih : ∀ n ∈ ns, ∀ u ∈ seen inner n, P u) : ∀ u ∈ allSeen inner ns, P u := by
  induction ns with
  | nil => simp [allSeen]
  | cons n ns ihns =>
    rw [List.forall_mem_cons] at ih
    rw [allSeen, List.forall_mem_append]
    exact ⟨ih.1, ihns ih.2⟩

private theorem forall_allSeenInCondition {P : Use → Prop} {inner : List String}
    {ns : List PgNode} (ih : ∀ n ∈ ns, ∀ u ∈ seenInCondition inner n, P u) :
    ∀ u ∈ allSeenInCondition inner ns, P u := by
  induction ns with
  | nil => simp [allSeenInCondition]
  | cons n ns ihns =>
    rw [List.forall_mem_cons] at ih
    rw [allSeenInCondition, List.forall_mem_append]
    exact ⟨ih.1, ihns ih.2⟩

/-- The references that are seen have a qualifier, or they are stars. -/
private theorem qualified_seen (n : PgNode) (hn : isQualified n = true) : ∀ inner,
    (∀ u ∈ seen inner n, u.1.1 = "*" ∨ u.1.2 ≠ "") ∧
      ∀ u ∈ seenInCondition inner n, u.1.1 = "*" ∨ u.1.2 ≠ "" := by
  induction n using PgNode.ind with
  | columnRef fields =>
    intro inner
    refine ⟨?_, nofun⟩
    match fields, hn with
    | [name], hn =>
      have hstar : name = "*" := by
        by_contra h
        simp [isQualified, h] at hn
      simp [seen, columnRefAttribute, hstar]
    | [aliasName, name], hn =>
      have hne : aliasName ≠ "" := by simpa [isQualified] using hn
      simp [seen, columnRefAttribute, hne]
    | [], hn => cases hn
    | _ :: _ :: _ :: _, hn => simp [isQualified] at hn
  | aExpr kind name lexpr rexpr ihl ihr =>
    intro inner
    rw [isQualified, Bool.and_eq_true] at hn
    simp only [seen, seenInCondition, List.forall_mem_append]
    exact ⟨⟨(ihl hn.1 inner).1, (ihr hn.2 inner).1⟩, (ihl hn.1 inner).1, (ihr hn.2 inner).1⟩
  | funcCall f args star distinct ih =>
    have hargs := areQualified_iff.mp hn
    exact fun inner => ⟨forall_allSeen fun n hn => (ih n hn (hargs n hn) inner).1, nofun⟩
  | boolExpr op args ih =>
    have hargs := areQualified_iff.mp hn
    exact fun inner => ⟨nofun, forall_allSeenInCondition fun n hn => (ih n hn (hargs n hn) inner).2⟩
  | joinExpr type larg rarg quals a _ _ ih =>
    simp only [isQualified, Bool.and_eq_true] at hn
    exact fun inner => ⟨(ih hn.2 _).2, nofun⟩
  | _ => exact fun inner => ⟨nofun, nofun⟩

private theorem mem_allFreeIn {inner outer : List String} {ns : List PgNode} {n : PgNode}
    (hn : n ∈ ns) {a : AttributeRef} (ha : a ∈ freeIn inner outer n) :
    a ∈ allFreeIn inner outer ns := by
  induction ns with
  | nil => cases hn
  | cons n' ns ih =>
    rw [allFreeIn, List.mem_append]
    rcases List.mem_cons.mp hn with rfl | hn
    · exact .inl ha
    · exact .inr (ih hn)

/-- A seen reference that is free where it stands is free in the node. -/
private theorem mem_freeIn_of_seen (n : PgNode) : ∀ inner outer,
    (∀ u ∈ seen inner n, isUnbound u.2 u.1 = true → u.1 ∈ freeIn inner outer n) ∧
      ∀ u ∈ seenInCondition inner n, isUnbound u.2 u.1 = true → u.1 ∈ freeIn inner outer n := by
  induction n using PgNode.ind with
  | columnRef fields =>
    intro inner outer
    refine ⟨fun u hu hfree => ?_, nofun⟩
    rw [seen] at hu
    obtain ⟨a, ha, rfl⟩ := List.mem_map.mp hu
    exact List.mem_filter.mpr ⟨ha, hfree⟩
  | aExpr kind name lexpr rexpr ihl ihr =>
    intro inner outer
    have hboth : ∀ u ∈ seen inner lexpr ++ seen inner rexpr, isUnbound u.2 u.1 = true →
        u.1 ∈ freeIn inner outer lexpr ++ freeIn inner outer rexpr := by
      intro u hu hfree
      refine List.mem_append.mpr ((List.mem_append.mp hu).imp ?_ ?_)
      · exact fun hu => (ihl inner outer).1 u hu hfree
      · exact fun hu => (ihr inner outer).1 u hu hfree
    exact ⟨hboth, hboth⟩
  | funcCall f args star distinct ih =>
    intro inner outer
    refine ⟨forall_allSeen fun n hn u hu hfree => ?_, nofun⟩
    exact mem_allFreeIn hn ((ih n hn inner outer).1 u hu hfree)
  | boolExpr op args ih =>
    intro inner outer
    refine ⟨nofun, forall_allSeenInCondition fun n hn u hu hfree => ?_⟩
    exact mem_allFreeIn hn ((ih n hn inner outer).2 u hu hfree)
  | joinExpr type larg rarg quals a _ _ ih =>
    intro inner outer
    refine ⟨fun u hu hfree => ?_, nofun⟩
    exact List.mem_append_right _ ((ih _ outer).2 u hu hfree)
  | _ => exact fun inner outer => ⟨nofun, nofun⟩

/-- The relations that `is_correlated_subquery` knows. -/
private theorem fromRelationsAliases_spec (ns : List PgNode) :
    (ns.all isReadableItem = true → ∃ rels, fromRelationsAliases ns = some rels ∧
      ∀ a : AttributeRef, a.1 = "*" ∨ a.2 ≠ "" →
        (isDefined rels a = true ↔ a.1 = "*" ∨ a.2 ∈ ns.flatMap knownNames)) ∧
      (ns.all isReadableItem = false → fromRelationsAliases ns = none) := by
  have hrel (name : String) (tableAlias : Option Alias) (a : AttributeRef) (ha : a.2 ≠ "") :
      (a.2 = (rangeVarAlias name tableAlias).1 ∨ a.2 = (rangeVarAlias name tableAlias).2) ↔
        a.2 ∈ name :: tableAlias.toList.map Alias.aliasname := by
    cases tableAlias <;> simp [rangeVarAlias, ha]
  -- one more relation, for an attribute that is no star
  have hcons (rel : String × String) (rels : List (String × String)) (a : AttributeRef)
      (hstar : a.1 ≠ "*") (ha : a.2 ≠ "") :
      isDefined (rel :: rels) a = true ↔
        (a.2 = rel.1 ∨ a.2 = rel.2) ∨ isDefined rels a = true := by
    simp [isDefined, hstar, ha]
  induction ns with
  | nil =>
    refine ⟨fun _ => ⟨[], rfl, fun a _ => ?_⟩, by simp⟩
    simp [isDefined]
  | cons n ns ih =>
    rw [List.all_cons]
    have hskip (hstep : fromRelationsAliases (n :: ns) = fromRelationsAliases ns)
        (hreadable : isReadableItem n = true) (hknown : knownNames n = []) :
        (isReadableItem n && ns.all isReadableItem) = true → ∃ rels,
          fromRelationsAliases (n :: ns) = some rels ∧ ∀ a : AttributeRef, a.1 = "*" ∨ a.2 ≠ "" →
            (isDefined rels a = true ↔ a.1 = "*" ∨ a.2 ∈ (n :: ns).flatMap knownNames) := by
      rw [hstep, hreadable, Bool.true_and, List.flatMap_cons, hknown, List.nil_append]
      exact ih.1
    cases n with
    | rangeVar name tableAlias =>
      refine ⟨fun h => ?_, fun h => ?_⟩
      · obtain ⟨rels, hrels, hiff⟩ := ih.1 (by simpa [isReadableItem] using h)
        refine ⟨_, by rw [fromRelationsAliases, hrels]; rfl, fun a ha => ?_⟩
        by_cases hstar : a.1 = "*"
        · simp [isDefined, hstar]
        · have hne := ha.resolve_left hstar
          rw [hcons _ _ _ hstar hne, hrel _ _ _ hne, hiff a ha, List.flatMap_cons, List.mem_append]
          simp [hstar, knownNames]
      · rw [fromRelationsAliases, ih.2 (by simpa [isReadableItem] using h)]
        rfl
    | joinExpr type larg rarg quals tableAlias =>
      by_cases hsides : isReadableItem (.joinExpr type larg rarg quals tableAlias) = true
      · obtain ⟨lname, lalias, rname, ralias, rfl, rfl⟩ : ∃ lname lalias rname ralias,
            larg = .rangeVar lname lalias ∧ rarg = .rangeVar rname ralias := by
          cases larg <;> cases rarg <;> first | exact ⟨_, _, _, _, rfl, rfl⟩ | cases hsides
        refine ⟨fun h => ?_, fun h => ?_⟩
        · obtain ⟨rels, hrels, hiff⟩ := ih.1 (by simpa [isReadableItem] using h)
          refine ⟨_, by rw [fromRelationsAliases, hrels]; rfl, fun a ha => ?_⟩
          by_cases hstar : a.1 = "*"
          · simp [isDefined, hstar]
          · have hne := ha.resolve_left hstar
            rw [hcons _ _ _ hstar hne, hcons _ _ _ hstar hne, hrel _ _ _ hne, hrel _ _ _ hne,
              hiff a ha, List.flatMap_cons, List.mem_append, knownNames, List.mem_append]
            simp only [hstar, false_or, or_assoc]
        · rw [fromRelationsAliases, ih.2 (by simpa [isReadableItem] using h)]
          rfl
      · have hnone : fromRelationsAliases (.joinExpr type larg rarg quals tableAlias :: ns) = none := by
          cases larg <;> cases rarg <;> first | rfl | exact absurd rfl hsides
        refine ⟨fun h => ?_, fun _ => hnone⟩
        rw [Bool.and_eq_true] at h
        exact absurd h.1 hsides
    | _ =>
      refine ⟨hskip rfl rfl rfl, fun h => ?_⟩
      rw [fromRelationsAliases]
      · exact ih.2 (by simpa [isReadableItem] using h)
      all_goals simp

private theorem findWhere_eq (inner : List String) (w : PgNode) :
    (if w.isNull then some [] else findWhereExpressionAttributes w) =
      if w.isNull || isReadableCondition w then some ((seenInCondition inner w).map Prod.fst)
      else none := by
  have hw := (findAttributes_eq w inner).2
  cases w with
  | nullptr => rfl
  | _ => exact hw

private theorem qualified_targetValue {ns : List PgNode} (h : areQualified ns = true) :
    areQualified (ns.map targetValue) = true := by
  rw [areQualified_iff] at h ⊢
  intro n hn
  obtain ⟨t, ht, rfl⟩ := List.mem_map.mp hn
  have hqualified := h t ht
  cases t <;> first | rfl | exact hqualified

/-- What `is_correlated_subquery` gives for a statement with qualified references. -/
theorem isCorrelatedSubquery_eq {stmt : PgNode} (hq : isQualified stmt = true) :
    isCorrelatedSubquery stmt =
      if isReadableStatement stmt then some (!(unknownUses stmt).isEmpty) else none := by
  cases stmt with
  | selectStmt distinct targetList fromClause whereClause groupClause havingClause sortClause
      withClause =>
    simp only [isQualified, Bool.and_eq_true] at hq
    obtain ⟨⟨⟨⟨⟨⟨htargets, hfrom⟩, hwhere⟩, -⟩, -⟩, -⟩, -⟩ := hq
    obtain ⟨hsome, hnone⟩ := fromRelationsAliases_spec fromClause
    have hall (ns : List PgNode) := findAllExpressionAttributes_eq (fromClause.flatMap itemNames)
      fun n (_ : n ∈ ns) => (findAttributes_eq n _).1
    have hsteps : isCorrelatedSubquery (.selectStmt distinct targetList fromClause whereClause
        groupClause havingClause sortClause withClause) =
        (fromRelationsAliases fromClause).bind fun rels =>
          (findAllExpressionAttributes (targetList.map targetValue)).bind fun targets =>
            (if whereClause.isNull then some [] else
                findWhereExpressionAttributes whereClause).bind fun conditions =>
              (findAllExpressionAttributes fromClause).map fun joins =>
                !(targets ++ conditions ++ joins).all (isDefined rels) := by
      cases whereClause <;> rfl
    rw [hsteps, findWhere_eq (fromClause.flatMap itemNames), hall, hall, isReadableStatement]
    cases hitems : fromClause.all isReadableItem with
    | false =>
      rw [hnone hitems]
      rfl
    | true =>
      obtain ⟨rels, hrels, hdefined⟩ := hsome hitems
      rw [hrels]
      cases areReadable (targetList.map targetValue) <;>
        cases whereClause.isNull || isReadableCondition whereClause <;>
          cases areReadable fromClause <;> try rfl
      -- the function has read all its references
      have hseen : ∀ u ∈ allSeen (fromClause.flatMap itemNames) (targetList.map targetValue) ++
          seenInCondition (fromClause.flatMap itemNames) whereClause ++
          allSeen (fromClause.flatMap itemNames) fromClause, u.1.1 = "*" ∨ u.1.2 ≠ "" := by
        have hlist {ns : List PgNode} (h : areQualified ns = true) :
            ∀ u ∈ allSeen (fromClause.flatMap itemNames) ns, u.1.1 = "*" ∨ u.1.2 ≠ "" :=
          forall_allSeen fun n hn => (qualified_seen n (areQualified_iff.mp h n hn) _).1
        simp only [List.forall_mem_append]
        exact ⟨⟨hlist (qualified_targetValue htargets), (qualified_seen _ hwhere _).2⟩, hlist hfrom⟩
      have hunknown : (unknownUses (.selectStmt distinct targetList fromClause whereClause groupClause
          havingClause sortClause withClause)).isEmpty =
          ((allSeen (fromClause.flatMap itemNames) (targetList.map targetValue) ++
            seenInCondition (fromClause.flatMap itemNames) whereClause ++
            allSeen (fromClause.flatMap itemNames) fromClause).map Prod.fst).all (isDefined rels) := by
        rw [Bool.eq_iff_iff, List.isEmpty_iff, unknownUses, List.filter_eq_nil_iff, List.all_map,
          List.all_eq_true]
        refine forall₂_congr fun u hu => ?_
        have hiff := hdefined u.1 (hseen u hu)
        simp only [Function.comp, hiff]
        by_cases hstar : u.1.1 = "*" <;> simp [hstar]
      simp only [if_true, Option.bind_some, Option.map_some, Bool.and_self, hunknown, List.map_append]
  | _ => rfl

/-- A reference that the function rightly takes for a free one is free in the statement. -/
theorem freeReferences_ne_nil {stmt : PgNode} (h : freeUses stmt ≠ []) :
    freeReferences stmt ≠ [] := by
  cases stmt with
  | selectStmt distinct targetList fromClause whereClause groupClause havingClause sortClause
      withClause =>
    obtain ⟨u, hu⟩ := List.exists_mem_of_ne_nil _ h
    obtain ⟨hu, hfree⟩ := List.mem_filter.mp hu
    obtain ⟨hu, -⟩ := List.mem_filter.mp hu
    refine List.ne_nil_of_mem (a := u.1) ?_
    rw [freeReferences, freeIn, List.append_nil]
    simp only [List.mem_append, or_assoc] at hu ⊢
    have hall {ns : List PgNode} : ∀ u ∈ allSeen (fromClause.flatMap itemNames) ns,
        isUnbound u.2 u.1 = true → u.1 ∈ allFreeIn (fromClause.flatMap itemNames) [] ns :=
      forall_allSeen fun n hn u hu hfree =>
        mem_allFreeIn hn ((mem_freeIn_of_seen n _ []).1 u hu hfree)
    rcases hu with hu | hu | hu
    · have hvalues : ∀ ns : List PgNode, allFreeIn (fromClause.flatMap itemNames) []
          (ns.map targetValue) ⊆ allFreeIn (fromClause.flatMap itemNames) [] ns := by
        intro ns
        induction ns with
        | nil => exact List.Subset.refl _
        | cons n ns ih =>
          intro a ha
          rw [List.map_cons, allFreeIn, List.mem_append] at ha
          rw [allFreeIn, List.mem_append]
          refine ha.imp (fun ha => ?_) fun ha => ih ha
          cases n <;> first | exact ha | cases ha
      exact .inl (hvalues _ (hall u hu hfree))
    · exact .inr (.inr (.inl ((mem_freeIn_of_seen _ _ []).2 u hu hfree)))
    · exact .inr (.inl (hall u hu hfree))
  | _ => exact absurd rfl h

/-- `select * from exams e where <condition>`. -/
def examsWhere (condition : PgNode) : PgNode :=
  .selectStmt false [.resTarget "" (.columnRef ["*"])] [.rangeVar "exams" (some ⟨"e", []⟩)] condition
    [] .nullptr [] []

end SqlOptimizer.Parse.FreeReferences
