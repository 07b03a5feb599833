import SqlOptimizer.Unnesting.CollectorWalk

/-!
The attributes of a subtree that refer to the left side of a dependent join, as
`intersect_correlated_attributes` finds them by their names and as the scopes of the query have
it. The names of all relations at the top of the subtree stand for its scopes, and attributes in
some positions are not looked at.
-/

set_option autoImplicit false
set_option relaxedAutoImplicit false

namespace SqlOptimizer.Unnesting.FreeAttributes

open Algebra.RelationalAlgebra
open Tree.Frames Tree.Nodes Tree.Walks
open Parse.PgQuery Parse.Builder Parse.ParseSqlToRa Parse.MarkerJoins
open Attributes LexicalScopes CollectorWalk

/-- The attribute objects that are returned are those that are free in the subtree and belong to
the left side. -/
def CollectsFree (root : RaNode) (i : Nat) (pr : Projection) (left it : RaNode) : Prop :=
  ∃ os, intersectCorrelatedAttributes root (dProjection i pr left) it = some os ∧
    ∀ o, o ∈ os ↔ o ∈ freeOccurrences (leftSources pr left) it

/-- The names by which D is recognised. -/
def leftNames (pr : Projection) (left : RaNode) : List (String × String) :=
  if pr.args.isEmpty then getRelationsAliases left else [("", "d")]

/-- What makes the search by names agree with the scopes. No null pointer is met. No attribute in a
position that is not looked at refers to the left side. An attribute that is bound in the subtree is
found among the relations at its top, or the left side has none of its name. One that refers to the
left side has the name of a relation there and of none at the top of the subtree; one that refers
further out does not have both. -/
structure AgreesWithScopes (pr : Projection) (left it : RaNode) : Prop where
  operands : ∀ n ∈ nodes it, (nodeItems n).isSome
  hidden : ∀ x ∈ scopes it, ∀ a ∈ hiddenAttributes x.1,
    refersLeft (leftSources pr left) x.2 a = false
  bound : ∀ x ∈ scopes it, ∀ a ∈ visitedAttributes x.1, binds x.2 a = true →
    isCovered (getRelationsAliases it) a.1 a.2 = true ∨ isCovered (leftNames pr left) a.1 a.2 = false
  free : ∀ x ∈ scopes it, ∀ a ∈ visitedAttributes x.1, binds x.2 a = false →
    binds (leftSources pr left) a = true →
    isCovered (getRelationsAliases it) a.1 a.2 = false ∧ isCovered (leftNames pr left) a.1 a.2 = true
  foreign : ∀ x ∈ scopes it, ∀ a ∈ visitedAttributes x.1, binds x.2 a = false →
    binds (leftSources pr left) a = false →
    isCovered (getRelationsAliases it) a.1 a.2 = true ∨ isCovered (leftNames pr left) a.1 a.2 = false

instance (pr : Projection) (left it : RaNode) : Decidable (AgreesWithScopes pr left it) :=
  decidable_of_iff
    ((∀ n ∈ nodes it, (nodeItems n).isSome) ∧
      (∀ x ∈ scopes it, ∀ a ∈ hiddenAttributes x.1,
        refersLeft (leftSources pr left) x.2 a = false) ∧
      (∀ x ∈ scopes it, ∀ a ∈ visitedAttributes x.1, binds x.2 a = true →
        isCovered (getRelationsAliases it) a.1 a.2 = true ∨
          isCovered (leftNames pr left) a.1 a.2 = false) ∧
      (∀ x ∈ scopes it, ∀ a ∈ visitedAttributes x.1, binds x.2 a = false →
        binds (leftSources pr left) a = true →
        isCovered (getRelationsAliases it) a.1 a.2 = false ∧
          isCovered (leftNames pr left) a.1 a.2 = true) ∧
      (∀ x ∈ scopes it, ∀ a ∈ visitedAttributes x.1, binds x.2 a = false →
        binds (leftSources pr left) a = false →
        isCovered (getRelationsAliases it) a.1 a.2 = true ∨
          isCovered (leftNames pr left) a.1 a.2 = false))
    ⟨fun h => ⟨h.1, h.2.1, h.2.2.1, h.2.2.2.1, h.2.2.2.2⟩,
      fun h => ⟨h.operands, h.hidden, h.bound, h.free, h.foreign⟩⟩

/-- The test by names and the scopes agree for the attributes that are looked at. -/
theorem AgreesWithScopes.agree {pr : Projection} {left it : RaNode}
    (h : AgreesWithScopes pr left it) {x : RaNode × List Source} (hx : x ∈ scopes it)
    {a : AttributeRef} (ha : a ∈ visitedAttributes x.1) :
    (isCovered (getRelationsAliases it) a.1 a.2 = false ∧
      isCovered (leftNames pr left) a.1 a.2 = true) ↔
        refersLeft (leftSources pr left) x.2 a = true := by
  have hbound := h.bound x hx a ha
  have hfree := h.free x hx a ha
  have hforeign := h.foreign x hx a ha
  cases hb : binds x.2 a with
  | true =>
    rcases hbound hb with hcov | hcov <;> simp [refersLeft, hb, hcov]
  | false =>
    cases hl : binds (leftSources pr left) a with
    | true => simp [refersLeft, hb, hl, hfree hb hl]
    | false => rcases hforeign hb hl with hcov | hcov <;> simp [refersLeft, hl, hcov]

/-- The scopes are those of the nodes. -/
theorem map_fst_scopedNodes (outer block : List Source) (t : RaNode) :
    (scopedNodes outer block t).map Prod.fst = nodes t := by
  fun_induction scopedNodes outer block t <;> simp_all [nodes]

theorem mem_numbered {node k : Nat} {items : List Item} {o : Occurrence} :
    o ∈ numbered node k items ↔ o.node = node ∧ k ≤ o.index ∧
      items[o.index - k]? = some (.attribute o.name o.aliasName) := by
  simp only [numbered, List.mem_filterMap]
  constructor
  · rintro ⟨⟨item, j⟩, hitem, ho⟩
    rw [List.mk_mem_zipIdx_iff_le_and_getElem?_sub] at hitem
    cases item with
    | «attribute» name aliasName =>
      obtain rfl := Option.some.inj ho
      exact ⟨rfl, hitem⟩
    | marker m type => cases ho
  · rintro ⟨rfl, hle, hitem⟩
    exact ⟨(.attribute o.name o.aliasName, o.index),
      List.mk_mem_zipIdx_iff_le_and_getElem?_sub.mpr ⟨hle, hitem⟩, rfl⟩

/-- Every attribute among the items is an object. -/
theorem mem_itemAttributes {items : List Item} {a : AttributeRef} (node k : Nat) :
    a ∈ itemAttributes items ↔ ∃ o ∈ numbered node k items, refOf o = a := by
  simp only [itemAttributes, List.mem_filterMap]
  constructor
  · rintro ⟨item, hitem, ha⟩
    obtain ⟨j, hj⟩ := List.mem_iff_getElem?.mp hitem
    cases item with
    | «attribute» name aliasName =>
      refine ⟨⟨node, k + j, name, aliasName⟩, mem_numbered.mpr ⟨rfl, by simp, ?_⟩,
        Option.some.inj ha⟩
      simpa using hj
    | marker m type => cases ha
  · rintro ⟨o, ho, rfl⟩
    exact ⟨.attribute o.name o.aliasName, List.mem_of_getElem? (mem_numbered.mp ho).2.2, rfl⟩

theorem mem_visitedAttributes {t : RaNode} {a : AttributeRef} :
    a ∈ visitedAttributes t ↔ ∃ o ∈ visitedAt t, refOf o = a := mem_itemAttributes _ _

theorem mem_hiddenAttributes {t : RaNode} {a : AttributeRef} :
    a ∈ hiddenAttributes t ↔ ∃ o ∈ hiddenAt t, refOf o = a := by
  have hitems : itemAttributes ((hiddenAttributes t).map fun a => .attribute a.1 a.2) =
      hiddenAttributes t := by
    rw [itemAttributes, List.filterMap_map]
    exact List.filterMap_some
  exact hitems ▸ mem_itemAttributes _ _

/-- Objects of one node that the collectors come to are none that they do not come to. -/
theorem not_mem_hiddenAt {t : RaNode} {o : Occurrence} (h : o ∈ visitedAt t) : o ∉ hiddenAt t := by
  intro h'
  obtain ⟨-, -, hitem⟩ := mem_numbered.mp h
  obtain ⟨-, hle, -⟩ := mem_numbered.mp h'
  rw [Nat.sub_zero, List.getElem?_eq_none hle] at hitem
  cases hitem

theorem mem_freeOccurrences {left : List Source} {it : RaNode} {o : Occurrence} :
    o ∈ freeOccurrences left it ↔ ∃ x ∈ scopes it,
      (o ∈ visitedAt x.1 ∨ o ∈ hiddenAt x.1) ∧ refersLeft left x.2 (refOf o) = true := by
  simp only [freeOccurrences, List.mem_flatMap, List.mem_filter, occurrencesAt, List.mem_append]

section

variable {it : RaNode} (hit : Distinct it)

include hit

/-- An object is at one node, with one scope. -/
private theorem eq_of_mem_occurrencesAt {x y : RaNode × List Source} (hx : x ∈ scopes it)
    (hy : y ∈ scopes it) {o : Occurrence} (hox : o ∈ visitedAt x.1 ∨ o ∈ hiddenAt x.1)
    (hoy : o ∈ visitedAt y.1 ∨ o ∈ hiddenAt y.1) : x = y := by
  have hmem {z : RaNode × List Source} (hz : z ∈ scopes it) : z.1 ∈ nodes it := by
    rw [← map_fst_scopedNodes [] (sources it) it]
    exact List.mem_map_of_mem hz
  have hnode {z : RaNode} (ho : o ∈ visitedAt z ∨ o ∈ hiddenAt z) : o.node = z.id?.getD 0 :=
    ho.elim (fun ho => (mem_numbered.mp ho).1) fun ho => (mem_numbered.mp ho).1
  obtain ⟨i, hi⟩ := exists_id?_of_mem_nodes (hmem hx)
  obtain ⟨j, hj⟩ := exists_id?_of_mem_nodes (hmem hy)
  have hij : i = j := by
    have h := (hnode hox).symm.trans (hnode hoy)
    rwa [hi, hj] at h
  have hfst : x.1 = y.1 := eq_of_mem_nodes hit (hmem hx) (hmem hy) hi (hij ▸ hj)
  refine List.inj_on_of_nodup_map ?_ hx hy hfst
  rw [scopes, map_fst_scopedNodes]
  exact nodup_nodes hit

/-- Whether an object is free and refers to the left side depends on the scope of its node. -/
private theorem mem_freeOccurrences_of_mem {left : List Source} {x : RaNode × List Source}
    (hx : x ∈ scopes it) {o : Occurrence} (ho : o ∈ visitedAt x.1 ∨ o ∈ hiddenAt x.1) :
    o ∈ freeOccurrences left it ↔ refersLeft left x.2 (refOf o) = true := by
  rw [mem_freeOccurrences]
  constructor
  · rintro ⟨y, hy, hoy, h⟩
    rwa [eq_of_mem_occurrencesAt hit hx hy ho hoy]
  · intro h
    exact ⟨x, hx, ho, h⟩

end

theorem anchored_of_plug {K : List Frame} {t : RaNode} (h : Anchored (plug K t)) : Anchored t := by
  induction K generalizing t with
  | nil => exact h
  | cons f K ih =>
    have hf := ih h
    cases f with
    | unary i op => exact hf.2
    | left i join r => exact hf.2.1
    | right i join l => exact hf.2.2

section

variable {root it left : RaNode} {i : Nat} {pr : Projection} (hroot : Houses root it)
  (hanchored : Anchored it)

include hroot hanchored

/-- The attributes that are returned, when no null pointer is met. -/
private theorem exists_intersect (hitems : ∀ n ∈ nodes it, (nodeItems n).isSome) :
    ∃ os, intersectCorrelatedAttributes root (dProjection i pr left) it = some os ∧
      ∀ o, o ∈ os ↔ (∃ x ∈ scopes it, o ∈ visitedAt x.1) ∧
        isCovered (getRelationsAliases it) o.name o.aliasName = false ∧
        isCovered (leftNames pr left) o.name o.aliasName = true := by
  obtain ⟨os, hos, hmem⟩ := getSubtreeAttributes_spec hroot hanchored hitems
  refine ⟨_, by rw [intersectCorrelatedAttributes, hos]; rfl, fun o => ?_⟩
  have hnodes : (∃ n ∈ nodes it, o ∈ visitedAt n) ↔ ∃ x ∈ scopes it, o ∈ visitedAt x.1 := by
    rw [← map_fst_scopedNodes [] (sources it) it]
    simp only [List.mem_map, exists_exists_and_eq_and, scopes]
  have hnames : leftRelationsAliases (dProjection i pr left) = leftNames pr left := rfl
  rw [List.mem_filter, hmem, hnodes, isCorrelated, hnames, Bool.and_eq_true, Bool.not_eq_true']

theorem collectsFree_iff :
    CollectsFree root i pr left it ↔ AgreesWithScopes pr left it := by
  have hdistinct : Distinct it := by
    obtain ⟨K, rfl⟩ := hroot.position
    exact (distinct_plug.mp hroot.distinct).2.1
  constructor
  · rintro ⟨os, hos, hmem⟩
    have hitems : ∀ n ∈ nodes it, (nodeItems n).isSome := by
      obtain ⟨all, hall, -⟩ := Option.map_eq_some_iff.mp hos
      exact nodeItems_isSome_of_getSubtreeAttributes hall
    obtain ⟨os', hos', hmem'⟩ := @exists_intersect _ _ left i pr hroot hanchored hitems
    obtain rfl := Option.some.inj (hos.symm.trans hos')
    -- the two tests agree for every attribute that the collectors come to
    have hagree : ∀ x ∈ scopes it, ∀ a ∈ visitedAttributes x.1,
        (isCovered (getRelationsAliases it) a.1 a.2 = false ∧
          isCovered (leftNames pr left) a.1 a.2 = true) ↔
        refersLeft (leftSources pr left) x.2 a = true := by
      intro x hx a ha
      obtain ⟨o, ho, rfl⟩ := mem_visitedAttributes.mp ha
      rw [← mem_freeOccurrences_of_mem hdistinct hx (.inl ho), ← hmem, hmem']
      exact (and_iff_right ⟨x, hx, ho⟩).symm
    refine ⟨hitems, fun x hx a ha => ?_, fun x hx a ha hb => ?_, fun x hx a ha hb hl => ?_,
      fun x hx a ha hb hl => ?_⟩
    · obtain ⟨o, ho, rfl⟩ := mem_hiddenAttributes.mp ha
      by_contra hrefers
      rw [Bool.not_eq_false] at hrefers
      have hfree := (mem_freeOccurrences_of_mem hdistinct hx (.inr ho)).mpr hrefers
      obtain ⟨⟨y, hy, hoy⟩, -⟩ := (hmem' o).mp ((hmem o).mpr hfree)
      obtain rfl := eq_of_mem_occurrencesAt hdistinct hx hy (.inr ho) (.inl hoy)
      exact not_mem_hiddenAt hoy ho
    · have h := hagree x hx a ha
      simp only [refersLeft, hb, Bool.not_true, Bool.false_and, Bool.false_eq_true, iff_false,
        not_and, Bool.not_eq_true] at h
      by_cases hcov : isCovered (getRelationsAliases it) a.1 a.2 = true
      · exact .inl hcov
      · exact .inr (h (by simpa using hcov))
    · exact (hagree x hx a ha).mpr (by simp [refersLeft, hb, hl])
    · have h := hagree x hx a ha
      simp only [refersLeft, hl, Bool.and_false, Bool.false_eq_true, iff_false, not_and,
        Bool.not_eq_true] at h
      by_cases hcov : isCovered (getRelationsAliases it) a.1 a.2 = true
      · exact .inl hcov
      · exact .inr (h (by simpa using hcov))
  · intro h
    obtain ⟨os, hos, hmem⟩ := @exists_intersect _ _ left i pr hroot hanchored h.operands
    refine ⟨os, hos, fun o => ?_⟩
    rw [hmem, mem_freeOccurrences]
    constructor
    · rintro ⟨⟨x, hx, ho⟩, hnames⟩
      exact ⟨x, hx, .inl ho, (h.agree hx (mem_visitedAttributes.mpr ⟨o, ho, rfl⟩)).mp hnames⟩
    · rintro ⟨x, hx, ho | ho, hrefers⟩
      · exact ⟨⟨x, hx, ho⟩, (h.agree hx (mem_visitedAttributes.mpr ⟨o, ho, rfl⟩)).mpr hrefers⟩
      · rw [h.hidden x hx _ (mem_hiddenAttributes.mpr ⟨o, ho, rfl⟩)] at hrefers
        cases hrefers

end

/-- D before it is set up. -/
private def emptyD : Projection := { args := [] }

/-- `select * from r where r.a = (select min(c) from ... where l = r)`. -/
private def minOver (from_ : PgNode) (c l r : List String) : PgNode :=
  .selectStmt false [.resTarget "" (.columnRef ["*"])] [.rangeVar "r" none]
    (.aExpr .op "=" (.columnRef ["r", "a"]) <| .subLink .expr .nullptr <|
      .selectStmt false [.resTarget "" (.funcCall "min" [.columnRef c] false false)] [from_]
        (.aExpr .op "=" (.columnRef l) (.columnRef r)) [] .nullptr [] [])
    [] .nullptr [] []

/-- `select min(s.b) from s where s.c = r.d`. -/
private def overRelation : PgNode := minOver (.rangeVar "s" none) ["s", "b"] ["s", "c"] ["r", "d"]

/-- `select min(x.b) from (select r.b from r where r.a = r.c) x where x.b = r.d`. -/
private def overOwnRelation : PgNode :=
  minOver (.rangeSubselect
    (.selectStmt false [.resTarget "" (.columnRef ["r", "b"])] [.rangeVar "r" none]
      (.aExpr .op "=" (.columnRef ["r", "a"]) (.columnRef ["r", "c"])) [] .nullptr [] []) ⟨"x", []⟩)
    ["x", "b"] ["x", "b"] ["r", "d"]

/-- The tree below the projection of the subquery. -/
private def subqueryBody : Nat := 4

end SqlOptimizer.Unnesting.FreeAttributes
