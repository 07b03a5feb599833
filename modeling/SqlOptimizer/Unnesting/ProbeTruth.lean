import SqlOptimizer.Unnesting.CteRows

/-!
The truth of the predicates that the selection from a CTE is made of. A correlating predicate
is built anew with its inner attribute on the left, whichever side that was on before.
-/

set_option autoImplicit false
set_option relaxedAutoImplicit false

namespace SqlOptimizer.Unnesting.ProbeTruth

open Algebra.RelationalAlgebra
open Tree.Walks
open Logic.NumberedNames Logic.ThreeValued Logic.Triples
open Semantics.Evaluation Semantics.References
open Parse.PgQuery
open Objects Attributes ExistsIn DecorrelateSubquery FirstSelection LiftedConjuncts CteRows

/-- The operators whose operands may change places. -/
def symmetricOperators : List String := ["=", "<>"]

/-- Equality and inequality do not depend on the order of their operands. -/
def SymmetricEquality {V : Type} (I : Interpretation V) : Prop :=
  ∀ op ∈ symmetricOperators, ∀ xs ys, I.compare op xs ys = I.compare op ys xs

/-- A row of the subquery that has the inner attribute of a correlating predicate, and not its outer
attribute. -/
structure IsInnerRow {V : Type} (q : CorrelatingPredicate) (row : Row V) : Prop where
  inner : Offers row (.column q.inner.1 q.inner.2)
  outer : ¬ Offers row (.column q.outer.1 q.outer.2)

/-- The column of the CTE that the probe compares is the only one of its name; the probe over the row
of the CTE is as true as the correlating predicate `l op r` over the row of the subquery, for all
rows of the subquery and of the queries around it. -/
def SameTruth (cteName : String) (qs : List CorrelatingPredicate) (l r : Expr) (op : String)
    (q : CorrelatingPredicate) : Prop :=
  (columnNames qs).count q.inner.1 = 1 ∧
    ∀ (V : Type) [DecidableEq V] (I : Interpretation V), SymmetricEquality I →
      ∀ row env : Row V, IsInnerRow q row →
        truth I ⟨row ++ env, []⟩ (.predicate l r op) =
          truth I ⟨cteRow cteName qs (row ++ env) ++ env, []⟩ (probePredicate cteName q)

/-- The condition on a correlating predicate: no other one has an inner attribute of the same name,
its inner attribute is on the left unless the operator is symmetric, and its outer attribute does
not name a column of the CTE. -/
structure Faithful (cteName : String) (qs : List CorrelatingPredicate) (l : Expr) (op : String)
    (q : CorrelatingPredicate) : Prop where
  column : (columnNames qs).count q.inner.1 = 1
  orientation : l = .attribute q.inner.1 q.inner.2 ∨ op ∈ symmetricOperators
  unqualified : q.outer.2 = "" → q.outer.1 ∉ columnNames qs
  qualifier : q.outer.2 ≠ cteName

section

variable {V : Type} [DecidableEq V] (I : Interpretation V)

theorem truth_attributes (scope : Row V) (a b : AttributeRef) (op : String) :
    truth I ⟨scope, []⟩ (.predicate (.attribute a.1 a.2) (.attribute b.1 b.2) op) =
      I.compare op [attributeValue scope a] [attributeValue scope b] := rfl

end

section

variable {relationsAliases : List (String × String)} {cteName : String}
  {qs : List CorrelatingPredicate} {l r : Expr} {op : String} {q : CorrelatingPredicate}
  (hname : cteName ≠ "") (hq : isCorrelatingPredicate relationsAliases l r op = some q)
  (hmem : q ∈ qs)

include hname hq hmem

theorem sameTruth_of_faithful (h : Faithful cteName qs l op q) :
    SameTruth cteName qs l r op q := by
  refine ⟨h.column, fun V _ I hI row env hrow => ?_⟩
  have houter : attributeValue (row ++ env) q.outer = attributeValue env q.outer := by
    rw [attributeValue, attributeValue, lookup_append_left hrow.outer]
  have hprobe : truth I ⟨cteRow cteName qs (row ++ env) ++ env, []⟩ (probePredicate cteName q) =
      I.compare q.binaryOperator [attributeValue (row ++ env) q.inner]
        [attributeValue env q.outer] := by
    have hleft := @attributeValue_cteRow _ cteName qs (row ++ env) env hname q.inner.1
    rw [lookup_cteColumns hmem h.column] at hleft
    rw [probePredicate, truth_attributes I _ (q.inner.1, cteName) q.outer, hleft,
      attributeValue_cteRow_outer _ _ h.qualifier h.unqualified]
    rfl
  obtain ⟨rfl, hinner, hnot, hsides⟩ := isCorrelatingPredicate_eq_some hq
  rw [hprobe]
  rcases hsides with ⟨rfl, rfl⟩ | ⟨rfl, rfl⟩
  · rw [truth_attributes I _ q.inner q.outer, houter]
  · have hsym : q.binaryOperator ∈ symmetricOperators := by
      refine h.orientation.resolve_left fun heq => ?_
      obtain ⟨h₁, h₂⟩ := Expr.attribute.inj heq
      rw [show q.inner = q.outer from Prod.ext h₁.symm h₂.symm, hnot] at hinner
      cases hinner
    rw [truth_attributes I _ q.outer q.inner, houter, hI _ hsym]

end

/-- An interpretation in which only comparisons matter. -/
def comparing (compare : String → List (Option Unit) → List (Option Unit) → Truth) :
    Interpretation Unit where
  constant _ _ := none
  function _ _ := none
  aggregate _ _ := none
  unary _ _ := none
  binary _ _ _ := none
  cast _ _ v := v
  compare := compare
  holds _ := .unknown

/-- A binding in which an attribute is NULL; an attribute without a qualifier is in a source with the
qualifier `other`. -/
def nullBinding (other : String) (a : AttributeRef) : Binding Unit :=
  if a.2 = "" then .source other [(a.1, none)] else .source a.2 []

private theorem resolve_null {qualifier : String} {cs : List (String × Option Unit)}
    (hcs : ∀ c ∈ cs, c.2 = none) {ref : Reference} {v : Option Unit × Truth}
    (h : resolve ref (.source qualifier cs) = some v) : v.1 = none := by
  cases ref with
  | marker m => cases h
  | column x a =>
    have hlookup : ((cs.lookup x).join) = none := by
      cases hx : cs.lookup x with
      | none => rfl
      | some w =>
        obtain ⟨l₁, l₂, heq, -⟩ := List.lookup_eq_some_iff.mp hx
        exact hcs (x, w) (by simp [heq])
    rw [resolve] at h
    split at h
    · obtain ⟨w, hw, rfl⟩ := Option.map_eq_some_iff.mp h
      rw [hw] at hlookup
      exact hlookup
    · rw [Option.ite_none_right_eq_some] at h
      obtain ⟨-, h⟩ := h
      cases h
      exact hlookup

theorem resolve_nullBinding {other : String} {a : AttributeRef} {ref : Reference}
    {v : Option Unit × Truth} (h : resolve ref (nullBinding other a) = some v) : v.1 = none := by
  unfold nullBinding at h
  split at h
  · exact resolve_null (by simp) h
  · exact resolve_null (by simp) h

section

variable {relationsAliases : List (String × String)} {qs : List CorrelatingPredicate}
  {other : String}

/-- A row in which all inner attributes are NULL. -/
def nullInner (other : String) (qs : List CorrelatingPredicate) : Row Unit :=
  qs.map fun q => nullBinding other q.inner

theorem offers_nullInner {q : CorrelatingPredicate} (hq : q ∈ qs) :
    Offers (nullInner other qs) (.column q.inner.1 q.inner.2) := by
  refine ⟨_, List.mem_map_of_mem hq, ?_⟩
  by_cases h : q.inner.2 = "" <;> simp [nullBinding, resolve, h]

theorem attributeValue_nullInner {q : CorrelatingPredicate} (hq : q ∈ qs) (env : Row Unit) :
    attributeValue (nullInner other qs ++ env) q.inner = none := by
  obtain ⟨b, hb, hsome⟩ : Offers (nullInner other qs) _ := offers_nullInner hq
  cases hfind : (nullInner other qs).findSome? (resolve (.column q.inner.1 q.inner.2)) with
  | none =>
    rw [List.findSome?_eq_none_iff] at hfind
    rw [hfind b hb] at hsome
    cases hsome
  | some v =>
    obtain ⟨b', hb', hv⟩ := List.exists_of_findSome?_eq_some hfind
    obtain ⟨q', -, rfl⟩ := List.mem_map.mp hb'
    simp [attributeValue, lookup, List.findSome?_append, hfind, resolve_nullBinding hv]

/-- The outer attribute is none of the inner ones. -/
theorem not_offers_nullInner
    (hfound : ∀ q ∈ qs, foundRelation relationsAliases q.inner = true) {a : AttributeRef}
    (ha : foundRelation relationsAliases a = false) (hother : a.2 ≠ other) :
    ¬ Offers (nullInner other qs) (.column a.1 a.2) := by
  rintro ⟨b, hb, hsome⟩
  obtain ⟨q, hq, rfl⟩ := List.mem_map.mp hb
  have hinner := hfound q hq
  by_cases hempty : a.2 = ""
  · by_cases hinnerEmpty : q.inner.2 = ""
    · have hne : a.1 ≠ q.inner.1 := by
        intro heq
        rw [show q.inner = a from Prod.ext heq.symm (hinnerEmpty.trans hempty.symm), ha] at hinner
        cases hinner
      have hbeq : (a.1 == q.inner.1) = false := by simpa using hne
      simp [nullBinding, resolve, hempty, hinnerEmpty, List.lookup_cons, hbeq] at hsome
    · simp [nullBinding, resolve, hempty, hinnerEmpty] at hsome
  · have hne : q.inner.2 ≠ a.2 := by
      intro heq
      have hsame : foundRelation relationsAliases q.inner = foundRelation relationsAliases a := by
        simp [foundRelation, heq, hempty]
      rw [hsame, ha] at hinner
      cases hinner
    by_cases hinnerEmpty : q.inner.2 = ""
    · simp [nullBinding, resolve, hempty, hinnerEmpty, Ne.symm hother] at hsome
    · simp [nullBinding, resolve, hempty, hinnerEmpty, hne] at hsome

end

/-- A row in which the attribute has a value. -/
def outerRow (a : AttributeRef) : Row Unit := [.source a.2 [(a.1, some ())]]

theorem attributeValue_outerRow (a : AttributeRef) : attributeValue (outerRow a) a = some () := by
  by_cases h : a.2 = "" <;> simp [attributeValue, outerRow, lookup, resolve, h]

section

variable {relationsAliases : List (String × String)} {cteName : String}
  {qs : List CorrelatingPredicate} {l r : Expr} {op : String} {q : CorrelatingPredicate}
  (hname : cteName ≠ "")
  (hfound : ∀ q ∈ qs, foundRelation relationsAliases q.inner = true)
  (hq : isCorrelatingPredicate relationsAliases l r op = some q) (hmem : q ∈ qs)

include hname hfound hq hmem

/-- What the equality of the truth values says for a row with NULL inner attributes and an outer
attribute that is not NULL. -/
private theorem compare_of_sameTruth (h : SameTruth cteName qs l r op q)
    {compare : String → List (Option Unit) → List (Option Unit) → Truth}
    (hsym : SymmetricEquality (comparing compare)) :
    ∃ v, (l = .attribute q.inner.1 q.inner.2 ∧ compare op [none] [some ()] = compare op [none] [v] ∨
        l ≠ .attribute q.inner.1 q.inner.2 ∧
          compare op [some ()] [none] = compare op [none] [v]) ∧
      ((q.outer.2 = "" ∧ q.outer.1 ∈ columnNames qs) ∨ q.outer.2 = cteName → v = none) := by
  obtain ⟨rfl, hinner, hnot, hsides⟩ := isCorrelatingPredicate_eq_some hq
  obtain ⟨other, hother⟩ : ∃ other, q.outer.2 ≠ other := by
    by_cases h : q.outer.2 = "a"
    · exact ⟨"b", by rw [h]; decide⟩
    · exact ⟨"a", h⟩
  have hout := not_offers_nullInner hfound hnot hother
  have htruth := h.2 Unit (comparing compare) hsym (nullInner other qs) (outerRow q.outer)
    ⟨offers_nullInner hmem, hout⟩
  have hvalue : attributeValue (nullInner other qs ++ outerRow q.outer) q.outer = some () := by
    rw [attributeValue, lookup_append_left hout]
    exact attributeValue_outerRow q.outer
  have hnull : attributeValue (nullInner other qs ++ outerRow q.outer) q.inner = none :=
    attributeValue_nullInner hmem _
  have hall (x : String) : ((cteColumns qs (nullInner other qs ++ outerRow q.outer)).lookup x).join =
      none := by
    cases hx : (cteColumns qs (nullInner other qs ++ outerRow q.outer)).lookup x with
    | none => rfl
    | some w =>
      obtain ⟨l₁, l₂, heq, -⟩ := List.lookup_eq_some_iff.mp hx
      have hw : (x, w) ∈ cteColumns qs (nullInner other qs ++ outerRow q.outer) := by
        simp [heq]
      obtain ⟨q', hq', hpair⟩ := List.mem_map.mp hw
      cases hpair
      exact attributeValue_nullInner hq' _
  refine ⟨attributeValue (cteRow cteName qs (nullInner other qs ++ outerRow q.outer) ++
    outerRow q.outer) q.outer, ?_, ?_⟩
  · have hleft := @attributeValue_cteRow _ cteName qs (nullInner other qs ++ outerRow q.outer)
      (outerRow q.outer) hname q.inner.1
    rw [hall] at hleft
    rw [probePredicate, truth_attributes _ _ (q.inner.1, cteName) q.outer, hleft] at htruth
    rcases hsides with ⟨rfl, rfl⟩ | ⟨rfl, rfl⟩
    · rw [truth_attributes _ _ q.inner q.outer, hnull, hvalue] at htruth
      exact .inl ⟨rfl, htruth⟩
    · rw [truth_attributes _ _ q.outer q.inner, hnull, hvalue] at htruth
      refine .inr ⟨fun heq => ?_, htruth⟩
      obtain ⟨h₁, h₂⟩ := Expr.attribute.inj heq
      rw [show q.inner = q.outer from Prod.ext h₁.symm h₂.symm, hnot] at hinner
      cases hinner
  · rintro (⟨hempty, hcolumn⟩ | hqualifier)
    · have hsome : ((cteColumns qs (nullInner other qs ++ outerRow q.outer)).lookup
          q.outer.1).isSome = true := by
        rw [List.lookup_isSome_iff]
        obtain ⟨q', hq', heq⟩ := List.mem_map.mp hcolumn
        exact ⟨_, List.mem_map_of_mem hq', by simpa using heq.symm⟩
      obtain ⟨w, hw⟩ := Option.isSome_iff_exists.mp hsome
      have hright := @attributeValue_cteRow_unqualified _ cteName _ _ (outerRow q.outer) _ _ hw
      have hnone := hall q.outer.1
      rw [hw] at hnone
      rw [show q.outer = (q.outer.1, "") from Prod.ext rfl hempty] at hright ⊢
      exact hright.trans hnone
    · have hright := @attributeValue_cteRow _ cteName qs (nullInner other qs ++ outerRow q.outer)
        (outerRow q.outer) hname q.outer.1
      rw [hall, ← hqualifier] at hright
      exact hqualifier ▸ hright

theorem faithful_of_sameTruth (h : SameTruth cteName qs l r op q) : Faithful cteName qs l op q := by
  -- a comparison that holds between two NULLs only
  let bothNull (_ : String) (xs ys : List (Option Unit)) : Truth :=
    .ofBool (xs == [none] && ys == [none])
  have hbothSym : SymmetricEquality (comparing bothNull) := fun op _ xs ys => by
    simp [comparing, bothNull, Bool.and_comm]
  -- one that looks at the left side, unless it must be symmetric
  let leftNull (op : String) (xs _ : List (Option Unit)) : Truth :=
    if op ∈ symmetricOperators then .ff else .ofBool (xs == [none])
  have hleftSym : SymmetricEquality (comparing leftNull) := fun op hop xs ys => by
    simp [comparing, leftNull, hop]
  have hcaptured : ¬ ((q.outer.2 = "" ∧ q.outer.1 ∈ columnNames qs) ∨ q.outer.2 = cteName) := by
    intro hcap
    obtain ⟨v, hv, hnone⟩ := compare_of_sameTruth hname hfound hq hmem h hbothSym
    rw [hnone hcap] at hv
    rcases hv with ⟨-, hv⟩ | ⟨-, hv⟩ <;> exact absurd hv (by decide)
  rw [not_or, not_and] at hcaptured
  refine ⟨h.1, ?_, hcaptured.1, hcaptured.2⟩
  by_contra hbad
  rw [not_or] at hbad
  obtain ⟨v, hv, -⟩ := compare_of_sameTruth hname hfound hq hmem h hleftSym
  rcases hv with ⟨hl, -⟩ | ⟨-, hv⟩
  · exact hbad.1 hl
  · simp only [leftNull, if_neg hbad.2] at hv
    exact absurd hv (by decide)

end

/-- A correlating predicate keeps its truth value under the condition, and only then. -/
theorem probePredicate_sameTruth_iff {w : Rewriting} {join : Nat} {s : State}
    (hw : w.Applies join s) {l r : Expr} {op : String} {q : CorrelatingPredicate}
    (hq : isCorrelatingPredicate (getRelationsAliases w.body) l r op = some q)
    (hmem : q ∈ w.correlating) :
    SameTruth (numbered "cte_" s.tree.counter) w.correlating l r op q ↔
      Faithful (numbered "cte_" s.tree.counter) w.correlating l op q := by
  have hname : numbered "cte_" s.tree.counter ≠ "" := by
    intro h
    have := congrArg String.length h
    simp [numbered] at this
  exact ⟨faithful_of_sameTruth hname (fun q hq => foundRelation_inner hw.correlating hq) hq hmem,
    sameTruth_of_faithful hname hq hmem⟩

private def compares (op : String) (l r : List String) : PgNode :=
  .aExpr .op op (.columnRef l) (.columnRef r)

/-- `select * from r where exists (select * from s where l < r)`. -/
def existsLess (l r : List String) : PgNode :=
  .selectStmt false [.resTarget "" (.columnRef ["*"])] [.rangeVar "r" none]
    (.subLink .exists .nullptr <|
      .selectStmt false [.resTarget "" (.columnRef ["*"])] [.rangeVar "s" none]
        (compares "<" l r) [] .nullptr [] []) [] .nullptr [] []

/-- The correlating predicate of `s.a < r.a`. -/
private def less : CorrelatingPredicate := ⟨("a", "r"), ("a", "s"), "<"⟩

/-- For `s.a < r.a` the probe is the same comparison. -/
theorem innerFirst_sameTruth : ∃ s, ∃ w : Rewriting,
    beforeExistsIn (existsLess ["s", "a"] ["r", "a"]) = some s ∧ w.Applies 2 s ∧ SameTruth (numbered "cte_" s.tree.counter) w.correlating
      (.attribute "a" "s") (.attribute "a" "r") "<" less := by
  have hrun : ∃ s ∈ beforeExistsIn (existsLess ["s", "a"] ["r", "a"]),
      numbered "cte_" s.tree.counter = "cte_1" ∧
      (outcome (decorrelateExistsInSubquery 2) s).1.toOption.isSome = true ∧
      ∃ x ∈ subqueryParts 2 s, getRelationsAliases x.2.2.1 = [("s", "")] ∧
        getCorrelatingPredicates [("s", "")] x.2.2.2.2 = some [less] := by
    decide +kernel
  obtain ⟨s, hs, hcounter, hok, hparts⟩ := hrun
  obtain ⟨w, hw, hrel, hqs⟩ := exists_rewriting hok hparts
  refine ⟨s, w, hs, hw, (probePredicate_sameTruth_iff hw ?_ ?_).mpr ?_⟩
  · rw [hrel]
    decide
  · simp [hqs]
  · rw [hqs, hcounter]
    exact ⟨by decide, .inl rfl, by decide, by decide⟩

/-- For `r.a < s.a` the sides change places, but not the operator. -/
theorem outerFirst_not_sameTruth : ∃ s, ∃ w : Rewriting,
    beforeExistsIn (existsLess ["r", "a"] ["s", "a"]) = some s ∧
    w.Applies 2 s ∧ isCorrelatingPredicate (getRelationsAliases w.body) (.attribute "a" "r")
      (.attribute "a" "s") "<" = some less ∧ less ∈ w.correlating ∧
    ¬ SameTruth (numbered "cte_" s.tree.counter) w.correlating (.attribute "a" "r")
      (.attribute "a" "s") "<" less := by
  have hrun : ∃ s ∈ beforeExistsIn (existsLess ["r", "a"] ["s", "a"]),
      numbered "cte_" s.tree.counter = "cte_1" ∧
      (outcome (decorrelateExistsInSubquery 2) s).1.toOption.isSome = true ∧
      ∃ x ∈ subqueryParts 2 s, getRelationsAliases x.2.2.1 = [("s", "")] ∧
        getCorrelatingPredicates [("s", "")] x.2.2.2.2 = some [less] := by
    decide +kernel
  obtain ⟨s, hs, hcounter, hok, hparts⟩ := hrun
  obtain ⟨w, hw, hrel, hqs⟩ := exists_rewriting hok hparts
  have hcor : isCorrelatingPredicate [("s", "")] (.attribute "a" "r") (.attribute "a" "s") "<" =
      some less := by
    decide
  refine ⟨s, w, hs, hw, hrel ▸ hcor, by simp [hqs], fun h => ?_⟩
  rw [hqs, hcounter] at h
  have hfound : ∀ q ∈ [less], foundRelation [("s", "")] q.inner = true := by decide
  have hfaithful := faithful_of_sameTruth (by decide) hfound hcor (by simp) h
  rcases hfaithful.orientation with heq | hop
  · exact absurd (Expr.attribute.inj heq).2 (by decide)
  · exact absurd hop (by decide)

end SqlOptimizer.Unnesting.ProbeTruth
