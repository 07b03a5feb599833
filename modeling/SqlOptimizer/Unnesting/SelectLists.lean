import SqlOptimizer.Unnesting.CteRows

/-!
The select list of an EXISTS or IN subquery. The selection from the CTE takes it over as it is,
but the CTE has the inner attributes of the correlating predicates only.
-/

set_option autoImplicit false
set_option relaxedAutoImplicit false

namespace SqlOptimizer.Unnesting.SelectLists

open Algebra.RelationalAlgebra
open Tree.Frames Tree.Walks
open Logic.NumberedNames Logic.Triples
open Semantics.Evaluation Semantics.References
open Parse.PgQuery
open Objects Attributes ExistsIn DecorrelateSubquery FirstSelection LiftedConjuncts CteRows

/-- The attributes of a select list. -/
def selectAttributes (args : List Expr) : List AttributeRef :=
  (allReferences args).filterMap fun
    | .column name aliasName => some (name, aliasName)
    | .marker _ => none

/-- The attribute is one column of the table, or a star that stands for all of them. -/
def Resolves (name : String) (columns : List String) (a : AttributeRef) : Prop :=
  (a.2 = "" ∨ a.2 = name) ∧ (a.1 = "*" ∨ columns.count a.1 = 1)

instance (name : String) (columns : List String) (a : AttributeRef) :
    Decidable (Resolves name columns a) := inferInstanceAs (Decidable (_ ∧ _))

/-- The subquery of the join is a selection of `args` from the last CTE. -/
def SelectsFrom (join : Nat) (s : State) (args : List Expr) (name : String)
    (columns : List String) : Prop :=
  (∃ i pr selId p relId, pr.args = args ∧ subqueryOf join s =
    some (.projection i pr (.selection selId p (.relation relId name "")))) ∧
  ∃ i pr body, pr.subqueryAlias = name ∧ pr.subqueryColumns = columns ∧
    s.tree.ctes.getLast? = some (.projection i pr body)

/-- An attribute of the select list and an inner attribute of its name are one column. -/
def ReadsAlike {V : Type} (args : List Expr) (qs : List CorrelatingPredicate) (scope : Row V) :
    Prop :=
  ∀ a ∈ selectAttributes args, ∀ q ∈ qs, a.1 = q.inner.1 →
    attributeValue scope a = attributeValue scope q.inner

/-- The references of an expression are attributes, and none is a star. -/
def ReadsColumns (e : Expr) : Prop :=
  ∀ r ∈ references e, ∃ name aliasName, r = .column name aliasName ∧ name ≠ "*"

/-- A select expression has the value over the rows of the CTE that it had over the rows of the
subquery. -/
def KeepsValues (cteName : String) (qs : List CorrelatingPredicate) (args : List Expr) : Prop :=
  ∀ (V : Type) [DecidableEq V] (I : Interpretation V) (row env : Row V) (members : List (Row V)),
    (∀ m ∈ row :: members, ReadsAlike args qs (m ++ env)) → ∀ e ∈ args, ReadsColumns e →
      value I ⟨cteRow cteName qs (row ++ env) ++ env,
          members.map fun m => cteRow cteName qs (m ++ env) ++ env⟩ e =
        value I ⟨row ++ env, members.map (· ++ env)⟩ e

/-- After the rewriting the select list resolves in the CTE, and its values are the old ones. -/
def KeepsSelectList (join : Nat) (s : State) (args : List Expr) (qs : List CorrelatingPredicate) :
    Prop :=
  ∃ name columns, SelectsFrom join s args name columns ∧
    (∀ a ∈ selectAttributes args, Resolves name columns a) ∧ KeepsValues name qs args

theorem mem_selectAttributes {args : List Expr} {e : Expr} (he : e ∈ args) {n a : String}
    (h : .column n a ∈ references e) : (n, a) ∈ selectAttributes args :=
  List.mem_filterMap.mpr ⟨_, mem_allReferences he h, rfl⟩

section

variable {V : Type}

/-- A resolved attribute reads the same over the row of the CTE. -/
theorem agree_cteRow {cteName : String} {qs : List CorrelatingPredicate} {args : List Expr}
    (hname : cteName ≠ "") (hresolves : ∀ a ∈ selectAttributes args,
      Resolves cteName (columnNames qs) a) {row env : Row V}
    (halike : ReadsAlike args qs (row ++ env)) {e : Expr} (he : e ∈ args) (hcols : ReadsColumns e) :
    Agree (references e) (cteRow cteName qs (row ++ env) ++ env) (row ++ env) := by
  intro r hr
  obtain ⟨n, a, rfl, hstar⟩ := hcols r hr
  have hmem := mem_selectAttributes he hr
  obtain ⟨hscope, hone⟩ := hresolves _ hmem
  have hone : (columnNames qs).count n = 1 := hone.resolve_left hstar
  have hn : n ∈ columnNames qs := List.count_pos_iff.mp (by omega)
  obtain ⟨q, hq, rfl⟩ := List.mem_map.mp hn
  have hcolumn := lookup_cteColumns hq hone (row ++ env)
  have hvalue : attributeValue (cteRow cteName qs (row ++ env) ++ env) (q.inner.1, a) =
      attributeValue (row ++ env) q.inner := by
    rcases hscope with rfl | rfl
    · exact attributeValue_cteRow_unqualified _ env hcolumn
    · rw [attributeValue_cteRow _ env hname, hcolumn]
      rfl
  have hold := halike _ hmem q hq rfl
  refine Prod.ext (hvalue.trans hold.symm) ?_
  rw [lookup_column_snd, lookup_column_snd]

theorem keepsValues_of_resolves {cteName : String} {qs : List CorrelatingPredicate}
    {args : List Expr} (hname : cteName ≠ "") (hresolves : ∀ a ∈ selectAttributes args,
      Resolves cteName (columnNames qs) a) : KeepsValues cteName qs args := by
  intro V _ I row env members halike e he hcols
  refine (determined I e).value ⟨?_, ?_⟩
  · exact agree_cteRow hname hresolves (halike row List.mem_cons_self) he hcols
  · rw [List.forall₂_map_left_iff, List.forall₂_map_right_iff]
    rw [List.forall_mem_cons] at halike
    rw [List.forall₂_same]
    exact fun m hm => agree_cteRow hname hresolves (halike.2 m hm) he hcols

end

section

variable {join : Nat} {s : State} {w : Rewriting} (hw : w.Applies join s)

include hw

/-- The projection of the CTE stays as it is when the first Selection below it changes. -/
theorem exists_cteBody : ∃ body, w.cte = .projection s.tree.nextId
    (cteProjectionOf (numbered "cte_" s.tree.counter) w.correlating) body := by
  have hcte := hw.cte
  obtain ⟨rest, -, h⟩ := Option.bind_eq_some_iff.mp hcte
  generalize cteProjectionOf (numbered "cte_" s.tree.counter) w.correlating = pr at h ⊢
  have hupdate (i : Nat) (f : RaNode → RaNode)
      (hf : ∃ c', f (.projection s.tree.nextId pr w.body) = .projection s.tree.nextId pr c') :
      ∃ c', update i f (.projection s.tree.nextId pr w.body) = .projection s.tree.nextId pr c' := by
    rw [update]
    split
    · exact hf
    · exact ⟨_, rfl⟩
  cases rest with
  | none =>
    simp only [removeSelection] at h
    split at h
    · rw [Option.ite_none_left_eq_some] at h
      obtain ⟨-, h⟩ := h
      rw [← Option.some.inj h]
      exact hupdate _ _ ⟨_, rfl⟩
    · cases h
  | some e =>
    rw [← Option.some.inj h]
    exact hupdate _ _ ⟨_, rfl⟩

theorem selectsFrom_iff {name : String} {columns : List String} :
    SelectsFrom join (w.result join s) w.projection.args name columns ↔
      name = numbered "cte_" s.tree.counter ∧ columns = columnNames w.correlating := by
  obtain ⟨body, hbody⟩ := exists_cteBody hw
  have hlast : (w.result join s).tree.ctes.getLast? = some w.cte := List.getLast?_concat
  constructor
  · rintro ⟨⟨i, pr, selId, p, relId, -, hsub⟩, j, pr', body', hname, rfl, hcte⟩
    rw [hlast, hbody] at hcte
    obtain rfl := UnaryOp.projection.inj (RaNode.unary.inj (Option.some.inj hcte)).2.1
    exact ⟨hname.symm, rfl⟩
  · rintro ⟨rfl, rfl⟩
    exact ⟨⟨_, { args := w.projection.args }, _, _, _, rfl, subqueryOf_result hw⟩,
      _, _, body, rfl, rfl, hlast.trans (congrArg some hbody)⟩

theorem resolves_of_keepsSelectList
    (h : KeepsSelectList join (w.result join s) w.projection.args w.correlating) :
    ∀ a ∈ selectAttributes w.projection.args,
      Resolves (numbered "cte_" s.tree.counter) (columnNames w.correlating) a := by
  obtain ⟨_, _, hfrom, hresolves, -⟩ := h
  obtain ⟨rfl, rfl⟩ := (selectsFrom_iff hw).mp hfrom
  exact hresolves

theorem result_of_run {s' : State} (h : outcome (decorrelateExistsInSubquery join) s = (.ok (), s')) :
    s' = w.result join s := by
  have hrun := decorrelateExistsInSubquery_eq_ok.mpr ⟨w, hw, rfl⟩
  exact (Prod.mk.inj (h.symm.trans hrun)).2

end

/-- The select list survives the rewriting exactly when its attributes are named as one inner
attribute each and have no qualifier but the name of the CTE. -/
theorem decorrelateExistsInSubquery_keepsSelectList_iff {join : Nat} {s s' : State} {w : Rewriting}
    (hw : w.Applies join s) (h : outcome (decorrelateExistsInSubquery join) s = (.ok (), s')) :
    KeepsSelectList join s' w.projection.args w.correlating ↔
      ∀ a ∈ selectAttributes w.projection.args,
        Resolves (numbered "cte_" s.tree.counter) (columnNames w.correlating) a := by
  rw [result_of_run hw h]
  refine ⟨resolves_of_keepsSelectList hw, fun hresolves => ?_⟩
  exact ⟨_, _, (selectsFrom_iff hw).mpr ⟨rfl, rfl⟩, hresolves,
    keepsValues_of_resolves (numbered_ne_empty (by decide) _) hresolves⟩

/-- `select * from r where r.x in (select item from s where l = r.a)`. -/
def inSubquery (item l : List String) : PgNode :=
  .selectStmt false [.resTarget "" (.columnRef ["*"])] [.rangeVar "r" none]
    (.subLink .any (.columnRef ["r", "x"]) <|
      .selectStmt false [.resTarget "" (.columnRef item)] [.rangeVar "s" none]
        (.aExpr .op "=" (.columnRef l) (.columnRef ["r", "a"])) [] .nullptr [] [])
    [] .nullptr [] []

/-- What the evaluation of a run gives for the select list. -/
private theorem exists_run {item l : List String} {as : List AttributeRef} {columns : List String}
    (h : ∃ s ∈ beforeExistsIn (inSubquery item l), numbered "cte_" s.tree.counter = "cte_1" ∧
      (outcome (decorrelateExistsInSubquery 2) s).1.toOption.isSome = true ∧
      ∃ x ∈ subqueryParts 2 s, selectAttributes x.2.1.args = as ∧
        (getCorrelatingPredicates (getRelationsAliases x.2.2.1) x.2.2.2.2).map columnNames =
          some columns) :
    ∃ s, ∃ w : Rewriting, beforeExistsIn (inSubquery item l) = some s ∧ w.Applies 2 s ∧
      outcome (decorrelateExistsInSubquery 2) s = (.ok (), w.result 2 s) ∧
      numbered "cte_" s.tree.counter = "cte_1" ∧
      selectAttributes w.projection.args = as ∧ columnNames w.correlating = columns := by
  obtain ⟨s, hs, hcounter, hok, x, hx, has, hcolumns⟩ := h
  obtain ⟨w, hw, hpr, hbody, hp⟩ := exists_applies hok hx
  rw [← hbody, ← hp, hw.correlating] at hcolumns
  exact ⟨s, w, hs, hw, decorrelateExistsInSubquery_eq_ok.mpr ⟨w, hw, rfl⟩, hcounter,
    by rw [hpr, has], Option.some.inj hcolumns⟩

/-- With `select b .. where s.b = r.a` the column `b` of the CTE is selected. -/
theorem innerColumn_keepsSelectList : ∃ s s', ∃ w : Rewriting,
    beforeExistsIn (inSubquery ["b"] ["s", "b"]) = some s ∧ w.Applies 2 s ∧
    outcome (decorrelateExistsInSubquery 2) s = (.ok (), s') ∧
    KeepsSelectList 2 s' w.projection.args w.correlating := by
  obtain ⟨s, w, hs, hw, hrun, hname, has, hcolumns⟩ := exists_run
    (by decide +kernel : ∃ s ∈ beforeExistsIn (inSubquery ["b"] ["s", "b"]), _ ∧ _ ∧
      ∃ x ∈ subqueryParts 2 s, selectAttributes x.2.1.args = [("b", "")] ∧ _ = some ["b"])
  refine ⟨s, _, w, hs, hw, hrun, ?_⟩
  refine (decorrelateExistsInSubquery_keepsSelectList_iff hw hrun).mpr ?_
  rw [has, hcolumns, hname]
  decide

/-- With `select s.b .. where s.a = r.a` the CTE has no column `b`, and no relation is called
`s`. -/
theorem otherColumn_not_keepsSelectList : ∃ s s', ∃ w : Rewriting,
    beforeExistsIn (inSubquery ["s", "b"] ["s", "a"]) = some s ∧ w.Applies 2 s ∧
    outcome (decorrelateExistsInSubquery 2) s = (.ok (), s') ∧
    ¬ KeepsSelectList 2 s' w.projection.args w.correlating := by
  obtain ⟨s, w, hs, hw, hrun, hname, has, hcolumns⟩ := exists_run
    (by decide +kernel : ∃ s ∈ beforeExistsIn (inSubquery ["s", "b"] ["s", "a"]), _ ∧ _ ∧
      ∃ x ∈ subqueryParts 2 s, selectAttributes x.2.1.args = [("b", "s")] ∧ _ = some ["a"])
  refine ⟨s, _, w, hs, hw, hrun, fun h => ?_⟩
  have hresolves := resolves_of_keepsSelectList hw h
  rw [has, hcolumns, hname] at hresolves
  exact absurd hresolves (by decide)

end SqlOptimizer.Unnesting.SelectLists
