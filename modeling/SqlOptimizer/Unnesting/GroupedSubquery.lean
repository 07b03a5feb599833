import SqlOptimizer.Logic.GroupedJoins
import SqlOptimizer.Semantics.ExchangedRows
import SqlOptimizer.Unnesting.ChangedConditions
import SqlOptimizer.Unnesting.DColumns

/-!
A scalar subquery as a derived table with one row for each value of the inner attributes. An outer
row meets at most one of these rows, the one that the subquery gives for it, and a row for which the
subquery gives NULL is lost on both sides.
-/

set_option autoImplicit false
set_option relaxedAutoImplicit false

namespace SqlOptimizer.Unnesting.GroupedSubquery

open Algebra.RelationalAlgebra
open Tree.PushDown (addPredicate)
open Tree.PushDownConditions (absorbs)
open Tree.PushDownMeaning (truth_addPredicate)
open Logic.GroupedJoins Logic.NestedLoops Logic.ThreeValued
open Semantics.Evaluation Semantics.References Semantics.RowShape Semantics.ExchangedRows
open Semantics.Equivalence (renameTuple_eq_self)
open Semantics.FreeReads (offers_of_mem lookup_append lookup_append_of_offers)
open Attributes Markers ChangedConditions
open DColumns (tableColumnNames)
open DecorrelateSubquery (columnPredicate)

/-- A scalar subquery with one item over the rows of `inner` that satisfy `condition`, below the
Selection that compares it with something. -/
structure ScalarSubquery where
  sel : Nat
  above : Expr
  join : Nat
  marker : Nat
  outer : RaNode
  projection : Nat
  item : Expr
  groupBy : Nat
  selection : Nat
  condition : Expr
  inner : RaNode

/-- An attribute of the outer side and the attribute of the inner side that it is compared with. -/
abbrev ColumnPair := AttributeRef × AttributeRef

/-- What takes the place of the subquery: the alias and the columns of a derived table, and the
conditions in the two Selections. -/
structure GroupedTable where
  subqueryAlias : String
  columns : List ColumnPair
  above : Expr
  condition : Expr

def attributeExpr (a : AttributeRef) : Expr := .attribute a.1 a.2

def reference (a : AttributeRef) : Reference := .column a.1 a.2

/-- A Selection, unless nothing is left of its condition. -/
def filtered (sel : Nat) (p : Expr) (t : RaNode) : RaNode :=
  if p.isPresent then .selection sel p t else t

namespace GroupedTable

variable (u : GroupedTable)

def columnNames : List String := tableColumnNames u.subqueryAlias (u.columns.map Prod.fst)

def nameOf (c : ColumnPair) : String := u.subqueryAlias ++ "_" ++ c.1.1

/-- The condition in the Selection above the join, with the conditions on the columns. -/
def joined : Expr :=
  u.columns.foldl (fun p c => addPredicate p (columnPredicate u.subqueryAlias c.1)) u.above

def projection (item : Expr) : Projection where
  args := item :: u.columns.map fun c => attributeExpr c.2
  subqueryAlias := u.subqueryAlias
  subqueryColumns := u.columnNames

end GroupedTable

namespace ScalarSubquery

variable (w : ScalarSubquery)

def subquery : RaNode :=
  .projection w.projection { args := [w.item] }
    (.groupBy w.groupBy [] true (.selection w.selection w.condition w.inner))

def tree : RaNode :=
  .selection w.sel w.above
    (.join w.join { type := .dependentInnerLeft, marker := w.marker } w.outer w.subquery)

def table (u : GroupedTable) : RaNode :=
  .projection w.projection (u.projection w.item)
    (.groupBy w.groupBy (u.columns.map fun c => attributeExpr c.2) false
      (filtered w.selection u.condition w.inner))

/-- The tree with the derived table. -/
def grouped (u : GroupedTable) : RaNode :=
  .selection w.sel u.joined (.join w.join { type := .crossProduct } w.outer (w.table u))

end ScalarSubquery

/-- What the subquery gives for a row, and what the derived table gives for it. -/
def oldBinding {V : Type} (w : ScalarSubquery) : Row V := [.subquery w.marker none .unknown]

def newBinding {V : Type} (u : GroupedTable) : Row V :=
  [.source u.subqueryAlias (u.columnNames.map fun n => (n, none))]

/-- Equality holds between equal values. -/
def ExactEquality {V : Type} (I : Interpretation V) : Prop :=
  ∀ v w : Option V, I.compare "=" [v] [w] = .tt ↔ v = w ∧ v ≠ none

/-- The names in the conditions are those of the columns that they mean. -/
structure NamesFit {V : Type} (db : Database V) (w : ScalarSubquery) (u : GroupedTable) : Prop where
  marker : w.marker ≠ 0
  star : Semantics.FreeReads.isStar w.item = false
  item : ∀ q ∈ references w.item, Offers (nullRow db w.inner) q ∨ ¬ Offers (nullRow db w.outer) q
  plain : ∀ c ∈ u.columns, c.2.1 ≠ "*"
  aliasName : u.subqueryAlias ≠ ""
  nodup : u.columnNames.Nodup
  offered : ∀ c ∈ u.columns, Offers (nullRow db w.outer) (reference c.1)
  aliasFree : ∀ n, ¬ Offers (nullRow db w.outer) (.column n u.subqueryAlias)
  markerFree : ¬ Offers (nullRow db w.outer) (.marker w.marker)
  compares : ComparesOnly w.marker w.above
  replaced : replaceInSelection w.marker (.attribute "m" u.subqueryAlias) w.above =
    some (some u.above)
  unread : ∀ q ∈ references w.above, ¬ Offers (newBinding u : Row V) q
  markerGone : .marker w.marker ∉ references u.above

/-- An inner row satisfies the condition of the subquery for an outer row exactly when it satisfies
the new condition and their attributes are equal. -/
def MatchesByColumns {V : Type} [DecidableEq V] (db : Database V) (I : Interpretation V)
    (w : ScalarSubquery) (u : GroupedTable) : Prop :=
  ∀ env, ∀ t ∈ evaluate db I w.outer env, ∀ r ∈ evaluate db I w.inner env,
    (satisfies I (t.row ++ env) w.condition r = true ↔
      satisfies I env u.condition r = true ∧ ∀ c ∈ u.columns,
        (lookup (r.row ++ env) (reference c.2)).1 = (lookup (t.row ++ env) (reference c.1)).1 ∧
          (lookup (t.row ++ env) (reference c.1)).1 ≠ none)

/-- The derived table gives what the subquery gives. -/
structure Groupable {V : Type} [DecidableEq V] (db : Database V) (I : Interpretation V)
    (w : ScalarSubquery) (u : GroupedTable) : Prop where
  names : NamesFit db w u
  matched : MatchesByColumns db I w u
  closed : ∀ env, ∀ t ∈ evaluate db I w.outer env,
    evaluate db I w.inner (t.row ++ env) = evaluate db I w.inner env
  empty : ∀ scope, value I ⟨scope, []⟩ w.item = none

section

variable (u : GroupedTable)

theorem columnNames_eq : u.columnNames = "m" :: u.columns.map u.nameOf := by
  rw [GroupedTable.columnNames, tableColumnNames, List.map_map]
  rfl

theorem columnNames_zip {β : Type} (v : β) (f : ColumnPair → β) :
    u.columnNames.zip (v :: u.columns.map f) =
      ("m", v) :: u.columns.map fun c => (u.nameOf c, f c) := by
  rw [columnNames_eq, List.zip_cons_cons, List.zip_map']

private theorem absorbs_addPredicate {p : Expr} (h : absorbs p = true) (c : AttributeRef) :
    absorbs (addPredicate p (columnPredicate u.subqueryAlias c)) = true := by
  cases p with
  | boolPredicate op args => cases op <;> rfl
  | nullptr => rfl
  | predicate l r op => rfl
  | nullTest e type => rfl
  | _ => cases h

end

section

variable {V : Type}

/-- The value of a column whose name is not repeated. -/
theorem lookup_of_nodup {β : Type} {l : List (String × β)} (h : (l.map Prod.fst).Nodup) {n : String}
    {v : β} (hmem : (n, v) ∈ l) : l.lookup n = some v := by
  obtain ⟨before, after, hl⟩ := List.append_of_mem hmem
  refine List.lookup_eq_some_iff.mpr ⟨before, after, hl, fun c hc => ?_⟩
  rw [hl, List.map_append, List.nodup_append] at h
  have hne := h.2.2 c.1 (List.mem_map_of_mem hc) n List.mem_cons_self
  simpa using hne.symm

/-- A column of the binding at the end of a row. -/
theorem lookup_source {row env : Row V} {q n : String} {cs : List (String × Option V)}
    {v : Option V} (hq : q ≠ "") (hrow : ¬ Offers row (.column n q))
    (hnodup : (cs.map Prod.fst).Nodup) (hmem : (n, v) ∈ cs) :
    (lookup (row ++ [.source q cs] ++ env) (.column n q)).1 = v := by
  rw [List.append_assoc, lookup_append_left hrow, lookup]
  simp [resolve, hq, lookup_of_nodup hnodup hmem]

/-- The result of the subquery at the end of a row. -/
theorem lookup_subquery {row env : Row V} {m : Nat} {v : Option V} {h : Truth}
    (hrow : ¬ Offers row (.marker m)) :
    (lookup (row ++ [.subquery m v h] ++ env) (.marker m)).1 = v := by
  rw [List.append_assoc, lookup_append_left hrow, lookup]
  simp [resolve]

end

section

variable {V : Type} (w : ScalarSubquery) (u : GroupedTable)

/-- The values of the outer attributes in a row. -/
def outerKey (scope : Row V) : List (Option V) := u.columns.map fun c => (lookup scope (reference c.1)).1

/-- The values of the inner attributes. -/
def innerKey (scope : Row V) : List (Option V) := u.columns.map fun c => (lookup scope (reference c.2)).1

variable [DecidableEq V] (db : Database V) (I : Interpretation V) (env : Row V)

/-- The value of the item for a group. -/
def itemValue (ts : List (Tuple V)) : Option V :=
  value I ((groupTuple (nullRow db w.inner) ts).context env) w.item

/-- The row of the derived table for a group. -/
def tableTuple (ts : List (Tuple V)) : Tuple V :=
  ⟨[.source u.subqueryAlias (u.columnNames.zip (itemValue w db I env ts ::
    innerKey u ((groupTuple (nullRow db w.inner) ts).row ++ env)))], []⟩

/-- The inner rows with the key of an outer row. -/
def groupOf (t : Tuple V) : List (Tuple V) :=
  withKey (fun r : Tuple V => innerKey u (r.row ++ env)) (outerKey u (t.row ++ env))
    ((evaluate db I w.inner env).filter (satisfies I env u.condition))

variable {w u db I env}

/-- The rows of the subquery for an outer row. -/
theorem evaluate_subquery (env : Row V) :
    evaluate db I w.subquery env = [⟨projectRow { args := [w.item] }
      (value I ((groupTuple (nullRow db w.inner)
        ((evaluate db I w.inner env).filter (satisfies I env w.condition))).context env))
      (groupTuple (nullRow db w.inner)
        ((evaluate db I w.inner env).filter (satisfies I env w.condition))).row, []⟩] := rfl

omit [DecidableEq V] in
private theorem selectColumn_of_not_star {val : Expr → Option V} {row : Row V} {e : Expr}
    (h : Semantics.FreeReads.isStar e = false) :
    selectColumn val row e = [(columnName e, val e)] := by
  unfold selectColumn
  split
  · cases h
  · cases h
  · rfl

/-- What the subquery gives for an outer row. -/
theorem subqueryBinding_eq (h : NamesFit db w u) (scope : Row V) :
    subqueryBinding I { type := .dependentInnerLeft, marker := w.marker } scope
        (evaluate db I w.subquery env) =
      .subquery w.marker (itemValue w db I env
        ((evaluate db I w.inner env).filter (satisfies I env w.condition))) (.ofBool true) := by
  rw [evaluate_subquery, subqueryBinding]
  simp [firstColumn, projectRow, selectColumn_of_not_star h.star, renameColumns, starColumns,
    itemValue]

theorem evaluate_filtered (sel : Nat) (p : Expr) (t : RaNode) :
    evaluate db I (filtered sel p t) env = (evaluate db I t env).filter (satisfies I env p) := by
  rw [filtered]
  split
  · rfl
  · next h =>
    have hall : ∀ r ∈ evaluate db I t env, satisfies I env p r = true := by
      intro r _
      have htruth := RedundantPredicates.truth_of_not_isPresent I (c := ⟨r.row ++ env, []⟩)
        (Bool.eq_false_iff.mpr h)
      simp [satisfies, htruth]
    rw [List.filter_eq_self.mpr hall]

omit [DecidableEq V] in
theorem nullRow_filtered (sel : Nat) (p : Expr) (t : RaNode) :
    nullRow db (filtered sel p t) = nullRow db t := by
  rw [filtered]
  split <;> rfl

omit [DecidableEq V] in
private theorem projectRow_table (h : NamesFit db w u) (val : Expr → Option V) (row : Row V) :
    projectRow (u.projection w.item) val row = [.source u.subqueryAlias (u.columnNames.zip
      (val w.item :: u.columns.map fun c => val (attributeExpr c.2)))] := by
  have hcolumns : ∀ c ∈ u.columns, selectColumn val row (attributeExpr c.2) =
      [(c.2.1, val (attributeExpr c.2))] := by
    intro c hc
    refine selectColumn_of_not_star ?_
    unfold Semantics.FreeReads.isStar
    split
    · next heq => cases heq
    · next heq => exact absurd (Expr.attribute.inj heq).1 (h.plain c hc)
    · rfl
  have hsnd : ((u.projection w.item).args.flatMap (selectColumn val row)).map Prod.snd =
      val w.item :: u.columns.map fun c => val (attributeExpr c.2) := by
    rw [GroupedTable.projection, List.flatMap_cons, selectColumn_of_not_star h.star,
      List.flatMap_map, List.flatMap_congr hcolumns, ← List.map_eq_flatMap]
    simp
  rw [projectRow, renameColumns, hsnd]
  rfl

/-- The rows of the derived table. -/
theorem evaluate_table (h : NamesFit db w u) :
    evaluate db I (w.table u) env =
      (groups (fun t : Tuple V => innerKey u (t.row ++ env))
        ((evaluate db I w.inner env).filter (satisfies I env u.condition))).map
          (tableTuple w u db I env) := by
  have hkey (t : Tuple V) : (u.columns.map fun c => attributeExpr c.2).map
      (value I ⟨t.row ++ env, []⟩) = innerKey u (t.row ++ env) := by
    rw [innerKey, List.map_map]
    rfl
  rw [ScalarSubquery.table, evaluate,
    if_neg (show ¬ (u.projection w.item).distinct = true from Bool.false_ne_true), evaluate,
    evaluate_filtered,
    List.map_map]
  simp only [hkey, nullRow_filtered]
  refine List.map_congr_left fun ts _ => congrArg (Tuple.mk · []) ?_
  exact projectRow_table h _ _

omit [DecidableEq V] in
theorem nullRow_table (h : NamesFit db w u) : nullRow db (w.table u) = newBinding u := by
  have hnone : u.columnNames.zip (none :: u.columns.map fun _ => (none : Option V)) =
      u.columnNames.map fun n => (n, none) := by
    rw [columnNames_zip, columnNames_eq, List.map_cons, List.map_map]
    rfl
  rw [ScalarSubquery.table, nullRow, projectRow_table h, hnone]
  rfl

end

section

variable {V : Type} [DecidableEq V] {db : Database V} {I : Interpretation V} {w : ScalarSubquery}
  {u : GroupedTable} {env : Row V}

theorem erase_tableTuple (ts : List (Tuple V)) :
    (tableTuple w u db I env ts).row.map erase = newBinding u := by
  rw [tableTuple, newBinding, columnNames_eq, innerKey, List.zip_cons_cons, List.zip_map']
  simp [erase]

/-- The condition in the Selection above the join with the derived table. -/
theorem truth_joined (habsorbs : absorbs u.above = true) (s : Row V) :
    truth I ⟨s, []⟩ u.joined = .tt ↔ truth I ⟨s, []⟩ u.above = .tt ∧
      ∀ c ∈ u.columns, truth I ⟨s, []⟩ (columnPredicate u.subqueryAlias c.1) = .tt := by
  rw [GroupedTable.joined]
  generalize u.columns = cs
  generalize u.above = p at habsorbs
  induction cs generalizing p with
  | nil => simp
  | cons c cs ih =>
    rw [List.foldl_cons, ih _ (absorbs_addPredicate u habsorbs _), truth_addPredicate habsorbs,
      List.forall_mem_cons, and_assoc]

/-- No outer attribute is NULL. -/
def Present (u : GroupedTable) (scope : Row V) : Prop :=
  ∀ c ∈ u.columns, (lookup scope (reference c.1)).1 ≠ none

section

variable (h : NamesFit db w u) {t : Tuple V} (ht : t ∈ evaluate db I w.outer env)
include h ht

/-- The conditions on the columns compare the outer attributes with those of the group. -/
theorem truth_columnPredicates (hI : ExactEquality I) (ts : List (Tuple V)) :
    (∀ c ∈ u.columns, truth I ⟨(beside t (tableTuple w u db I env ts)).row ++ env, []⟩
        (columnPredicate u.subqueryAlias c.1) = .tt) ↔
      outerKey u (t.row ++ env) =
        innerKey u ((groupTuple (nullRow db w.inner) ts).row ++ env) ∧
      Present u (t.row ++ env) := by
  have hsource : tableTuple w u db I env ts = ⟨[.source u.subqueryAlias
      (("m", itemValue w db I env ts) :: u.columns.map fun c => (u.nameOf c,
        (lookup ((groupTuple (nullRow db w.inner) ts).row ++ env) (reference c.2)).1))], []⟩ := by
    rw [tableTuple, innerKey, columnNames_zip]
  have hcolumn : ∀ c ∈ u.columns,
      truth I ⟨(beside t (tableTuple w u db I env ts)).row ++ env, []⟩
          (columnPredicate u.subqueryAlias c.1) =
        I.compare "=" [(lookup (t.row ++ env) (reference c.1)).1]
          [(lookup ((groupTuple (nullRow db w.inner) ts).row ++ env) (reference c.2)).1] := by
    intro c hc
    have houter : lookup ((beside t (tableTuple w u db I env ts)).row ++ env) (reference c.1) =
        lookup (t.row ++ env) (reference c.1) := by
      rw [beside, List.append_assoc]
      exact lookup_append_of_offers ((offers_of_mem ht).mpr (h.offered c hc)) _ _
    have hinner : (lookup ((beside t (tableTuple w u db I env ts)).row ++ env)
        (.column (u.nameOf c) u.subqueryAlias)).1 =
        (lookup ((groupTuple (nullRow db w.inner) ts).row ++ env) (reference c.2)).1 := by
      rw [beside, hsource]
      refine lookup_source h.aliasName (fun hoff => ?_) ?_ ?_
      · exact h.aliasFree _ ((offers_of_mem ht).mp hoff)
      · have hnames := h.nodup
        rw [columnNames_eq] at hnames
        rw [List.map_cons, List.map_map]
        exact hnames
      · exact List.mem_cons_of_mem _ (List.mem_map_of_mem hc)
    rw [← houter, ← hinner]
    rfl
  rw [outerKey, innerKey, List.map_inj_left, Present, ← forall₂_and]
  refine forall₂_congr fun c hc => ?_
  rw [hcolumn c hc, hI]

/-- The condition that compares the subquery compares the column `m` now. -/
theorem truth_above {ts : List (Tuple V)} {v : Option V} {holds : Truth}
    (hv : itemValue w db I env ts = v) :
    truth I ⟨(beside t (tableTuple w u db I env ts)).row ++ env, []⟩ u.above = .tt ↔
      truth I ⟨(beside t ⟨[.subquery w.marker v holds], []⟩).row ++ env, []⟩ w.above = .tt := by
  have hnew : .column "m" u.subqueryAlias ∉ references w.above := by
    intro hmem
    refine h.unread _ hmem (V := V) ⟨_, List.mem_singleton_self _, ?_⟩
    simp [resolve, h.aliasName]
  refine truth_replaced h.compares h.replaced hnew ?_ fun q hq hne => ?_
  · rw [beside, beside, lookup_subquery fun hoff => h.markerFree ((offers_of_mem ht).mp hoff)]
    rw [tableTuple, innerKey, columnNames_zip, hv]
    refine lookup_source h.aliasName (fun hoff => h.aliasFree _ ((offers_of_mem ht).mp hoff)) ?_
      List.mem_cons_self
    have hnames := h.nodup
    rw [columnNames_eq] at hnames
    rw [List.map_cons, List.map_map]
    exact hnames
  · have hread : q ∈ references w.above :=
      (mem_references_replaced h.compares h.replaced hq).resolve_right fun hmem =>
        hne (List.mem_singleton.mp hmem)
    have hoff : ¬ Offers (tableTuple w u db I env ts).row q := by
      rw [← offers_erase, erase_tableTuple]
      exact h.unread q hread
    have hmarker : ¬ Offers ([.subquery w.marker v holds] : Row V) q := by
      rintro ⟨b, hb, hsome⟩
      obtain rfl := List.mem_singleton.mp hb
      cases q with
      | column n a => cases hsome
      | marker m =>
        rw [resolve, Option.isSome_ite] at hsome
        exact h.markerGone (hsome ▸ hq)
    rw [beside, beside, List.append_assoc, List.append_assoc]
    refine lookup_append_congr ?_
    rw [lookup_append_left hoff, lookup_append_left hmarker]

/-- The item has the same value for a group whether the outer row is in sight or not. -/
theorem itemValue_outer {ts : List (Tuple V)} (hts : ∀ r ∈ ts, r ∈ evaluate db I w.inner env) :
    itemValue w db I (t.row ++ env) ts = itemValue w db I env ts := by
  have hagree {row : Row V} (hrow : row.map erase = nullRow db w.inner) :
      Agree (references w.item) (row ++ (t.row ++ env)) (row ++ env) := by
    intro q hq
    refine lookup_append fun hoff => lookup_append_left fun houter => ?_
    rw [← offers_erase, hrow] at hoff
    exact (h.item q hq).elim hoff fun hnot => hnot ((offers_of_mem ht).mp houter)
  have hshape : ∀ r ∈ ts, r.row.map erase = nullRow db w.inner := fun r hr =>
    shape_evaluate db I w.inner env r (hts r hr)
  refine (determined I w.item).value ⟨hagree ?_, ?_⟩
  · cases ts with
    | nil => exact nullRow_erase db w.inner
    | cons r ts => exact hshape r List.mem_cons_self
  · rw [groupTuple, Tuple.context, Tuple.context, List.map_map, List.map_map,
      List.forall₂_map_left_iff, List.forall₂_map_right_iff, List.forall₂_same]
    exact fun r hr => hagree (hshape r hr)

end

section

variable (h : Groupable db I w u) {t : Tuple V} (ht : t ∈ evaluate db I w.outer env)
include h ht

/-- The rows of the subquery for an outer row are those of one group, or there are none. -/
theorem filter_condition [Decidable (Present u (t.row ++ env))] :
    (evaluate db I w.inner (t.row ++ env)).filter (satisfies I (t.row ++ env) w.condition) =
      if Present u (t.row ++ env) then groupOf w u db I env t else [] := by
  have hkey (r : Tuple V) : (∀ c ∈ u.columns,
      (lookup (r.row ++ env) (reference c.2)).1 = (lookup (t.row ++ env) (reference c.1)).1 ∧
        (lookup (t.row ++ env) (reference c.1)).1 ≠ none) ↔
      innerKey u (r.row ++ env) = outerKey u (t.row ++ env) ∧ Present u (t.row ++ env) := by
    rw [innerKey, outerKey, List.map_inj_left, Present, ← forall₂_and]
  rw [h.closed env t ht]
  split
  · next hpresent =>
    rw [groupOf, withKey, List.filter_filter]
    refine List.filter_congr fun r hr => ?_
    rw [Bool.eq_iff_iff, h.matched env t ht r hr, hkey, Bool.and_eq_true, decide_eq_true_eq,
      and_iff_left hpresent, and_comm]
  · next hnull =>
    rw [List.filter_eq_nil_iff]
    intro r hr hsat
    exact hnull ((hkey r).mp ((h.matched env t ht r hr).mp hsat).2).2

/-- An outer row meets at most the row of its own group. -/
theorem matching_table (hI : ExactEquality I) :
    matching beside (satisfies I env u.joined) (evaluate db I (w.table u) env) t =
      if groupOf w u db I env t ≠ [] ∧ satisfies I env u.joined
          (beside t (tableTuple w u db I env (groupOf w u db I env t))) = true then
        [beside t (tableTuple w u db I env (groupOf w u db I env t))]
      else [] := by
  rw [evaluate_table h.names]
  refine matching_groups fun k hk hon => ?_
  obtain ⟨r, rest, hts⟩ := List.exists_cons_of_ne_nil (withKey_ne_nil.mpr hk)
  rw [satisfies, decide_eq_true_eq,
    truth_joined (absorbs_replaced h.names.compares h.names.replaced),
    truth_columnPredicates h.names ht hI] at hon
  have hrow := (mem_withKey.mp (hts ▸ List.mem_cons_self (a := r))).2
  rw [← hrow, hon.2.1, hts]
  rfl

/-- An outer row for which the subquery has no rows is lost. -/
private theorem not_satisfies_above (hstrict : StrictComparisons I) :
    satisfies I env w.above (beside t ⟨[.subquery w.marker (itemValue w db I (t.row ++ env) [])
      (.ofBool true)], []⟩) = false := by
  obtain ⟨before, e, _, after, hconj, -, hcompares, -⟩ :=
    exists_conjunct_of_replaced h.names.compares h.names.replaced
  rw [satisfies, decide_eq_false_iff_not]
  refine truth_ne_tt_of_null hstrict ⟨e, ?_, hcompares⟩ ?_
  · rw [hconj]
    exact List.mem_append_right _ List.mem_cons_self
  · rw [beside, lookup_subquery fun hoff => h.names.markerFree ((offers_of_mem ht).mp hoff)]
    exact h.empty _

/-- For a row whose group is not empty the two conditions are equally true. -/
private theorem satisfies_joined_iff (hI : ExactEquality I) {ts : List (Tuple V)}
    (hkey : outerKey u (t.row ++ env) =
      innerKey u ((groupTuple (nullRow db w.inner) ts).row ++ env))
    (hinner : ∀ r ∈ ts, r ∈ evaluate db I w.inner env) (hpresent : Present u (t.row ++ env)) :
    satisfies I env u.joined (beside t (tableTuple w u db I env ts)) =
      satisfies I env w.above (beside t ⟨[.subquery w.marker (itemValue w db I (t.row ++ env) ts)
        (.ofBool true)], []⟩) := by
  have habsorbs := absorbs_replaced h.names.compares h.names.replaced
  rw [Bool.eq_iff_iff, satisfies, satisfies, decide_eq_true_eq, decide_eq_true_eq,
    truth_joined habsorbs, truth_columnPredicates h.names ht hI, and_iff_left ⟨hkey, hpresent⟩]
  exact truth_above h.names ht (itemValue_outer h.names ht hinner).symm

/-- An outer row is kept on both sides or on none. -/
theorem exchanged_row (hI : ExactEquality I) (hstrict : StrictComparisons I) :
    List.Forall₂ (Exchanged (oldBinding w) (newBinding u))
      ([beside t ⟨[subqueryBinding I { type := .dependentInnerLeft, marker := w.marker }
        (t.row ++ env) (evaluate db I w.subquery (t.row ++ env))], []⟩].filter
          (satisfies I env w.above))
      (matching beside (satisfies I env u.joined) (evaluate db I (w.table u) env) t) := by
  classical
  rw [matching_table h ht hI, subqueryBinding_eq h.names, filter_condition h ht]
  have hlost := not_satisfies_above h ht hstrict
  by_cases hpresent : Present u (t.row ++ env)
  · rw [if_pos hpresent]
    cases hcons : groupOf w u db I env t with
    | nil =>
      rw [List.filter_cons_of_neg (by rw [hlost]; exact Bool.false_ne_true)]
      simp
    | cons r rest =>
      have hgroup : ∀ x ∈ r :: rest, x ∈ groupOf w u db I env t := fun x hx => hcons ▸ hx
      have hinner : ∀ x ∈ r :: rest, x ∈ evaluate db I w.inner env := fun x hx =>
        (List.mem_filter.mp (mem_withKey.mp (hgroup x hx)).1).1
      have hkey : outerKey u (t.row ++ env) =
          innerKey u ((groupTuple (nullRow db w.inner) (r :: rest)).row ++ env) :=
        (mem_withKey.mp (hgroup r List.mem_cons_self)).2.symm
      rw [satisfies_joined_iff h ht hI hkey hinner hpresent, List.filter_cons, List.filter_nil]
      simp only [ne_eq, reduceCtorEq, not_false_eq_true, true_and]
      split
      · exact .cons ⟨⟨t.row, _, _, rfl, rfl, rfl, erase_tableTuple _⟩, .nil⟩ .nil
      · exact .nil
  · rw [if_neg hpresent, List.filter_cons_of_neg (by rw [hlost]; exact Bool.false_ne_true)]
    have hoff : satisfies I env u.joined
        (beside t (tableTuple w u db I env (groupOf w u db I env t))) = false := by
      rw [satisfies, decide_eq_false_iff_not,
        truth_joined (absorbs_replaced h.names.compares h.names.replaced),
        truth_columnPredicates h.names ht hI]
      exact fun hboth => hpresent hboth.2.2
    simp [hoff]

end

private theorem satisfies_nullptr (env : Row V) (t : Tuple V) : satisfies I env .nullptr t = true :=
  rfl

omit [DecidableEq V] in
private theorem map_renameTuple {join : Join} (h : join.aliasName = "") (ts : List (Tuple V)) :
    ts.map (renameTuple join) = ts := by
  conv_rhs => rw [← List.map_id ts]
  exact List.map_congr_left fun t _ => renameTuple_eq_self h t

/-- The derived table gives what the subquery gives. -/
theorem exchanges (h : Groupable db I w u) (hI : ExactEquality I) (hstrict : StrictComparisons I) :
    Exchanges db I (oldBinding w) (newBinding u) w.tree (w.grouped u) := by
  constructor
  · intro env
    have hold : evaluate db I w.tree env = (evaluate db I w.outer env).flatMap fun t =>
        [beside t ⟨[subqueryBinding I { type := .dependentInnerLeft, marker := w.marker }
          (t.row ++ env) (evaluate db I w.subquery (t.row ++ env))], []⟩].filter
            (satisfies I env w.above) := by
      rw [ScalarSubquery.tree, evaluate, evaluate, map_renameTuple rfl, if_pos h.names.marker,
        List.map_eq_flatMap, List.filter_flatMap]
    have hnew : evaluate db I (w.grouped u) env = (evaluate db I w.outer env).flatMap
        (matching beside (satisfies I env u.joined) (evaluate db I (w.table u) env)) := by
      rw [ScalarSubquery.grouped, evaluate, evaluate, map_renameTuple rfl]
      simp only [ne_eq, not_true_eq_false, if_false, filter_innerJoin, satisfies_nullptr,
        Bool.true_and]
      rfl
    rw [hold, hnew]
    refine List.rel_flatMap (R := fun t t' => t = t' ∧ t ∈ evaluate db I w.outer env)
      (List.forall₂_same.mpr fun t ht => ⟨rfl, ht⟩) ?_
    rintro t _ ⟨rfl, ht⟩
    exact exchanged_row h ht hI hstrict
  · refine ⟨nullRow db w.outer, oldBinding w, newBinding u, ?_, ?_, rfl, ?_⟩
    · simp [ScalarSubquery.tree, nullRow, renameJoin, h.names.marker, oldBinding]
    · change nullRow db (.join w.join { type := .crossProduct } w.outer (w.table u)) = _
      rw [nullRow, nullRow_table h.names]
      simp [renameJoin]
    · simp [newBinding, erase]

end

end SqlOptimizer.Unnesting.GroupedSubquery
