import SqlOptimizer.Unnesting.GroupedSubquery
import SqlOptimizer.Unnesting.LiftedRows
import Mathlib.Tactic.MkIffOfInductiveProp

/-!
The derived table that `decorrelate_subquery` makes of a scalar subquery when it can drop the
dependent join: the correlated attributes get the qualifier of D, then D is replaced with the inner
attributes that equal its columns.
-/

set_option autoImplicit false
set_option relaxedAutoImplicit false

namespace SqlOptimizer.Unnesting.DecoupledTable

open Algebra.RelationalAlgebra
open Tree.Walks
open Semantics.Evaluation Semantics.References Semantics.RowShape
open Semantics.FreeReads (offers_of_mem lookup_append lookup_append_of_offers CombinesRows
  evaluate_congr_values)
open Attributes Markers Decouple Counterparts Renaming ChangedConditions GroupedSubquery
open DecorrelateSubquery (newColumns)
open LiftedRows (freeReads mem_freeReads)

section

variable (w : ScalarSubquery)

/-- The attribute is not defined in the subquery, but on the outer side. -/
def refersOut (name aliasName : String) : Bool :=
  !isCovered (getRelationsAliases w.inner) name aliasName &&
    isCovered (getRelationsAliases w.outer) name aliasName

/-- The qualifier of D for the attributes of the outer side. -/
def toD (name aliasName : String) : String × String :=
  if refersOut w name aliasName then (name, "d") else (name, aliasName)

def conditionD : Expr := mapPredicateAttributes (toD w) w.condition

/-- The attributes in the Selection of the subquery and below it, unless one of them stands for
another subquery. -/
def occurrences : Option (List Occurrence) :=
  subtreeOccurrences (fun _ _ => none) (.selection w.selection w.condition w.inner)

def correlated : List Occurrence :=
  ((occurrences w).getD []).filter fun o => refersOut w o.name o.aliasName

/-- The columns of D. -/
def columns : List AttributeRef := newColumns [] [] (correlated w)

def ofD (a : AttributeRef) : AttributeRef := (a.1, "d")

/-- The attributes of D that the derived table uses. -/
def usedOfD : List AttributeRef :=
  (columns w).map ofD ++ (columns w).map ofD ++
    (findInExpression ["d"] (some 0) (conditionD w)).getD []

/-- What takes the place of the attributes of D. -/
def renames : RenameMap := (findEquivalents [conditionD w] (usedOfD w) []).2

def counterpartOf (a : AttributeRef) : AttributeRef := renamed (renames w) a.1 "d"

/-- The condition of the subquery without D. -/
def renamedCondition : Expr := renameExpression (renames w) (conditionD w)

/-- The condition above the join, with a column in the place of the marker. -/
def aboveWith (subqueryAlias : String) : Expr :=
  ((replaceInSelection w.marker (.attribute "m" subqueryAlias) w.above).getD none).getD .nullptr

def decoupledTable (subqueryAlias : String) : GroupedTable where
  subqueryAlias := subqueryAlias
  columns := (columns w).map fun c => (c, counterpartOf w c)
  above := aboveWith w subqueryAlias
  condition := reduced (renamedCondition w)

end

/-- The aggregates that give NULL for no rows. -/
def nullAggregates : List String := ["sum", "avg", "min", "max"]

/-- The value of the item is NULL when there are no rows. -/
def isNullWhenEmpty : Expr → Bool
  | .funcCall f _ true _ => f ∈ nullAggregates
  | .selectExpression e _ => isNullWhenEmpty e
  | .typeCast _ _ e => isNullWhenEmpty e
  | .expression l r _ => isNullWhenEmpty r || l.isPresent && isNullWhenEmpty l
  | _ => false

/-- NULL in the meaning of operators and aggregates: equality holds between equal values only, no
comparison with NULL holds, and arithmetic with NULL gives NULL. -/
structure NullLaws {V : Type} (I : Interpretation V) : Prop where
  equality : ExactEquality I
  comparison : StrictComparisons I
  aggregate : ∀ f ∈ nullAggregates, I.aggregate f [] = none
  unary : ∀ op, I.unary op none = none
  binary : ∀ op v, I.binary op none v = none ∧ I.binary op v none = none
  cast : ∀ type mod, I.cast type mod none = none

/-- A reference to an attribute of D. -/
def isOfD : Reference → Bool
  | .column _ a => a = "d"
  | .marker _ => false

/-- The reference is correlated. -/
def isOuter (w : ScalarSubquery) : Reference → Bool
  | .column n a => refersOut w n a
  | .marker _ => false

/-- The qualifiers of a row. -/
def qualifiers {V : Type} (row : Row V) : List String :=
  row.filterMap fun
    | .source q _ => some q
    | .subquery _ _ _ => none

/-- The condition on a scalar subquery: its names are not ambiguous, it refers to the outer side in
its condition only, and there by attributes that equal inner ones. -/
@[mk_iff]
structure Decouples {V : Type} (db : Database V) (w : ScalarSubquery) (subqueryAlias : String) :
    Prop where
  marker : w.marker ≠ 0
  star : Semantics.FreeReads.isStar w.item = false
  empty : isNullWhenEmpty w.item = true
  item : ∀ q ∈ references w.item, Offers (nullRow db w.inner) q ∨ ¬ Offers (nullRow db w.outer) q
  aliasName : subqueryAlias ≠ ""
  aliasFree : subqueryAlias ∉ qualifiers (nullRow db w.outer)
  markerFree : ¬ Offers (nullRow db w.outer) (.marker w.marker)
  compares : ComparesOnly w.marker w.above
  replaced : ((replaceInSelection w.marker (.attribute "m" subqueryAlias) w.above).getD
    none).isSome = true
  unread : ∀ q ∈ references w.above, ¬ Offers (newBinding (decoupledTable w subqueryAlias) : Row V) q
  markerGone : .marker w.marker ∉ references (aboveWith w subqueryAlias)
  outerFree : "d" ∉ qualifiers (nullRow db w.outer)
  innerFree : "d" ∉ qualifiers (nullRow db w.inner)
  columnNames : ((columns w).map Prod.fst).Nodup
  offered : ∀ c ∈ columns w, Offers (nullRow db w.outer) (reference c) ∧
    Offers (nullRow db w.outer) (.column c.1 "") ∧ ¬ Offers (nullRow db w.inner) (reference c)
  collected : ∀ q ∈ references w.condition, isOuter w q = true → q ∈ (columns w).map reference
  free : ∀ q ∈ references w.condition, isOfD q = false
  settled : ∀ q ∈ references (conditionD w), isOuter w q = false
  found : (findEquivalents [conditionD w] (usedOfD w) []).1 = true
  ofColumns : ∀ q ∈ references (conditionD w), isOfD q = true →
    q ∈ (columns w).map fun c => .column c.1 "d"
  inner : ∀ c ∈ columns w, Offers (nullRow db w.inner) (reference (counterpartOf w c)) ∧
    (counterpartOf w c).1 ≠ "*"
  reached : ∀ q ∈ hiddenReferences (conditionD w), isOfD q = false
  apart : ∀ q ∈ references (conditionD w), isOfD q = true ∨ Offers (nullRow db w.inner) q ∨
    ¬ Offers (nullRow db w.outer) q
  loses : LosesOnly ((columns w).map (counterpartOf w)) (renamedCondition w)
  combines : CombinesRows w.inner
  closed : ∀ q ∈ freeReads db w.inner, ¬ Offers (nullRow db w.outer) q

section

variable {V : Type}

theorem not_offers_of_qualifiers {row : Row V} {a : String} (ha : a ≠ "") (h : a ∉ qualifiers row)
    (n : String) : ¬ Offers row (.column n a) := by
  rintro ⟨b, hb, hsome⟩
  cases b with
  | subquery m v t => cases hsome
  | source q cs =>
    refine h (List.mem_filterMap.mpr ⟨_, hb, congrArg some ?_⟩)
    rw [resolve, if_neg ha, Option.isSome_ite] at hsome
    exact hsome

variable [DecidableEq V] {I : Interpretation V}

theorem value_of_isNullWhenEmpty (hI : NullLaws I) {e : Expr} (h : isNullWhenEmpty e = true)
    (scope : Row V) : value I ⟨scope, []⟩ e = none := by
  induction e using Expr.ind with
  | funcCall f args g d =>
    cases g with
    | false => cases h
    | true =>
      have hnone := hI.aggregate f (of_decide_eq_true h)
      cases d <;> exact hnone
  | selectExpression e r ih => exact ih h
  | typeCast t m e ih =>
    have hnone : (meaning I e).value ⟨scope, []⟩ = none := ih h
    exact (congrArg (I.cast t m) hnone).trans (hI.cast t m)
  | expression l r op ihl ihr =>
    rw [isNullWhenEmpty, Bool.or_eq_true, Bool.and_eq_true] at h
    have hvalue : value I ⟨scope, []⟩ (.expression l r op) =
        if l.isPresent then I.binary op (value I ⟨scope, []⟩ l) (value I ⟨scope, []⟩ r)
        else I.unary op (value I ⟨scope, []⟩ r) := rfl
    rw [hvalue]
    rcases h with hr | ⟨hl, hnull⟩
    · rw [ihr hr]
      split
      · exact (hI.binary op _).2
      · exact hI.unary op
    · rw [if_pos hl, ihl hnull]
      exact (hI.binary op _).1
  | _ => cases h

end

section

variable {V : Type} (w : ScalarSubquery)

/-- The row of D for an outer row. -/
def dRow (scope : Row V) : Row V :=
  [.source "d" ((columns w).map fun c => (c.1, (lookup scope (reference c)).1))]

variable {w} {db : Database V} {subqueryAlias : String} (h : Decouples db w subqueryAlias)
include h

/-- The columns of the derived table have names of their own. -/
private theorem nodup_columnNames : (decoupledTable w subqueryAlias).columnNames.Nodup := by
  have hnames : (decoupledTable w subqueryAlias).columnNames =
      "m" :: ((columns w).map Prod.fst).map fun n => subqueryAlias ++ "_" ++ n := by
    rw [columnNames_eq, decoupledTable, List.map_map, List.map_map]
    rfl
  rw [hnames, List.nodup_cons]
  refine ⟨fun hmem => ?_, h.columnNames.map fun n n' heq => ?_⟩
  · obtain ⟨n, -, hn⟩ := List.mem_map.mp hmem
    exact DColumns.append_ne_m _ _ hn
  · exact String.append_right_inj (subqueryAlias ++ "_") |>.mp heq

theorem replaceInSelection_aboveWith : replaceInSelection w.marker (.attribute "m" subqueryAlias)
    w.above = some (some (aboveWith w subqueryAlias)) := by
  have hsome := h.replaced
  rw [aboveWith]
  generalize replaceInSelection w.marker (.attribute "m" subqueryAlias) w.above = o at hsome ⊢
  rcases o with _ | _ | p
  · cases hsome
  · cases hsome
  · rfl

theorem namesFit : NamesFit db w (decoupledTable w subqueryAlias) where
  marker := h.marker
  star := h.star
  item := h.item
  plain := by
    intro c hc
    obtain ⟨c', hc', rfl⟩ := List.mem_map.mp hc
    exact (h.inner c' hc').2
  aliasName := h.aliasName
  nodup := nodup_columnNames h
  offered := by
    intro c hc
    obtain ⟨c', hc', rfl⟩ := List.mem_map.mp hc
    exact (h.offered c' hc').1
  aliasFree := not_offers_of_qualifiers h.aliasName h.aliasFree
  markerFree := h.markerFree
  compares := h.compares
  replaced := replaceInSelection_aboveWith h
  unread := h.unread
  markerGone := h.markerGone

/-- D gives for its columns what the outer row gives. -/
theorem lookup_dRow {c : AttributeRef} (hc : c ∈ columns w) (scope env : Row V) :
    lookup (dRow w scope ++ env) (.column c.1 "d") = lookup scope (reference c) := by
  refine Prod.ext ?_ ?_
  · have hnodup : (((columns w).map fun c => (c.1, (lookup scope (reference c)).1)).map
        Prod.fst).Nodup := by
      rw [List.map_map]
      exact h.columnNames
    exact @lookup_source V [] env "d" c.1 _ _ (by decide) (by simp [Offers]) hnodup
      (List.mem_map_of_mem hc)
  · rw [lookup_column_snd, reference, lookup_column_snd]

/-- What D hides is hidden by the outer row. -/
theorem not_offers_dRow {q : Reference} (hq : isOfD q = false)
    (houter : ¬ Offers (nullRow db w.outer) q) (scope : Row V) : ¬ Offers (dRow w scope) q := by
  rintro ⟨b, hb, hsome⟩
  obtain rfl := List.mem_singleton.mp hb
  cases q with
  | marker m => cases hsome
  | column n a =>
    rw [resolve] at hsome
    split at hsome
    · next ha =>
      rw [Option.isSome_map, List.lookup_isSome_iff] at hsome
      obtain ⟨_, hmem, hname⟩ := hsome
      obtain ⟨c, hc, rfl⟩ := List.mem_map.mp hmem
      rw [beq_iff_eq] at hname
      rw [ha, hname] at houter
      exact houter (h.offered c hc).2.1
    · rw [Option.isSome_ite] at hsome
      rw [isOfD, decide_eq_false_iff_not] at hq
      exact hq hsome.symm

/-- The row of D is not seen behind an outer row, but for the attributes of D. -/
theorem lookup_behind {outer : Row V} (houter : outer.map erase = nullRow db w.outer)
    {q : Reference} (hq : isOfD q = false) (scope env : Row V) :
    lookup (outer ++ (dRow w scope ++ env)) q = lookup (outer ++ env) q := by
  refine lookup_append fun hoff => lookup_append_left (not_offers_dRow h hq ?_ scope)
  rwa [← houter, offers_erase]

theorem findEquivalents_renames :
    findEquivalents [conditionD w] (usedOfD w) [] = (true, renames w) := Prod.ext h.found rfl

theorem renamesD : RenamesD (renames w) :=
  (findEquivalents_eq_true (findEquivalents_renames h)).2.2 (by simp [RenamesD])

/-- Every column of D is equated with an inner attribute. -/
theorem counterpart_conditionD {c : AttributeRef} (hc : c ∈ columns w) :
    counterpart c.1 (conditionD w) = some (counterpartOf w c) := by
  have hused : ofD c ∈ usedOfD w :=
    List.mem_append_left _ (List.mem_append_left _ (List.mem_map_of_mem hc))
  obtain ⟨b, hb, hlookup⟩ :=
    (findEquivalents_eq_true (findEquivalents_renames h)).1 (ofD c) hused
  have hfound : counterpart c.1 (conditionD w) = some b := by
    rw [List.findSome?_singleton] at hb
    exact hb
  have hrenamed : renamed (renames w) c.1 "d" = b := renamed_of_lookup hlookup
  rw [hfound, counterpartOf, hrenamed]

section

variable [DecidableEq V] {I : Interpretation V} (env : Row V) {outer inner : Row V}
  (houter : outer.map erase = nullRow db w.outer) (hinner : inner.map erase = nullRow db w.inner)
include houter hinner

omit [DecidableEq V] in
/-- The columns of D behind the two rows. -/
theorem lookup_columnOfD {c : AttributeRef} (hc : c ∈ columns w) :
    lookup (inner ++ (outer ++ (dRow w (outer ++ env) ++ env))) (.column c.1 "d") =
      lookup (outer ++ env) (reference c) := by
  have hd {row : Row V} (hfree : "d" ∉ qualifiers (row.map erase)) :
      ¬ Offers row (.column c.1 "d") := by
    rw [← offers_erase]
    exact not_offers_of_qualifiers (by decide) hfree c.1
  rw [lookup_append_left (hd (hinner ▸ h.innerFree)),
    lookup_append_left (hd (houter ▸ h.outerFree)), lookup_dRow h hc]

/-- With the row of D behind the outer row, the condition can read the columns of D. -/
theorem truth_conditionD :
    truth I ⟨inner ++ (outer ++ (dRow w (outer ++ env) ++ env)), []⟩ (conditionD w) =
      truth I ⟨inner ++ (outer ++ env), []⟩ w.condition := by
  refine (sameMeaning_mapPredicateAttributes (f := toD w) (fun q hq => ?_) fun n a hmem => ?_).truth
  · by_cases hout : isOuter w q = true
    · obtain ⟨c, hc, rfl⟩ := List.mem_map.mp (h.collected q hq hout)
      have hchange : mapReference (toD w) (reference c) = .column c.1 "d" := by
        rw [reference, mapReference, toD, if_pos (show refersOut w c.1 c.2 = true from hout)]
      have hoff : ¬ Offers inner (reference c) := by
        rw [← offers_erase, hinner]
        exact (h.offered c hc).2.2
      rw [hchange, lookup_columnOfD h env houter hinner hc, lookup_append_left hoff]
    · have hkeep : mapReference (toD w) q = q := by
        cases q with
        | column n a =>
          rw [mapReference, toD, if_neg (show ¬ refersOut w n a = true from hout)]
        | marker m => rfl
      rw [hkeep]
      exact lookup_append_congr (lookup_behind h houter (h.free q hq) _ _)
  · have hnot : refersOut w n a = false := h.settled _ hmem
    rw [toD, hnot, if_neg Bool.false_ne_true]

/-- The inner attributes equal the outer ones, none of which is NULL. -/
def KeysEqual (w : ScalarSubquery) (env outer inner : Row V) : Prop :=
  ∀ c ∈ columns w, (lookup (inner ++ env) (reference (counterpartOf w c))).1 =
      (lookup (outer ++ env) (reference c)).1 ∧ (lookup (outer ++ env) (reference c)).1 ≠ none

/-- The condition makes the inner attributes equal to the outer ones. -/
theorem keysEqual_of_conditionD (hI : ExactEquality I)
    (htruth : truth I ⟨inner ++ (outer ++ (dRow w (outer ++ env) ++ env)), []⟩ (conditionD w) =
      .tt) : KeysEqual w env outer inner := by
  intro c hc
  have hequal : TrueEquality I := fun v w' hv => (hI v w').mp hv
  obtain ⟨heq, hsome⟩ := lookup_counterpart hequal (counterpart_conditionD h hc) htruth
  have hoff : Offers inner (reference (counterpartOf w c)) := by
    rw [← offers_erase, hinner]
    exact (h.inner c hc).1
  rw [lookup_columnOfD h env houter hinner hc] at heq hsome
  refine ⟨?_, hsome⟩
  rw [heq]
  exact congrArg Prod.fst (lookup_append_of_offers hoff _ _)

/-- When they are equal, D can be replaced with the inner attributes. -/
theorem truth_renamedCondition (hkeys : KeysEqual w env outer inner) :
    truth I ⟨inner ++ env, []⟩ (renamedCondition w) =
      truth I ⟨inner ++ (outer ++ (dRow w (outer ++ env) ++ env)), []⟩ (conditionD w) := by
  have hreached : Reached (conditionD w) := fun n hmem => by
    have hnot := h.reached _ hmem
    simp [isOfD] at hnot
  refine (sameMeaning_renameExpression (renamesD h) (fun q hq => ?_) hreached).truth
  by_cases hd : isOfD q = true
  · obtain ⟨c, hc, rfl⟩ := List.mem_map.mp (h.ofColumns q hq hd)
    rw [lookup_columnOfD h env houter hinner hc]
    refine Prod.ext (hkeys c hc).1 ?_
    rw [reference, lookup_column_snd]
    exact lookup_column_snd _ _ _
  · have hne : ∀ n, q ≠ .column n "d" := by
      rintro n rfl
      exact hd (by simp [isOfD])
    rw [renamedReference_of_ne (renamesD h) hne]
    have hsight := (h.apart q hq).resolve_left hd
    refine lookup_append fun hoff => ?_
    rw [lookup_behind h houter (Bool.not_eq_true _ ▸ hd)]
    refine (lookup_append_left fun hout => ?_).symm
    rw [← offers_erase] at hoff hout
    exact hsight.elim (fun h' => hoff (hinner ▸ h')) fun h' => h' (houter ▸ hout)

/-- The condition of the subquery for an outer row, by the new condition and the columns. -/
theorem truth_condition_iff (hI : ExactEquality I) :
    truth I ⟨inner ++ (outer ++ env), []⟩ w.condition = .tt ↔
      truth I ⟨inner ++ env, []⟩ (reduced (renamedCondition w)) = .tt ∧
        KeysEqual w env outer inner := by
  have hreduced (hkeys : KeysEqual w env outer inner) :
      truth I ⟨inner ++ env, []⟩ (reduced (renamedCondition w)) =.tt ↔
        truth I ⟨inner ++ env, []⟩ (renamedCondition w) = .tt := by
    refine truth_reduced h.loses fun b hb => ?_
    obtain ⟨c, hc, rfl⟩ := List.mem_map.mp hb
    refine (hI _ _).mpr ⟨rfl, ?_⟩
    obtain ⟨heq, hsome⟩ := hkeys c hc
    rw [← heq] at hsome
    exact hsome
  rw [← truth_conditionD h env houter hinner]
  constructor
  · intro htruth
    have hkeys := keysEqual_of_conditionD h env houter hinner hI htruth
    refine ⟨?_, hkeys⟩
    rw [hreduced hkeys, truth_renamedCondition h env houter hinner hkeys, htruth]
  · rintro ⟨htruth, hkeys⟩
    rw [hreduced hkeys, truth_renamedCondition h env houter hinner hkeys] at htruth
    exact htruth

end

/-- The derived table gives what the subquery gives. -/
theorem groupable [DecidableEq V] {I : Interpretation V} (hI : NullLaws I) :
    Groupable db I w (decoupledTable w subqueryAlias) where
  names := namesFit h
  matched := by
    intro env t ht r hr
    have hkeys : (∀ c ∈ (decoupledTable w subqueryAlias).columns,
        (lookup (r.row ++ env) (reference c.2)).1 = (lookup (t.row ++ env) (reference c.1)).1 ∧
          (lookup (t.row ++ env) (reference c.1)).1 ≠ none) ↔ KeysEqual w env t.row r.row := by
      rw [decoupledTable, List.forall_mem_map]
      rfl
    rw [satisfies, satisfies, decide_eq_true_eq, decide_eq_true_eq, hkeys]
    exact truth_condition_iff h env (shape_evaluate db I _ _ t ht) (shape_evaluate db I _ _ r hr)
      hI.equality
  closed := by
    intro env t ht
    refine evaluate_congr_values h.combines fun q hq => lookup_append_left fun hoff => ?_
    exact h.closed q (mem_freeReads.mpr hq) ((offers_of_mem ht).mp hoff)
  empty := value_of_isNullWhenEmpty hI h.empty

end

end SqlOptimizer.Unnesting.DecoupledTable
