import SqlOptimizer.Semantics.FreeReads
import SqlOptimizer.Tree.PushDownMeaning
import SqlOptimizer.Unnesting.CorrelationAgreement
import SqlOptimizer.Unnesting.ProbeTruth
import SqlOptimizer.Unnesting.QueryRows
import SqlOptimizer.Unnesting.SelectLists

/-!
The rows of an EXISTS or IN subquery before and after its correlating predicates are lifted out of
it. A row of the selection from the CTE is the row of the CTE for a row of the old Selection.
-/

set_option autoImplicit false
set_option relaxedAutoImplicit false

namespace SqlOptimizer.Unnesting.LiftedRows

open Algebra.RelationalAlgebra
open Tree.Walks Tree.Frames Tree.PushDownMeaning Tree.RelationNames
open Logic.NestedLoops Logic.Prefixes Logic.ThreeValued
open Parse.WithBinding (cteName)
open Semantics.Evaluation Semantics.References Semantics.RowShape Semantics.FreeReads
open Objects Attributes ExistsIn FirstSelection LiftedConjuncts CteRows ProbeTruth SelectLists
open CorrelationAgreement (conjuncts)
open QueryRows

variable {V : Type}

instance (row : Row V) (r : Reference) : Decidable (Offers row r) :=
  inferInstanceAs (Decidable (∃ b ∈ row, (resolve r b).isSome))

/-- The references whose values a tree takes from the rows of the enclosing queries. -/
def freeReads (db : Database V) : RaNode → List Reference
  | .hole => []
  | .leaf _ (.values vs _ _) => allReferences vs
  | .leaf _ _ => []
  | .unary _ op c =>
      freeReads db c ++
        (allReferences (valueExprs op)).filter fun q => ¬ Offers (nullRow db c) q
  | .join _ join l r =>
      freeReads db l ++
        ((freeReads db r).filter fun q => isNested join = true → ¬ Offers (nullRow db l) q) ++
        (references join.predicate).filter fun q => ¬ Offers (conditionRow db join l r) q

theorem mem_freeReads {db : Database V} {t : RaNode} {q : Reference} :
    q ∈ freeReads db t ↔ TakesValue db t q := by
  induction t with
  | hole => simp [freeReads, TakesValue]
  | leaf i op => cases op <;> simp [freeReads, TakesValue]
  | unary i op c ih => simp [freeReads, TakesValue, ih]
  | join i join l r ihl ihr =>
    simp only [freeReads, TakesValue, List.mem_append, List.mem_filter, ihl, ihr, decide_eq_true_eq,
      or_assoc]

instance decidableCombinesRows : ∀ t, Decidable (CombinesRows t)
  | .hole => .isTrue trivial
  | .leaf _ _ => .isTrue trivial
  | .unary _ _ c => decidableCombinesRows c
  | .join _ join l r =>
      have := decidableCombinesRows l
      have := decidableCombinesRows r
      inferInstanceAs (Decidable ((join.marker = 0 → join.type ∈
        [.crossProduct, .inner, .left, .fullOuter, .dependentInnerLeft]) ∧
        CombinesRows l ∧ CombinesRows r))

/-- The rows of the tree do not stand for groups. -/
def isUngrouped : RaNode → Bool
  | .unary _ (.groupBy _ _) _ => false
  | .unary _ (.projection _) _ => true
  | .unary _ _ c => isUngrouped c
  | .join _ _ l _ => isUngrouped l
  | _ => true

/-- The condition is an AND. -/
def isConjunction : Expr → Bool
  | .boolPredicate .and _ => true
  | _ => false

/-- The left operand of a comparison. -/
def leftOperand : Expr → Expr
  | .predicate l _ _ => l
  | e => e

/-- The condition on a conjunct. A correlating one is as true over the row of the CTE; another one
reads the rows of the subquery alone. -/
def IsSeparated (rel : List (String × String)) (cteName : String) (qs : List CorrelatingPredicate)
    (shape : Row V) (e : Expr) : Prop :=
  match correlatingConjunct rel e with
  | some q => Faithful cteName qs (leftOperand e) q.binaryOperator q ∧ IsInnerRow q shape
  | none => IsLocal rel e ∧ ∀ r ∈ references e, Offers shape r

/-- The position of the binding that gives a reference. -/
def sourceOf (row : Row V) (r : Reference) : Option Nat :=
  row.findIdx? fun b => (resolve r b).isSome

/-- The attributes of a select expression are columns of the CTE, made from the columns that they
named in the subquery. -/
def IsCarried (cteName : String) (qs : List CorrelatingPredicate) (shape : Row V) (e : Expr) :
    Prop :=
  ∀ a ∈ selectAttributes [e], Resolves cteName (columnNames qs) a ∧
    ∀ q ∈ qs, a.1 = q.inner.1 →
      sourceOf shape (.column a.1 a.2) = sourceOf shape (.column q.inner.1 q.inner.2)

/-- The types of EXISTS joins, whose subquery is only tested for rows. -/
def existsTypes : List JoinType := [.semiLeftDependent, .antiLeftDependent]

/-- The condition on the select list of an IN subquery. -/
structure KeepsFirstColumn (cteName : String) (qs : List CorrelatingPredicate) (db : Database V)
    (pr : Projection) (c : RaNode) : Prop where
  ungrouped : isUngrouped c = true
  all : pr.distinct = false
  first : ∃ e ∈ pr.args.head?, ReadsColumns e ∧ IsCarried cteName qs (nullRow db c) e

/-- The condition on a subquery `select .. from c where p`: `c` takes nothing from the enclosing
queries, and `p` is a conjunction of conjuncts that can be separated, the correlating ones first. -/
structure LiftsOut (db : Database V) (rel : List (String × String)) (cteName : String) (p : Expr)
    (c : RaNode) (qs : List CorrelatingPredicate) : Prop where
  combines : CombinesRows c
  closed : freeReads db c = []
  conjunction : isConjunction p = true ∨ isCorrelatingConjunct rel p = true
  separated : ∀ e ∈ conjuncts p, IsSeparated rel cteName qs (nullRow db c) e
  first : ComesFirst (isCorrelatingConjunct rel) (conjuncts p)
  columns : "*" ∉ columnNames qs

section

variable {cteName : String} {qs : List CorrelatingPredicate} {row : Row V}

/-- The expression is this attribute. -/
private def isAttribute (a : AttributeRef) : Expr → Bool
  | .attribute n b => (n, b) = a
  | _ => false

private theorem isAttribute_iff {a : AttributeRef} {e : Expr} :
    isAttribute a e = true ↔ e = .attribute a.1 a.2 := by
  unfold isAttribute
  split
  · simp [Prod.ext_iff]
  · next hne => exact iff_of_false Bool.false_ne_true (hne a.1 a.2)

instance (l : Expr) (op : String) (q : CorrelatingPredicate) :
    Decidable (Faithful cteName qs l op q) :=
  decidable_of_iff
    ((columnNames qs).count q.inner.1 = 1 ∧ (isAttribute q.inner l = true ∨ op ∈ symmetricOperators) ∧
      (q.outer.2 = "" → q.outer.1 ∉ columnNames qs) ∧ q.outer.2 ≠ cteName)
    ⟨fun h => ⟨h.1, h.2.1.imp_left isAttribute_iff.mp, h.2.2.1, h.2.2.2⟩,
      fun h => ⟨h.column, h.orientation.imp_left isAttribute_iff.mpr, h.unqualified, h.qualifier⟩⟩

instance (q : CorrelatingPredicate) : Decidable (IsInnerRow q row) :=
  decidable_of_iff
    (Offers row (.column q.inner.1 q.inner.2) ∧ ¬ Offers row (.column q.outer.1 q.outer.2))
    ⟨fun h => ⟨h.1, h.2⟩, fun h => ⟨h.inner, h.outer⟩⟩

instance (rel : List (String × String)) (shape : Row V) (e : Expr) :
    Decidable (IsSeparated rel cteName qs shape e) :=
  match h : correlatingConjunct rel e with
  | some q =>
      decidable_of_iff
        (Faithful cteName qs (leftOperand e) q.binaryOperator q ∧ IsInnerRow q shape)
        (by simp only [IsSeparated, h])
  | none =>
      decidable_of_iff (IsLocal rel e ∧ ∀ r ∈ references e, Offers shape r)
        (by simp only [IsSeparated, h])

instance (shape : Row V) (e : Expr) : Decidable (IsCarried cteName qs shape e) :=
  inferInstanceAs (Decidable (∀ a ∈ selectAttributes [e], Resolves cteName (columnNames qs) a ∧
    ∀ q ∈ qs, a.1 = q.inner.1 →
      sourceOf shape (.column a.1 a.2) = sourceOf shape (.column q.inner.1 q.inner.2)))

/-- The reference is to one column. -/
private def isColumn : Reference → Bool
  | .column name _ => name ≠ "*"
  | _ => false

private theorem isColumn_iff {r : Reference} :
    isColumn r = true ↔ ∃ name aliasName, r = .column name aliasName ∧ name ≠ "*" := by
  cases r <;> simp [isColumn]

instance (e : Expr) : Decidable (ReadsColumns e) :=
  decidable_of_iff (∀ r ∈ references e, isColumn r = true)
    (forall₂_congr fun _ _ => isColumn_iff)

instance (db : Database V) (pr : Projection) (c : RaNode) :
    Decidable (KeepsFirstColumn cteName qs db pr c) :=
  decidable_of_iff
    (isUngrouped c = true ∧ pr.distinct = false ∧
      ∃ e ∈ pr.args.head?, ReadsColumns e ∧ IsCarried cteName qs (nullRow db c) e)
    ⟨fun h => ⟨h.1, h.2.1, h.2.2⟩, fun h => ⟨h.ungrouped, h.all, h.first⟩⟩

instance (db : Database V) (rel : List (String × String)) (p : Expr) (c : RaNode) :
    Decidable (LiftsOut db rel cteName p c qs) :=
  decidable_of_iff
    (CombinesRows c ∧ freeReads db c = [] ∧
      (isConjunction p = true ∨ isCorrelatingConjunct rel p = true) ∧
      (∀ e ∈ conjuncts p, IsSeparated rel cteName qs (nullRow db c) e) ∧
      ComesFirst (isCorrelatingConjunct rel) (conjuncts p) ∧ "*" ∉ columnNames qs)
    ⟨fun h => ⟨h.1, h.2.1, h.2.2.1, h.2.2.2.1, h.2.2.2.2.1, h.2.2.2.2.2⟩,
      fun h => ⟨h.combines, h.closed, h.conjunction, h.separated, h.first, h.columns⟩⟩

end

section

variable {rel : List (String × String)} {p : Expr}

theorem isLocal_of_isSeparated {cteName : String} {qs : List CorrelatingPredicate} {shape : Row V}
    {e : Expr} (h : IsSeparated rel cteName qs shape e) :
    isCorrelatingConjunct rel e = true ∨ IsLocal rel e := by
  rw [IsSeparated] at h
  rw [isCorrelatingConjunct]
  split at h
  · next q hq => exact .inl (by rw [hq]; rfl)
  · exact .inr h.1

/-- The correlating predicates are those of the correlating conjuncts. -/
theorem getCorrelatingPredicates_conjuncts
    (h : ∀ e ∈ conjuncts p, isCorrelatingConjunct rel e = true ∨ IsLocal rel e) :
    getCorrelatingPredicates rel p = some ((conjuncts p).filterMap (correlatingConjunct rel)) := by
  have hone (h : isCorrelatingConjunct rel p = true ∨ IsLocal rel p) :
      getCorrelatingPredicates rel p = some ([p].filterMap (correlatingConjunct rel)) := by
    rcases h with hcor | hlocal
    · obtain ⟨q, hq⟩ := Option.isSome_iff_exists.mp hcor
      rw [getCorrelatingPredicates_conjunct hq]
      simp [hq]
    · rw [hlocal]
      simp [correlatingConjunct_of_isLocal hlocal]
  cases p with
  | boolPredicate op args =>
    cases op with
    | and => exact getAllCorrelatingPredicates_conjuncts h
    | _ => exact hone (h _ (List.mem_singleton_self _))
  | _ => exact hone (h _ (List.mem_singleton_self _))

variable [DecidableEq V] (I : Interpretation V)

/-- What is left of the condition is the conjunction of the conjuncts that are not correlating. -/
theorem truth_rest (hconj : isConjunction p = true ∨ isCorrelatingConjunct rel p = true)
    (hfirst : ComesFirst (isCorrelatingConjunct rel) (conjuncts p)) {rest : Option Expr}
    (hrest : remainingPredicate p ((conjuncts p).countP (isCorrelatingConjunct rel)) = some rest)
    (c : Context V) : (rest.map (truth I c)).getD .tt =
      .conj (((conjuncts p).filter fun e => !isCorrelatingConjunct rel e).map (truth I c)) := by
  rcases hconj with hand | hcor
  · obtain ⟨args, rfl⟩ : ∃ args, p = .boolPredicate .and args := by
      cases p with
      | boolPredicate op args =>
        cases op with
        | and => exact ⟨args, rfl⟩
        | _ => cases hand
      | _ => cases hand
    rw [← drop_countP_eq_filter_iff.mpr hfirst]
    simp only [remainingPredicate, Option.ite_none_left_eq_some] at hrest
    obtain ⟨-, -, hrest⟩ := hrest
    change _ = Truth.conj ((args.drop (args.countP _)).map _)
    split at hrest <;> cases hrest
    · next hdrop =>
      rw [conjuncts] at hdrop
      rw [hdrop]
      rfl
    · next e hdrop =>
      rw [conjuncts] at hdrop
      rw [hdrop]
      exact (inf_top_eq _).symm
    · exact truth_and I c _
  · cases p with
    | predicate l r op =>
      cases hrest
      simp [conjuncts, hcor]
    | _ => cases hcor

/-- A condition says what its correlating conjuncts and the others say. -/
theorem truth_split (c : Context V) : truth I c p = .tt ↔
    (∀ e ∈ conjuncts p, isCorrelatingConjunct rel e = true → truth I c e = .tt) ∧
      Truth.conj (((conjuncts p).filter fun e => !isCorrelatingConjunct rel e).map (truth I c)) =
        .tt := by
  have hall : truth I c p = .tt ↔ ∀ e ∈ conjuncts p, truth I c e = .tt := by
    cases p with
    | boolPredicate op args =>
      cases op with
      | and => simp [truth_and, Truth.conj_eq_tt, conjuncts]
      | _ => simp [conjuncts]
    | _ => simp [conjuncts]
  rw [hall, Truth.conj_eq_tt]
  simp only [List.forall_mem_map, List.mem_filter, Bool.not_eq_true', and_imp]
  constructor
  · exact fun h => ⟨fun e he _ => h e he, fun e he _ => h e he⟩
  · intro h e he
    cases hcor : isCorrelatingConjunct rel e with
    | true => exact h.1 e he hcor
    | false => exact h.2 e he hcor

end

/-- The probe says what its predicates say. -/
theorem truth_probe [DecidableEq V] (I : Interpretation V) (c : Context V) (cteName : String)
    (qs : List CorrelatingPredicate) : truth I c (probe cteName qs) = .tt ↔
      ∀ q ∈ qs, truth I c (probePredicate cteName q) = .tt := by
  match qs with
  | [] => simp [probe, truth_and]
  | [q] => simp [probe]
  | q :: q' :: qs => simp only [probe, truth_and, Truth.conj_eq_tt, List.forall_mem_map]

section

variable [DecidableEq V] {I : Interpretation V} {db : Database V} {rel : List (String × String)}
  {cteName : String} {p : Expr} {c : RaNode} {qs : List CorrelatingPredicate}
  (h : LiftsOut db rel cteName p c qs)

include h

theorem LiftsOut.evaluate_eq (env env' : Row V) : evaluate db I c env = evaluate db I c env' :=
  evaluate_congr_values h.combines fun q hq => by
    rw [← mem_freeReads, h.closed] at hq
    cases hq

/-- A conjunct that is not correlating reads the row of the subquery. -/
theorem LiftsOut.truth_kept {e : Expr} (he : e ∈ conjuncts p)
    (hcor : isCorrelatingConjunct rel e = false) {u : Tuple V} {env₀ : Row V}
    (hu : u ∈ evaluate db I c env₀) (env env' : Row V) :
    truth I ⟨u.row ++ env, []⟩ e = truth I ⟨u.row ++ env', []⟩ e := by
  have hsep := h.separated e he
  have hnone : correlatingConjunct rel e = none := by
    rwa [isCorrelatingConjunct, Option.isSome_eq_false_iff, Option.isNone_iff_eq_none] at hcor
  rw [IsSeparated, hnone] at hsep
  exact truth_congr I fun r hr =>
    lookup_append_of_offers ((offers_of_mem hu).mpr (hsep.2 r hr)) env env'

omit [DecidableEq V] in
theorem LiftsOut.correlating {e : Expr} (he : e ∈ conjuncts p) {q : CorrelatingPredicate}
    (heq : correlatingConjunct rel e = some q) :
    Faithful cteName qs (leftOperand e) q.binaryOperator q ∧ IsInnerRow q (nullRow db c) := by
  have hsep := h.separated e he
  rw [IsSeparated, heq] at hsep
  exact hsep

variable (hqs : qs = (conjuncts p).filterMap (correlatingConjunct rel))

include hqs

theorem LiftsOut.isInnerRow {q : CorrelatingPredicate} (hq : q ∈ qs) {u : Tuple V} {env₀ : Row V}
    (hu : u ∈ evaluate db I c env₀) : IsInnerRow q u.row := by
  obtain ⟨e, he, heq⟩ := List.mem_filterMap.mp (hqs ▸ hq)
  obtain ⟨-, hinner⟩ := h.correlating he heq
  exact ⟨(offers_of_mem hu).mpr hinner.inner, fun hoff => hinner.outer ((offers_of_mem hu).mp hoff)⟩

/-- The row of the CTE for a row of the subquery does not depend on the enclosing queries. -/
theorem LiftsOut.cteRow_eq {u : Tuple V} {env₀ : Row V} (hu : u ∈ evaluate db I c env₀)
    (env env' : Row V) : cteRow cteName qs (u.row ++ env) = cteRow cteName qs (u.row ++ env') := by
  have hcolumns : cteColumns qs (u.row ++ env) = cteColumns qs (u.row ++ env') := by
    refine List.map_congr_left fun q hq => ?_
    rw [attributeValue, attributeValue,
      lookup_append_of_offers (h.isInnerRow hqs hq hu).inner env env']
  rw [cteRow, cteRow, hcolumns]

/-- The probe is true over the row of the CTE when the correlating conjuncts are true. -/
theorem LiftsOut.truth_probe_iff (hI : SymmetricEquality I) (hname : cteName ≠ "") {u : Tuple V}
    {env₀ : Row V} (hu : u ∈ evaluate db I c env₀) (env : Row V) :
    truth I ⟨cteRow cteName qs (u.row ++ env) ++ env, []⟩ (probe cteName qs) = .tt ↔
      ∀ e ∈ conjuncts p, isCorrelatingConjunct rel e = true →
        truth I ⟨u.row ++ env, []⟩ e = .tt := by
  have hsame {e : Expr} {q : CorrelatingPredicate} (he : e ∈ conjuncts p)
      (heq : correlatingConjunct rel e = some q) :
      truth I ⟨u.row ++ env, []⟩ e =
        truth I ⟨cteRow cteName qs (u.row ++ env) ++ env, []⟩ (probePredicate cteName q) := by
    have hmem : q ∈ qs := hqs ▸ List.mem_filterMap.mpr ⟨e, he, heq⟩
    obtain ⟨hfaithful, -⟩ := h.correlating he heq
    cases e with
    | predicate l r op =>
      obtain ⟨hop, -⟩ := isCorrelatingPredicate_eq_some heq
      rw [hop] at hfaithful
      exact (sameTruth_of_faithful hname heq hmem hfaithful).2 V I hI _ _
        (h.isInnerRow hqs hmem hu)
    | _ => cases heq
  rw [truth_probe]
  constructor
  · intro hall e he hcor
    obtain ⟨q, heq⟩ := Option.isSome_iff_exists.mp hcor
    rw [hsame he heq]
    exact hall q (hqs ▸ List.mem_filterMap.mpr ⟨e, he, heq⟩)
  · intro hall q hq
    obtain ⟨e, he, heq⟩ := List.mem_filterMap.mp (hqs ▸ hq)
    rw [← hsame he heq]
    exact hall e he (by rw [isCorrelatingConjunct, heq]; rfl)

omit [DecidableEq V] h hqs in
/-- The columns of the CTE do not read the members of a group. -/
private theorem projectRow_members [DecidableEq V] (I : Interpretation V) (row scope : Row V)
    (members : List (Row V)) :
    projectRow (cteProjectionOf cteName qs) (value I ⟨scope, members⟩) row =
      projectRow (cteProjectionOf cteName qs) (value I ⟨scope, []⟩) row := by
  have hcolumn (q : CorrelatingPredicate) :
      selectColumn (value I ⟨scope, members⟩) row (.attribute q.inner.1 q.inner.2) =
        selectColumn (value I ⟨scope, []⟩) row (.attribute q.inner.1 q.inner.2) := by
    unfold selectColumn
    split <;> rfl
  simp only [projectRow, cteProjectionOf, List.flatMap_map, hcolumn]

/-- The rows below the projection of the CTE. -/
private theorem evaluate_leftOver {sel : Nat} {rest : Option Expr}
    (hrest : remainingPredicate p qs.length = some rest) :
    evaluate db I (leftOver sel c rest) [] = (evaluate db I c []).filter fun u =>
      Truth.conj (((conjuncts p).filter fun e => !isCorrelatingConjunct rel e).map
        (truth I ⟨u.row ++ [], []⟩)) = .tt := by
  rw [hqs, length_filterMap_conjuncts] at hrest
  have htruth (u : Tuple V) := truth_rest I h.conjunction h.first hrest ⟨u.row ++ [], []⟩
  simp only [← htruth]
  cases rest with
  | none => simp [leftOver]
  | some e => rfl

/-- The rows of the selection from the CTE are the rows of the CTE for the rows of the old
Selection. -/
theorem LiftsOut.evaluate_probe (hI : SymmetricEquality I) (hname : cteName ≠ "")
    {rest : Option Expr} (hrest : remainingPredicate p qs.length = some rest)
    (sel cteId i selId relId : Nat) (env : Row V) :
    evaluate (withTable I db (.projection cteId (cteProjectionOf cteName qs) (leftOver sel c rest)))
        I (.selection selId (probe cteName qs) (.relation relId cteName "")) env =
      (evaluate db I (.selection i p c) env).map fun u =>
        ⟨cteRow cteName qs (u.row ++ env), []⟩ := by
  have hcte : evaluate db I
      (.projection cteId (cteProjectionOf cteName qs) (leftOver sel c rest)) [] =
        (evaluate db I (leftOver sel c rest) []).map fun u =>
          ⟨cteRow cteName qs (u.row ++ []), []⟩ := by
    rw [evaluate]
    refine List.map_congr_left fun u _ => ?_
    rw [← projectRow_cteProjectionOf I cteName h.columns]
    exact congrArg (fun row => Tuple.mk row []) (projectRow_members I _ _ _)
  have hread := evaluate_withTable I db
    (.projection cteId (cteProjectionOf cteName qs) (leftOver sel c rest)) relId "" env
  rw [hcte, evaluate_leftOver h hqs hrest, List.map_map] at hread
  rw [evaluate]
  refine (congrArg (List.filter (satisfies I env (probe cteName qs))) hread).trans ?_
  rw [evaluate, h.evaluate_eq env [], List.filter_map, List.filter_filter]
  have hrow {u : Tuple V} (hu : u ∈ evaluate db I c []) :
      (⟨[.source (qualifier cteName "") (starColumns "" (cteRow cteName qs (u.row ++ [])))], []⟩ :
        Tuple V) = ⟨cteRow cteName qs (u.row ++ env), []⟩ := by
    rw [h.cteRow_eq hqs hu [] env]
    simp [cteRow, starColumns, qualifier]
  have hfilter : (evaluate db I c []).filter (fun u =>
        satisfies I env (probe cteName qs)
          ⟨[.source (qualifier cteName "") (starColumns "" (cteRow cteName qs (u.row ++ [])))], []⟩ &&
        decide (Truth.conj (((conjuncts p).filter fun e => !isCorrelatingConjunct rel e).map
          (truth I ⟨u.row ++ [], []⟩)) = .tt)) =
      (evaluate db I c []).filter (satisfies I env p) := by
    refine List.filter_congr fun u hu => ?_
    have hkept : ((conjuncts p).filter fun e => !isCorrelatingConjunct rel e).map
        (truth I ⟨u.row ++ [], []⟩) = ((conjuncts p).filter fun e =>
          !isCorrelatingConjunct rel e).map (truth I ⟨u.row ++ env, []⟩) := by
      refine List.map_congr_left fun e he => ?_
      obtain ⟨he, hcor⟩ := List.mem_filter.mp he
      exact h.truth_kept he (by simpa using hcor) hu _ _
    rw [hrow hu, hkept, satisfies, satisfies, ← Bool.decide_and, decide_eq_decide,
      h.truth_probe_iff hqs hI hname hu, ← truth_split]
  refine Eq.trans ?_ (congrArg _ hfilter)
  exact List.map_congr_left fun u hu => hrow (List.mem_filter.mp hu).1

end

section

variable {n a a' : String} {k : Nat} {env : Row V}

theorem sourceOf_erase (row : Row V) (r : Reference) : sourceOf (row.map erase) r = sourceOf row r := by
  have hone (b : Binding V) : (resolve r (erase b)).isSome = (resolve r b).isSome := by
    have h := @offers_erase _ [b] r
    simp only [List.map_cons, List.map_nil, Offers, List.mem_singleton, exists_eq_left] at h
    exact Bool.eq_iff_iff.mpr h
  rw [sourceOf, List.findIdx?_map]
  simp only [Function.comp_def, hone]
  rfl

/-- The value of a column of a binding. -/
def columnAt (n : String) : Binding V → Option V
  | .source _ cs => (cs.lookup n).join
  | .subquery _ _ _ => none

/-- An attribute is read from the binding at its position. -/
theorem attributeValue_sourceOf {row : Row V} (h : sourceOf row (.column n a) = some k) :
    attributeValue (row ++ env) (n, a) = (row[k]?.map (columnAt n)).join := by
  induction row generalizing k with
  | nil => cases h
  | cons b row ih =>
    rw [sourceOf, List.findIdx?_cons] at h
    rw [attributeValue, lookup, List.cons_append, List.findSome?_cons]
    split at h
    · next hb =>
      cases h
      obtain ⟨v, hv⟩ := Option.isSome_iff_exists.mp hb
      rw [hv]
      cases b with
      | source q cs =>
        simp only [resolve] at hv
        split at hv
        · obtain ⟨w, hw, rfl⟩ := Option.map_eq_some_iff.mp hv
          simp [columnAt, hw]
        · rw [Option.ite_none_right_eq_some] at hv
          obtain ⟨-, hv⟩ := hv
          cases hv
          rfl
      | subquery m v h => cases hv
    · next hb =>
      obtain ⟨j, hj, rfl⟩ := Option.map_eq_some_iff.mp h
      rw [Bool.not_eq_true, Option.isSome_eq_false_iff, Option.isNone_iff_eq_none] at hb
      rw [hb]
      exact ih hj

/-- Attributes of one name that are read from one binding have one value. -/
theorem attributeValue_of_sourceOf {row : Row V}
    (h : sourceOf row (.column n a) = sourceOf row (.column n a'))
    (hoffers : Offers row (.column n a')) :
    attributeValue (row ++ env) (n, a) = attributeValue (row ++ env) (n, a') := by
  obtain ⟨b, hb, hsome⟩ := hoffers
  obtain ⟨k, hk⟩ : ∃ k, sourceOf row (.column n a') = some k := by
    rw [← Option.isSome_iff_exists, sourceOf, List.findIdx?_isSome, List.any_eq_true]
    exact ⟨b, hb, hsome⟩
  rw [attributeValue_sourceOf hk, attributeValue_sourceOf (h.trans hk)]

end

section

variable [DecidableEq V] {I : Interpretation V} {db : Database V}

theorem members_eq_nil {c : RaNode} (h : isUngrouped c = true) {env : Row V} :
    ∀ u ∈ evaluate db I c env, u.members = [] := by
  induction c generalizing env with
  | hole =>
    intro u hu
    cases hu
  | leaf i op =>
    intro u hu
    cases op with
    | relation name a =>
      obtain ⟨r, -, rfl⟩ := List.mem_map.mp hu
      rfl
    | values vs a column =>
      obtain ⟨v, -, rfl⟩ := List.mem_map.mp hu
      rfl
    | dummy => exact List.mem_singleton.mp hu ▸ rfl
  | unary i op c ih =>
    cases op with
    | groupBy args implicit => cases h
    | root => exact ih h
    | orderBy args directions => exact ih h
    | selection p => exact fun u hu => ih h u (List.mem_filter.mp hu).1
    | having p => exact fun u hu => ih h u (List.mem_filter.mp hu).1
    | projection pr =>
      intro u hu
      have hu' : u ∈ (evaluate db I c env).map fun t =>
          (⟨projectRow pr (value I (t.context env)) t.row, []⟩ : Tuple V) := by
        rw [evaluate] at hu
        split at hu
        · exact List.mem_dedup.mp hu
        · exact hu
      obtain ⟨t, -, rfl⟩ := List.mem_map.mp hu'
      rfl
  | join i join l r ihl =>
    intro u hu
    obtain ⟨t, ht, rfl⟩ := List.mem_map.mp hu
    have hmatching {b : List (Tuple V)} {s : Tuple V}
        (ht : t ∈ matching beside (satisfies I env join.predicate) b s) : t.members = [] := by
      obtain ⟨b, -, rfl, -⟩ := mem_matching.mp ht
      rfl
    have hleft {ls rs : List (Tuple V)} {pad : Row V}
        (ht : t ∈ leftJoin beside (beside · ⟨pad, []⟩) (satisfies I env join.predicate) ls rs) :
        t.members = [] := by
      obtain ⟨s, -, ⟨b, -, rfl, -⟩ | ⟨rfl, -⟩⟩ := mem_leftJoin.mp ht <;> rfl
    change t.members = []
    split at ht
    · obtain ⟨s, -, rfl⟩ := List.mem_map.mp ht
      rfl
    · split at ht
      · obtain ⟨s, -, ht⟩ := List.mem_flatMap.mp ht
        exact hmatching ht
      · obtain ⟨s, -, ht⟩ := List.mem_flatMap.mp ht
        exact hmatching ht
      · exact hleft ht
      · rcases List.mem_append.mp ht with ht | ht
        · exact hleft ht
        · obtain ⟨b, -, rfl⟩ := List.mem_map.mp ht
          rfl
      · obtain ⟨s, -, ht⟩ := List.mem_flatMap.mp ht
        exact hmatching ht
      · exact ihl h t ht

omit [DecidableEq V] in
/-- The first column of a projection with a plain first select expression. -/
theorem firstColumn_projectRow {pr : Projection} {e : Expr} (he : e ∈ pr.args.head?)
    (hcols : ReadsColumns e) (val : Expr → Option V) (row : Row V) :
    firstColumn (projectRow pr val row) = val e := by
  obtain ⟨es, hargs⟩ : ∃ es, pr.args = e :: es := List.head?_eq_some_iff.mp he
  have hone : selectColumn val row e = [(columnName e, val e)] := by
    unfold selectColumn
    split
    · obtain ⟨_, _, heq, hne⟩ := hcols _ (List.mem_singleton_self _)
      cases heq
      exact absurd rfl hne
    · obtain ⟨_, _, heq, hne⟩ := hcols _ (List.mem_singleton_self _)
      cases heq
      exact absurd rfl hne
    · rfl
  rw [projectRow, hargs, List.flatMap_cons, hone, renameColumns]
  cases pr.subqueryColumns <;> simp [firstColumn, starColumns]

/-- An EXISTS subquery is tested for rows. -/
private theorem subqueryBinding_exists {join : Join} (htype : join.type ∈ existsTypes) (scope : Row V)
    (rows : List (Tuple V)) :
    subqueryBinding I join scope rows = .subquery join.marker none (.ofBool !rows.isEmpty) := by
  simp only [existsTypes, List.mem_cons, List.not_mem_nil, or_false] at htype
  rcases htype with htype | htype <;> simp only [subqueryBinding, htype]

/-- What a WHERE subquery gives depends on the first columns of its rows. -/
private theorem subqueryBinding_congr {join : Join} {scope : Row V} {rows rows' : List (Tuple V)}
    (h : rows.map (fun t => firstColumn t.row) = rows'.map fun t => firstColumn t.row) :
    subqueryBinding I join scope rows = subqueryBinding I join scope rows' := by
  have hempty : rows.isEmpty = rows'.isEmpty := by
    rw [← List.isEmpty_map (f := fun t => firstColumn t.row) (l := rows), h, List.isEmpty_map]
  have hhead : (rows.head?.bind fun t => firstColumn t.row) =
      rows'.head?.bind fun t => firstColumn t.row := by
    have hjoin (ts : List (Tuple V)) : (ts.head?.bind fun t => firstColumn t.row) =
        (ts.map fun t => firstColumn t.row).head?.join := by
      cases ts <;> rfl
    rw [hjoin, hjoin, h]
  have hin (probe : Expr) : rows.map (fun t =>
        I.compare "=" ((meaning I probe).operand ⟨scope, []⟩) [firstColumn t.row]) =
      rows'.map fun t =>
        I.compare "=" ((meaning I probe).operand ⟨scope, []⟩) [firstColumn t.row] := by
    have := congrArg (List.map fun v =>
      I.compare "=" ((meaning I probe).operand ⟨scope, []⟩) [v]) h
    rwa [List.map_map, List.map_map] at this
  simp only [subqueryBinding, hempty, hhead, hin]

variable {rel : List (String × String)} {cteName : String} {p : Expr} {c : RaNode}
  {qs : List CorrelatingPredicate}

/-- A select expression has the value over the row of the CTE that it has over the row of the
subquery. -/
private theorem value_carried (hname : cteName ≠ "") (hungrouped : isUngrouped c = true)
    (hinner : ∀ q ∈ qs, Offers (nullRow db c) (.column q.inner.1 q.inner.2)) {e : Expr}
    (hcols : ReadsColumns e) (hcarried : IsCarried cteName qs (nullRow db c) e) {env : Row V}
    {u : Tuple V} (hu : u ∈ evaluate db I c env) :
    value I ⟨cteRow cteName qs (u.row ++ env) ++ env, []⟩ e = value I (u.context env) e := by
  have hsource (r : Reference) : sourceOf u.row r = sourceOf (nullRow db c) r := by
    rw [← shape_evaluate db I c env u hu, sourceOf_erase]
  have halike : ReadsAlike [e] qs (u.row ++ env) := by
    rintro ⟨n, a⟩ ha q hq heq
    obtain rfl : n = q.inner.1 := heq
    have hsame := (hcarried _ ha).2 q hq rfl
    rw [← hsource, ← hsource] at hsame
    exact attributeValue_of_sourceOf hsame ((offers_of_mem hu).mpr (hinner q hq))
  have hagree := agree_cteRow hname (fun a ha => (hcarried a ha).1) halike
    (List.mem_singleton_self e) hcols
  refine (determined I e).value ⟨hagree, ?_⟩
  rw [Tuple.context, members_eq_nil hungrouped u hu]
  exact .nil

variable (h : LiftsOut db rel cteName p c qs)
  (hqs : qs = (conjuncts p).filterMap (correlatingConjunct rel)) (hI : SymmetricEquality I)
  (hname : cteName ≠ "")

include h hqs hI hname

/-- The selection from the CTE gives the same for every outer row as the subquery. -/
theorem LiftsOut.subqueryBinding_eq {join : Join} {pr : Projection}
    (htype : join.type ∈ existsTypes ∨ KeepsFirstColumn cteName qs db pr c) {sel cteId : Nat}
    {rest : Option Expr} (hrest : remainingPredicate p qs.length = some rest)
    (i prId selId relId : Nat) (scope : Row V) :
    subqueryBinding I join scope (evaluate
        (withTable I db (.projection cteId (cteProjectionOf cteName qs) (leftOver sel c rest))) I
        (.projection prId { args := pr.args }
          (.selection selId (probe cteName qs) (.relation relId cteName ""))) scope) =
      subqueryBinding I join scope
        (evaluate db I (.projection i pr (.selection sel p c)) scope) := by
  have hrows := h.evaluate_probe hqs hI hname hrest sel cteId sel selId relId scope
  rcases htype with htype | hkeeps
  · have hempty (pr : Projection) (db : Database V) (j : Nat) (t : RaNode) :
        (evaluate db I (.projection j pr t) scope).isEmpty = (evaluate db I t scope).isEmpty := by
      rw [evaluate]
      split
      · rw [Bool.eq_iff_iff, List.isEmpty_iff, List.dedup_eq_nil, ← List.isEmpty_iff,
          List.isEmpty_map]
      · exact List.isEmpty_map
    rw [subqueryBinding_exists htype, subqueryBinding_exists htype, hempty, hempty, hrows,
      List.isEmpty_map]
  · obtain ⟨e, he, hcols, hcarried⟩ := hkeeps.first
    have hall {pr : Projection} (hpr : pr.distinct = false) (db : Database V) (j : Nat) (t : RaNode) :
        evaluate db I (.projection j pr t) scope = (evaluate db I t scope).map fun u =>
          ⟨projectRow pr (value I (u.context scope)) u.row, []⟩ := by
      rw [evaluate, if_neg (by simp [hpr])]
    refine subqueryBinding_congr ?_
    rw [hall rfl, hall hkeeps.all, hrows, List.map_map, List.map_map, List.map_map]
    refine List.map_congr_left fun u hu => ?_
    have hc : u ∈ evaluate db I c scope := (List.mem_filter.mp hu).1
    have hinner : ∀ q ∈ qs, Offers (nullRow db c) (.column q.inner.1 q.inner.2) := by
      intro q hq
      obtain ⟨e, he, heq⟩ := List.mem_filterMap.mp (hqs ▸ hq)
      exact (h.correlating he heq).2.inner
    have hnew : e ∈ ({ args := pr.args } : Projection).args.head? := he
    simp only [Function.comp_apply]
    rw [firstColumn_projectRow hnew hcols, firstColumn_projectRow he hcols]
    exact value_carried hname hkeeps.ungrouped hinner hcols hcarried hc

end

end SqlOptimizer.Unnesting.LiftedRows
