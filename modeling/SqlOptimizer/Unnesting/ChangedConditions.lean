import SqlOptimizer.Tree.PushDownMeaning
import SqlOptimizer.Unnesting.CorrelationAgreement
import SqlOptimizer.Unnesting.RedundantPredicates
import SqlOptimizer.Unnesting.Renaming

/-!
The conditions that `decorrelate_subquery` changes: attributes of the outer side get the qualifier
of D, and the marker of the subquery is replaced with a column of the derived table.
-/

set_option autoImplicit false
set_option relaxedAutoImplicit false

namespace SqlOptimizer.Unnesting.ChangedConditions

open Algebra.RelationalAlgebra
open Logic.ThreeValued
open Tree.PushDownConditions (absorbs)
open Tree.PushDownMeaning (truth_and)
open Semantics.Evaluation Semantics.References
open Attributes Markers Decouple Renaming RedundantPredicates
open CorrelationAgreement (conjuncts)

section

variable (f : String → String → String × String)

/-- The change of a reference. -/
def mapReference : Reference → Reference
  | .column n a => .column (f n a).1 (f n a).2
  | .marker k => .marker k

/-- Nothing is left in the expression that the change would alter. -/
def Settled (e : Expr) : Prop := ∀ n a, .column n a ∈ references e → f n a = (n, a)

theorem Settled.mono {e e' : Expr} (h : Settled f e)
    (hsub : ∀ r ∈ references e', r ∈ references e) : Settled f e' :=
  fun n a hmem => h n a (hsub _ hmem)

theorem mapAllExpressionAttributes_eq_map (es : List Expr) :
    mapAllExpressionAttributes f es = es.map (mapExpressionAttributes f) := by
  induction es with
  | nil => rfl
  | cons e es ih => rw [mapAllExpressionAttributes, ih, List.map_cons]

theorem mapAllPredicateAttributes_eq_map (es : List Expr) :
    mapAllPredicateAttributes f es = es.map (mapPredicateAttributes f) := by
  induction es with
  | nil => rfl
  | cons e es ih => rw [mapAllPredicateAttributes, ih, List.map_cons]

variable {f}

theorem mapExpressionAttributes_settled {e : Expr} (h : Settled f e) :
    mapExpressionAttributes f e = e := by
  induction e using Expr.ind with
  | attr n a =>
    rw [mapExpressionAttributes, mapAttribute, h n a (List.mem_singleton_self _)]
  | expression l r op ihl ihr =>
    rw [mapExpressionAttributes, ihl (h.mono f fun _ => List.mem_append_left _),
      ihr (h.mono f fun _ => List.mem_append_right _)]
  | funcCall name args g d ih =>
    have hargs : ∀ e ∈ args, mapExpressionAttributes f e = e := fun e he =>
      ih e he (h.mono f fun _ => mem_allReferences he)
    rw [mapExpressionAttributes, mapAllExpressionAttributes_eq_map, List.map_congr_left hargs,
      List.map_id']
  | typeCast type mod e ih => rw [mapExpressionAttributes, ih h]
  | _ => rfl

theorem mapPredicateAttributes_settled {e : Expr} (h : Settled f e) :
    mapPredicateAttributes f e = e := by
  induction e using Expr.ind with
  | boolPredicate op args ih =>
    have hargs : ∀ e ∈ args, mapPredicateAttributes f e = e := fun e he =>
      ih e he (h.mono f fun _ => mem_allReferences he)
    rw [mapPredicateAttributes, mapAllPredicateAttributes_eq_map, List.map_congr_left hargs,
      List.map_id']
  | predicate l r op =>
    rw [mapPredicateAttributes,
      mapExpressionAttributes_settled (h.mono f fun _ => List.mem_append_left _),
      mapExpressionAttributes_settled (h.mono f fun _ => List.mem_append_right _)]
  | _ => rfl

variable (f)

private theorem isPresent_mapExpressionAttributes (e : Expr) :
    (mapExpressionAttributes f e).isPresent = e.isPresent := by
  cases e <;> rfl

end

section

variable {V : Type} [DecidableEq V] {I : Interpretation V} {s s' : Row V}
  {f : String → String → String × String}

/-- What the change does not come to means the same on both rows. -/
private theorem sameMeaning_of_settled {e : Expr}
    (h : ∀ r ∈ references e, lookup s' (mapReference f r) = lookup s r) (hset : Settled f e) :
    SameMeaning I s s' e e := by
  have hagree : ContextAgree (references e) (⟨s', []⟩ : Context V) ⟨s, []⟩ := by
    refine ⟨fun r hr => ?_, .nil⟩
    rw [← h r hr]
    cases r with
    | column n a => rw [mapReference, hset n a hr]
    | marker k => rfl
  have hd := determined I e
  exact ⟨hd.value hagree, hd.truth hagree, hd.operand hagree⟩

private theorem map_meanings {β : Type} {g k : Meaning V → β} {es es' : List Expr}
    (h : List.Forall₂ (fun e e' => k (meaning I e') = g (meaning I e)) es es') :
    (meanings I es').map k = (meanings I es).map g := by
  rw [meanings_eq_map, meanings_eq_map, List.map_map, List.map_map, ← List.forall₂_eq_eq_eq,
    List.forall₂_map_left_iff, List.forall₂_map_right_iff]
  exact h.flip

/-- An expression whose attributes are changed means on the new row what it meant on the old row, if
the new row gives for the changed references what the old one gave. -/
theorem sameMeaning_mapExpressionAttributes {e : Expr}
    (h : ∀ r ∈ references e, lookup s' (mapReference f r) = lookup s r)
    (hset : Settled f (mapExpressionAttributes f e)) :
    SameMeaning I s s' e (mapExpressionAttributes f e) := by
  induction e using Expr.ind with
  | attr n a =>
    refine sameMeaning_of_value rfl rfl ?_
    rw [← h (.column n a) List.mem_cons_self]
    rfl
  | expression l r op ihl ihr =>
    have hl := ihl (fun x hx => h x (List.mem_append_left _ hx))
      (hset.mono f fun x hx => List.mem_append_left _ hx)
    have hr := ihr (fun x hx => h x (List.mem_append_right _ hx))
      (hset.mono f fun x hx => List.mem_append_right _ hx)
    refine sameMeaning_of_value rfl rfl ?_
    simp only [isPresent_mapExpressionAttributes, hl.value, hr.value]
  | typeCast type mod e ih =>
    exact sameMeaning_of_value rfl rfl (congrArg (I.cast type mod) (ih h hset).value)
  | funcCall name args g d ih =>
    cases g with
    | true => exact sameMeaning_of_value rfl rfl rfl
    | false =>
      refine sameMeaning_of_value rfl rfl (congrArg (I.function name) (map_meanings ?_))
      rw [mapAllExpressionAttributes_eq_map, List.forall₂_map_right_iff, List.forall₂_same]
      intro e he
      refine (ih e he (fun r hr => h r (mem_allReferences he hr))
        (hset.mono f fun r hr => ?_)).value
      exact mem_allReferences (by
        rw [mapAllExpressionAttributes_eq_map]
        exact List.mem_map_of_mem he) hr
  | _ => exact sameMeaning_of_settled h hset

private theorem negatedTruth_map {e : Expr}
    (h : SameMeaning I s s' e (mapPredicateAttributes f e)) :
    negatedTruth ⟨s', []⟩ (mapPredicateAttributes f e, meaning I (mapPredicateAttributes f e)) =
      negatedTruth ⟨s, []⟩ (e, meaning I e) := by
  cases e with
  | whereSubqueryMarker k type =>
    cases type <;> first | exact h.truth | exact congrArg Truth.not h.truth
  | _ => exact congrArg Truth.not h.truth

/-- The same of a condition. -/
theorem sameMeaning_mapPredicateAttributes {e : Expr}
    (h : ∀ r ∈ references e, lookup s' (mapReference f r) = lookup s r)
    (hset : Settled f (mapPredicateAttributes f e)) :
    SameMeaning I s s' e (mapPredicateAttributes f e) := by
  induction e using Expr.ind with
  | boolPredicate op args ih =>
    have hargs : ∀ e ∈ args, SameMeaning I s s' e (mapPredicateAttributes f e) := by
      intro e he
      refine ih e he (fun r hr => h r (mem_allReferences he hr)) (hset.mono f fun r hr => ?_)
      exact mem_allReferences (by
        rw [mapAllPredicateAttributes_eq_map]
        exact List.mem_map_of_mem he) hr
    have htruth : List.Forall₂ (fun e e' => (meaning I e').truth ⟨s', []⟩ =
        (meaning I e).truth ⟨s, []⟩) args (mapAllPredicateAttributes f args) := by
      rw [mapAllPredicateAttributes_eq_map, List.forall₂_map_right_iff, List.forall₂_same]
      exact fun e he => (hargs e he).truth
    cases op with
    | and => exact sameMeaning_of_truth rfl rfl (congrArg Truth.conj (map_meanings htruth))
    | or => exact sameMeaning_of_truth rfl rfl (congrArg Truth.disj (map_meanings htruth))
    | not =>
      refine sameMeaning_of_truth rfl rfl (congrArg Truth.conj ?_)
      have hzip (es : List Expr) : es.zip (meanings I es) = es.map fun e => (e, meaning I e) := by
        rw [meanings_eq_map]
        induction es with
        | nil => rfl
        | cons e es ih => simp only [List.map_cons, List.zip_cons_cons, ih]
      rw [hzip, hzip, mapAllPredicateAttributes_eq_map, List.map_map, List.map_map, List.map_map]
      exact List.map_congr_left fun e he => negatedTruth_map (hargs e he)
  | predicate l r op =>
    have hl := sameMeaning_mapExpressionAttributes (I := I) (e := l)
      (fun x hx => h x (List.mem_append_left _ hx))
      (hset.mono f fun x hx => List.mem_append_left _ hx)
    have hr := sameMeaning_mapExpressionAttributes (I := I) (e := r)
      (fun x hx => h x (List.mem_append_right _ hx))
      (hset.mono f fun x hx => List.mem_append_right _ hx)
    refine sameMeaning_of_truth rfl rfl ?_
    simp only [hl.operand, hr.operand]
  | _ => exact sameMeaning_of_settled h hset

end

/-- The marker is an operand of the comparison. -/
def comparesMarker (m : Nat) : Expr → Bool
  | .predicate l r _ => isMarker m l || isMarker m r
  | _ => false

/-- The marker of a subquery is an operand of conjuncts of the condition and stands nowhere else
in it. -/
def ComparesOnly (m : Nat) (p : Expr) : Prop :=
  ∀ e ∈ conjuncts p, comparesMarker m e = true ∨ .marker m ∉ references e

section

variable {m : Nat} {replacement : Expr}

private theorem isMarker_iff {e : Expr} :
    isMarker m e = true ↔ ∃ type, e = .whereSubqueryMarker m type := by
  cases e <;> simp [isMarker]

private theorem mem_references_of_isMarker {e : Expr} (h : isMarker m e = true) :
    .marker m ∈ references e := by
  obtain ⟨type, rfl⟩ := isMarker_iff.mp h
  exact List.mem_cons_self

private theorem mem_references_of_holdsMarker {e : Expr} (h : holdsMarker m e = true) :
    .marker m ∈ references e := by
  unfold holdsMarker at h
  split at h
  · next args =>
    obtain ⟨e, he, hm⟩ := List.any_eq_true.mp h
    exact mem_allReferences he (mem_references_of_isMarker hm)
  · exact mem_references_of_isMarker h

private theorem exists_of_replaceFirst {p : Expr → Bool} {es es' : List Expr}
    (h : replaceFirst p replacement es = some es') : ∃ e ∈ es, p e = true := by
  induction es generalizing es' with
  | nil => cases h
  | cons e es ih =>
    rw [replaceFirst] at h
    split at h
    · next hp => exact ⟨e, List.mem_cons_self, hp⟩
    · obtain ⟨es'', hes, -⟩ := Option.map_eq_some_iff.mp h
      obtain ⟨e', he', hp⟩ := ih hes
      exact ⟨e', List.mem_cons_of_mem e he', hp⟩

/-- The replacement is made in one of the arguments. -/
private theorem exists_of_replaceInArgs {es es' : List Expr}
    (h : replaceInArgs m replacement es = some (some es')) :
    ∃ before e e' after, es = before ++ e :: after ∧ es' = before ++ e' :: after ∧
      replaceInPredicate m replacement e = some (some e') := by
  induction es generalizing es' with
  | nil => cases h
  | cons e es ih =>
    rw [replaceInArgs] at h
    obtain ⟨o, ho, h⟩ := Option.bind_eq_some_iff.mp h
    cases o with
    | some e' =>
      cases h
      exact ⟨[], e, e', es, rfl, rfl, ho⟩
    | none =>
      obtain ⟨o', ho', h⟩ := Option.map_eq_some_iff.mp h
      cases o' with
      | none => cases h
      | some es'' =>
        cases h
        obtain ⟨before, x, x', after, rfl, rfl, hx⟩ := ih ho'
        exact ⟨e :: before, x, x', after, rfl, rfl, hx⟩

/-- A marker that is replaced stands in the expression. -/
private theorem mem_references_of_replaced {e e' : Expr}
    (h : replaceInPredicate m replacement e = some (some e')) : .marker m ∈ references e := by
  induction e using Expr.ind generalizing e' with
  | nullptr => cases h
  | boolPredicate op args ih =>
    rw [replaceInPredicate] at h
    split at h
    · next args' hargs =>
      obtain ⟨e, he, hm⟩ := exists_of_replaceFirst hargs
      exact mem_allReferences he (mem_references_of_holdsMarker hm)
    · obtain ⟨o, ho, h⟩ := Option.map_eq_some_iff.mp h
      cases o with
      | none => cases h
      | some args' =>
        obtain ⟨before, x, x', after, rfl, -, hx⟩ := exists_of_replaceInArgs ho
        have hmem : x ∈ before ++ x :: after := List.mem_append_right _ List.mem_cons_self
        exact mem_allReferences hmem (ih x hmem hx)
  | predicate l r op ihl ihr =>
    rw [references, List.mem_append]
    rw [replaceInPredicate] at h
    split at h
    · cases h
    · split at h
      · next hl => exact .inl (mem_references_of_isMarker hl)
      · split at h
        · cases h
        · split at h
          · next hr => exact .inr (mem_references_of_isMarker hr)
          · obtain ⟨o, ho, h⟩ := Option.bind_eq_some_iff.mp h
            cases o with
            | some l' => exact .inl (ihl ho)
            | none =>
              obtain ⟨o', ho', h⟩ := Option.map_eq_some_iff.mp h
              cases o' with
              | none => cases h
              | some r' => exact .inr (ihr ho')
  | _ => cases h

/-- A comparison with the marker after the replacement. -/
private theorem replaced_of_comparesMarker {e e' : Expr} (he : comparesMarker m e = true)
    (h : replaceInPredicate m replacement e = some (some e')) :
    ∃ type x op, (e = .predicate (.whereSubqueryMarker m type) x op ∧
        e' = .predicate replacement x op) ∨
      e = .predicate x (.whereSubqueryMarker m type) op ∧ e' = .predicate x replacement op := by
  cases e with
  | predicate l r op =>
    rw [comparesMarker, Bool.or_eq_true] at he
    rw [replaceInPredicate, Option.ite_none_left_eq_some] at h
    obtain ⟨-, h⟩ := h
    by_cases hl : isMarker m l = true
    · rw [if_pos hl] at h
      cases h
      obtain ⟨type, rfl⟩ := isMarker_iff.mp hl
      exact ⟨type, r, op, .inl ⟨rfl, rfl⟩⟩
    · have hr := he.resolve_left hl
      rw [if_neg hl, Option.ite_none_left_eq_some] at h
      obtain ⟨-, h⟩ := h
      rw [if_pos hr] at h
      cases h
      obtain ⟨type, rfl⟩ := isMarker_iff.mp hr
      exact ⟨type, l, op, .inr ⟨rfl, rfl⟩⟩
  | _ => cases he

/-- The condition of a Selection after the replacement: one conjunct has changed. -/
theorem exists_conjunct_of_replaced {p p' : Expr} (hp : ComparesOnly m p)
    (h : replaceInSelection m replacement p = some (some p')) :
    ∃ before e e' after, conjuncts p = before ++ e :: after ∧
      conjuncts p' = before ++ e' :: after ∧ comparesMarker m e = true ∧
      replaceInPredicate m replacement e = some (some e') ∧
      (p' = .boolPredicate .and (before ++ e' :: after) ∨ p' = e') := by
  have hmarker : ¬ isMarker m p = true := by
    intro hm
    obtain ⟨type, rfl⟩ := isMarker_iff.mp hm
    rcases hp _ (List.mem_singleton_self _) with h | h
    · cases h
    · exact h List.mem_cons_self
  rw [replaceInSelection, if_neg hmarker] at h
  -- a condition that is no AND is its only conjunct
  have hone (hconj : conjuncts p = [p]) : ∃ before e e' after, conjuncts p = before ++ e :: after ∧
      conjuncts p' = before ++ e' :: after ∧ comparesMarker m e = true ∧
      replaceInPredicate m replacement e = some (some e') ∧
      (p' = .boolPredicate .and (before ++ e' :: after) ∨ p' = e') := by
    have hcompares : comparesMarker m p = true :=
      (hp p (by rw [hconj]; exact List.mem_singleton_self p)).resolve_right fun hnot =>
        hnot (mem_references_of_replaced h)
    refine ⟨[], p, p', [], hconj, ?_, hcompares, h, .inr rfl⟩
    obtain ⟨type, x, op, ⟨-, rfl⟩ | ⟨-, rfl⟩⟩ := replaced_of_comparesMarker hcompares h <;> rfl
  cases p with
  | boolPredicate op args =>
    cases op with
    | and =>
      have hnone : replaceFirst (holdsMarker m) replacement args = none := by
        rw [Option.eq_none_iff_forall_not_mem]
        intro args' hargs
        obtain ⟨e, he, hm⟩ := exists_of_replaceFirst hargs
        rcases hp e he with hcompares | hnot
        · cases e <;> first | cases hcompares | cases hm
        · exact hnot (mem_references_of_holdsMarker hm)
      rw [replaceInPredicate, hnone] at h
      obtain ⟨o, ho, h⟩ := Option.map_eq_some_iff.mp h
      cases o with
      | none => cases h
      | some args' =>
        cases h
        obtain ⟨before, e, e', after, rfl, rfl, he⟩ := exists_of_replaceInArgs ho
        have hmem : e ∈ before ++ e :: after := List.mem_append_right _ List.mem_cons_self
        have hcompares := (hp e hmem).resolve_right fun hnot => hnot (mem_references_of_replaced he)
        exact ⟨before, e, e', after, rfl, rfl, hcompares, he, .inl rfl⟩
    | _ => exact hone rfl
  | _ => exact hone rfl

/-- What a condition refers to is in one of its conjuncts. -/
theorem mem_references_iff {p : Expr} {q : Reference} :
    q ∈ references p ↔ ∃ e ∈ conjuncts p, q ∈ references e := by
  have hone : q ∈ references p ↔ ∃ e ∈ [p], q ∈ references e := by simp
  cases p with
  | boolPredicate op args =>
    cases op with
    | and => rw [references, allReferences_eq_flatMap, List.mem_flatMap, conjuncts]
    | _ => exact hone
  | _ => exact hone

/-- Conditions can be added to the condition. -/
theorem absorbs_replaced {p p' : Expr} (hp : ComparesOnly m p)
    (h : replaceInSelection m replacement p = some (some p')) : absorbs p' = true := by
  obtain ⟨before, e, e', after, -, -, hcompares, he, hp' | hp'⟩ := exists_conjunct_of_replaced hp h
  · rw [hp']
    rfl
  · obtain ⟨type, x, op, ⟨-, heq⟩ | ⟨-, heq⟩⟩ := replaced_of_comparesMarker hcompares he <;>
      rw [hp', heq] <;> rfl

/-- The condition refers to nothing new but the replacement. -/
theorem mem_references_replaced {p p' : Expr} (hp : ComparesOnly m p)
    (h : replaceInSelection m replacement p = some (some p')) {q : Reference}
    (hq : q ∈ references p') : q ∈ references p ∨ q ∈ references replacement := by
  obtain ⟨before, e, e', after, hconj, hconj', hcompares, he, -⟩ := exists_conjunct_of_replaced hp h
  obtain ⟨x, hx, hqx⟩ := mem_references_iff.mp hq
  rw [hconj', List.mem_append, List.mem_cons] at hx
  have hkept (hx : x ∈ conjuncts p) : q ∈ references p ∨ q ∈ references replacement :=
    .inl (mem_references_iff.mpr ⟨x, hx, hqx⟩)
  rw [hconj, List.mem_append, List.mem_cons] at hkept
  rcases hx with hx | hx | hx
  · exact hkept (.inl hx)
  · have hold {y : Expr} (hy : y = e) (hqy : q ∈ references y) :
        q ∈ references p ∨ q ∈ references replacement := by
      refine .inl (mem_references_iff.mpr ⟨y, ?_, hqy⟩)
      rw [hconj, hy]
      exact List.mem_append_right _ List.mem_cons_self
    rw [hx] at hqx
    obtain ⟨type, y, op, ⟨heq, heq'⟩ | ⟨heq, heq'⟩⟩ := replaced_of_comparesMarker hcompares he
    · rw [heq', references, List.mem_append] at hqx
      exact hqx.elim .inr fun hqy => hold heq.symm (List.mem_append_right _ hqy)
    · rw [heq', references, List.mem_append] at hqx
      exact hqx.elim (fun hqy => hold heq.symm (List.mem_append_left _ hqy)) .inr
  · exact hkept (.inr (.inr hx))

end

section

variable {V : Type} [DecidableEq V] {I : Interpretation V} {m : Nat}

/-- A condition is true when its conjuncts are. -/
theorem truth_eq_tt_iff (c : Context V) (p : Expr) :
    truth I c p = .tt ↔ ∀ e ∈ conjuncts p, truth I c e = .tt := by
  cases p with
  | boolPredicate op args =>
    cases op with
    | and => simp [truth_and, Truth.conj_eq_tt, conjuncts]
    | _ => simp [conjuncts]
  | _ => simp [conjuncts]

private theorem truth_predicate (c : Context V) (l r : Expr) (op : String) :
    truth I c (.predicate l r op) =
      I.compare op ((meaning I l).operand c) ((meaning I r).operand c) := rfl

/-- A comparison with NULL is not true. -/
def StrictComparisons (I : Interpretation V) : Prop :=
  ∀ op vs, I.compare op [none] vs ≠ .tt ∧ I.compare op vs [none] ≠ .tt

/-- A condition that compares a subquery is not true when the subquery gives NULL. -/
theorem truth_ne_tt_of_null (hI : StrictComparisons I) {p : Expr}
    (hp : ∃ e ∈ conjuncts p, comparesMarker m e = true) {c : Context V}
    (hnull : (lookup c.scope (.marker m)).1 = none) : truth I c p ≠ .tt := by
  obtain ⟨e, he, hcompares⟩ := hp
  intro htruth
  have htrue := (truth_eq_tt_iff c p).mp htruth e he
  have hoperand (type : JoinType) :
      (meaning I (.whereSubqueryMarker m type)).operand c = [none] := by
    cases type <;> simp only [meaning, hnull]
  cases e with
  | predicate l r op =>
    rw [truth_predicate] at htrue
    rw [comparesMarker, Bool.or_eq_true] at hcompares
    rcases hcompares with hl | hr
    · obtain ⟨type, rfl⟩ := isMarker_iff.mp hl
      rw [hoperand] at htrue
      exact (hI op _).1 htrue
    · obtain ⟨type, rfl⟩ := isMarker_iff.mp hr
      rw [hoperand] at htrue
      exact (hI op _).2 htrue
  | _ => cases hcompares

/-- With a column that has the value of the subquery in the place of the marker a condition is as
true as before. -/
theorem truth_replaced {p p' : Expr} {n a : String} (hp : ComparesOnly m p)
    (h : replaceInSelection m (.attribute n a) p = some (some p'))
    (hnew : .column n a ∉ references p) {s s' : Row V}
    (hvalue : (lookup s' (.column n a)).1 = (lookup s (.marker m)).1)
    (hrest : ∀ q ∈ references p', q ≠ .column n a → lookup s' q = lookup s q) :
    truth I ⟨s', []⟩ p' = .tt ↔ truth I ⟨s, []⟩ p = .tt := by
  obtain ⟨before, e, e', after, hconj, hconj', hcompares, he, -⟩ := exists_conjunct_of_replaced hp h
  have hsub (p : Expr) {x : Expr} (hx : x ∈ conjuncts p) : ∀ q ∈ references x, q ∈ references p :=
    fun q hq => mem_references_iff.mpr ⟨x, hx, hq⟩
  -- an expression that both conditions contain
  have hsame {x : Expr} (hx : ∀ q ∈ references x, q ∈ references p)
      (hx' : ∀ q ∈ references x, q ∈ references p') :
      ContextAgree (references x) (⟨s', []⟩ : Context V) ⟨s, []⟩ :=
    ⟨fun q hq => hrest q (hx' q hq) fun heq => hnew (heq ▸ hx q hq), .nil⟩
  have hother {x : Expr} (hx : x ∈ before ++ after) :
      truth I ⟨s', []⟩ x = truth I ⟨s, []⟩ x := by
    have hmem {y : Expr} : x ∈ before ++ y :: after := by
      rw [List.mem_append, List.mem_cons] at *
      tauto
    exact (determined I x).truth (hsame (hsub p (hconj ▸ hmem)) (hsub p' (hconj' ▸ hmem)))
  have hchanged : truth I ⟨s', []⟩ e' = truth I ⟨s, []⟩ e := by
    have hmem {y : Expr} : y ∈ before ++ y :: after := List.mem_append_right _ List.mem_cons_self
    have hrefs := hsub p (hconj ▸ hmem (y := e))
    have hrefs' := hsub p' (hconj' ▸ hmem (y := e'))
    have hoperand (type : JoinType) : (meaning I (.attribute n a)).operand ⟨s', []⟩ =
        (meaning I (.whereSubqueryMarker m type)).operand ⟨s, []⟩ := by
      cases type <;> simp only [meaning, Meaning.ofValue, hvalue]
    have hkept {x : Expr} (hx : ∀ q ∈ references x, q ∈ references e)
        (hx' : ∀ q ∈ references x, q ∈ references e') :
        (meaning I x).operand ⟨s', []⟩ = (meaning I x).operand ⟨s, []⟩ :=
      (determined I x).operand
        (hsame (fun q hq => hrefs q (hx q hq)) fun q hq => hrefs' q (hx' q hq))
    obtain ⟨type, x, op, ⟨rfl, rfl⟩ | ⟨rfl, rfl⟩⟩ := replaced_of_comparesMarker hcompares he
    · have hx := hkept (x := x) (fun q hq => List.mem_append_right _ hq)
        fun q hq => List.mem_append_right _ hq
      rw [truth_predicate, truth_predicate, hx, hoperand type]
    · have hx := hkept (x := x) (fun q hq => List.mem_append_left _ hq)
        fun q hq => List.mem_append_left _ hq
      rw [truth_predicate, truth_predicate, hx, hoperand type]
  rw [truth_eq_tt_iff, truth_eq_tt_iff, hconj, hconj']
  simp only [List.forall_mem_append, List.forall_mem_cons, hchanged]
  have hbefore : (∀ x ∈ before, truth I ⟨s', []⟩ x = .tt) ↔ ∀ x ∈ before, truth I ⟨s, []⟩ x = .tt :=
    forall₂_congr fun x hx => by rw [hother (List.mem_append_left _ hx)]
  have hafter : (∀ x ∈ after, truth I ⟨s', []⟩ x = .tt) ↔ ∀ x ∈ after, truth I ⟨s, []⟩ x = .tt :=
    forall₂_congr fun x hx => by rw [hother (List.mem_append_right _ hx)]
  rw [hbefore, hafter]

end

/-- The comparison of an attribute with itself. -/
def selfComparison (b : AttributeRef) : Expr :=
  .predicate (.attribute b.1 b.2) (.attribute b.1 b.2) "="

/-- One of the attributes is compared with itself. -/
def comparesSelf (bs : List AttributeRef) : Expr → Bool
  | .predicate (.attribute l la) (.attribute r ra) op =>
      l = r && la = ra && (bs.any fun b => l = b.1 && la = b.2) && op = "="
  | _ => false

mutual

/-- `remove_redundant_predicates` takes nothing away from the predicate. -/
def isUntouched : Expr → Bool
  | .nullptr => false
  | .boolPredicate _ args => 2 ≤ args.length && areUntouched args
  | .predicate .nullptr _ _ => false
  | .predicate (.attribute _ _) .nullptr _ => false
  | .predicate (.attribute l la) (.attribute r ra) _ => !(l = r && la = ra)
  | _ => true

def areUntouched : List Expr → Bool
  | [] => true
  | e :: es => isUntouched e && areUntouched es

end

/-- Of the conjuncts only comparisons of these attributes with themselves are removed, and nothing is
removed inside the others. -/
def LosesOnly (bs : List AttributeRef) (p : Expr) : Prop :=
  ∀ e ∈ conjuncts p, comparesSelf bs e = true ∨ isUntouched e = true

instance (bs : List AttributeRef) (p : Expr) : Decidable (LosesOnly bs p) :=
  inferInstanceAs (Decidable (∀ e ∈ conjuncts p, comparesSelf bs e = true ∨ isUntouched e = true))

/-- What is left of the condition. -/
def reduced : Expr → Expr
  | .boolPredicate .and args => if kept args = [] then .nullptr else .boolPredicate .and (kept args)
  | e => if vanishes e = true then .nullptr else e

section

variable {bs : List AttributeRef} {p : Expr}

private theorem exists_selfComparison {e : Expr} (h : comparesSelf bs e = true) :
    ∃ b ∈ bs, e = selfComparison b := by
  unfold comparesSelf at h
  split at h
  · next l la r ra op =>
    simp only [Bool.and_eq_true, decide_eq_true_eq] at h
    obtain ⟨⟨⟨hname, halias⟩, hany⟩, hop⟩ := h
    obtain ⟨b, hb, hsame⟩ := List.any_eq_true.mp hany
    rw [Bool.and_eq_true, decide_eq_true_eq, decide_eq_true_eq] at hsame
    exact ⟨b, hb, by rw [selfComparison, ← hname, ← halias, hop, hsame.1, hsame.2]⟩
  · cases h

private theorem vanishes_selfComparison (b : AttributeRef) :
    vanishes (selfComparison b) = true := by
  simp [selfComparison, vanishes]

/-- The pass over a predicate that it does not touch. -/
theorem removeRedundantPredicates_untouched {e : Expr} (h : isUntouched e = true) :
    e.isPresent = true ∧ removeRedundantPredicates e = some ⟨e, none⟩ := by
  induction e using Expr.ind with
  | nullptr => cases h
  | boolPredicate op args ih =>
    rw [isUntouched, Bool.and_eq_true, decide_eq_true_eq] at h
    obtain ⟨htwo, hall⟩ := h
    have hargs : removeAllRedundantPredicates args = some (args.map fun e => ⟨e, none⟩) ∧
        args.filter Expr.isPresent = args := by
      clear htwo
      induction args with
      | nil => exact ⟨rfl, rfl⟩
      | cons e es ihes =>
        rw [areUntouched, Bool.and_eq_true] at hall
        rw [List.forall_mem_cons] at ih
        obtain ⟨hpresent, he⟩ := ih.1 hall.1
        obtain ⟨hes, hfilter⟩ := ihes ih.2 hall.2
        rw [removeAllRedundantPredicates, he, hes, List.filter_cons_of_pos hpresent, hfilter]
        exact ⟨rfl, rfl⟩
    have hremaining : remaining (args.map fun e => (⟨e, none⟩ : Remainder)) = args := by
      rw [remaining, List.map_map]
      exact (congrArg _ (List.map_id args)).trans hargs.2
    refine ⟨rfl, ?_⟩
    rw [removeRedundantPredicates, hargs.1, Option.map_some]
    obtain ⟨hnil, -⟩ | ⟨x, hx, -⟩ | ⟨-, heq⟩ :=
      remainderOfArgs_cases op (args.map fun e => (⟨e, none⟩ : Remainder))
    · rw [hremaining] at hnil
      simp [hnil] at htwo
    · rw [hremaining] at hx
      simp [hx] at htwo
    · rw [heq, hremaining]
      simp [overwritten, List.filterMap_map]
  | predicate l r op =>
    cases l with
    | nullptr => cases h
    | «attribute» n a =>
      cases r with
      | nullptr => cases h
      | «attribute» n' a' =>
        refine ⟨rfl, ?_⟩
        rw [isUntouched, Bool.not_eq_true'] at h
        rw [removeRedundantPredicates, if_neg (by simpa using h)]
      | _ => exact ⟨rfl, rfl⟩
    | _ => exact ⟨rfl, rfl⟩
  | _ => exact ⟨rfl, rfl⟩

private theorem vanishes_untouched {e : Expr} (h : isUntouched e = true) : vanishes e = false := by
  obtain ⟨hpresent, hrun⟩ := removeRedundantPredicates_untouched h
  have htraced := (removeRedundantPredicates_traced hrun).present
  rw [hpresent, eq_comm, Bool.not_eq_true'] at htraced
  exact htraced

/-- A conjunct that is removed compares an attribute with itself. -/
theorem LosesOnly.vanishing (h : LosesOnly bs p) {e : Expr} (he : e ∈ conjuncts p)
    (hv : vanishes e = true) : ∃ b ∈ bs, e = selfComparison b := by
  refine exists_selfComparison ((h e he).resolve_right fun huntouched => ?_)
  rw [vanishes_untouched huntouched] at hv
  cases hv

/-- The others stay as they are. -/
theorem LosesOnly.kept (h : LosesOnly bs p) {e : Expr} (he : e ∈ conjuncts p)
    (hv : vanishes e = false) : isUntouched e = true := by
  refine (h e he).resolve_left fun hself => ?_
  obtain ⟨b, -, rfl⟩ := exists_selfComparison hself
  rw [vanishes_selfComparison] at hv
  cases hv

private theorem removeRedundantPredicates_conjunct (h : LosesOnly bs p) {e : Expr}
    (he : e ∈ conjuncts p) :
    removeRedundantPredicates e = some ⟨if vanishes e = true then .nullptr else e, none⟩ := by
  cases hv : vanishes e with
  | false => exact (removeRedundantPredicates_untouched (h.kept he hv)).2
  | true =>
    obtain ⟨b, -, rfl⟩ := h.vanishing he hv
    simp [selfComparison, removeRedundantPredicates]

private theorem isPresent_of_kept (h : LosesOnly bs p) {e : Expr} (he : e ∈ kept (conjuncts p)) :
    e.isPresent = true := by
  obtain ⟨hmem, hv⟩ := List.mem_filter.mp he
  rw [Bool.not_eq_true'] at hv
  exact (removeRedundantPredicates_untouched (h.kept hmem hv)).1

/-- The results of the pass over the arguments. -/
private def results (args : List Expr) : List Remainder :=
  args.map fun e => ⟨if vanishes e = true then .nullptr else e, none⟩

private theorem removeAll_results {args : List Expr} (h : LosesOnly bs (.boolPredicate .and args)) :
    removeAllRedundantPredicates args = some (results args) := by
  have hargs : ∀ e ∈ args, removeRedundantPredicates e =
      some ⟨if vanishes e = true then .nullptr else e, none⟩ :=
    fun e he => removeRedundantPredicates_conjunct h he
  clear h
  induction args with
  | nil => rfl
  | cons e es ih =>
    rw [List.forall_mem_cons] at hargs
    rw [removeAllRedundantPredicates, hargs.1, ih hargs.2]
    rfl

private theorem remaining_results {args : List Expr} (h : LosesOnly bs (.boolPredicate .and args)) :
    remaining (results args) = kept args := by
  have hpresent : ∀ e ∈ args, vanishes e = false → e.isPresent = true := fun e he hv =>
    isPresent_of_kept h (List.mem_filter.mpr ⟨he, by rw [hv]; rfl⟩)
  clear h
  induction args with
  | nil => rfl
  | cons e es ih =>
    rw [List.forall_mem_cons] at hpresent
    have hrest := ih hpresent.2
    rw [remaining, results] at hrest ⊢
    rw [List.map_cons, List.map_cons, List.filter_cons, hrest]
    cases hv : vanishes e with
    | true => simp [kept, hv, Expr.isPresent]
    | false => simp [kept, hv, hpresent.1 hv]

private theorem overwritten_results (args : List Expr) (e : Expr) :
    overwritten (results args) e = e := by
  simp [overwritten, results, List.filterMap_map]

/-- A condition that is no conjunction is its only conjunct. -/
private theorem conjunction_or_single (p : Expr) :
    (∃ args, p = .boolPredicate .and args) ∨
      conjuncts p = [p] ∧ reduced p = if vanishes p = true then .nullptr else p := by
  cases p with
  | boolPredicate op args =>
    cases op with
    | and => exact .inl ⟨args, rfl⟩
    | _ => exact .inr ⟨rfl, rfl⟩
  | _ => exact .inr ⟨rfl, rfl⟩

/-- What `remove_redundant_predicates` makes of the condition. -/
theorem removeRedundantPredicates_reduced (h : LosesOnly bs p) :
    ∃ parent, removeRedundantPredicates p = some ⟨reduced p, parent⟩ := by
  obtain ⟨args, hp⟩ | ⟨hconj, hreduced⟩ := conjunction_or_single p
  · subst hp
    have hremaining := remaining_results h
    rw [removeRedundantPredicates, removeAll_results h, Option.map_some]
    obtain ⟨hnil, heq⟩ | ⟨x, hx, heq⟩ | ⟨htwo, heq⟩ := remainderOfArgs_cases .and (results args)
    · rw [hremaining] at hnil
      refine ⟨none, ?_⟩
      rw [heq, reduced, if_pos hnil]
    · rw [hremaining] at hx
      refine ⟨some x, ?_⟩
      rw [heq, overwritten_results, reduced, if_neg (by simp [hx]), hx]
    · rw [hremaining] at htwo heq
      refine ⟨none, ?_⟩
      have hne : kept args ≠ [] := by
        rintro hnil
        rw [hnil] at htwo
        cases htwo
      rw [heq, overwritten_results, reduced, if_neg hne]
  · refine ⟨none, ?_⟩
    rw [removeRedundantPredicates_conjunct h (by rw [hconj]; exact List.mem_singleton_self p),
      hreduced]

/-- Something is left when one of the conjuncts is left. -/
theorem isPresent_reduced (h : LosesOnly bs p) :
    (reduced p).isPresent = true ↔ kept (conjuncts p) ≠ [] := by
  obtain ⟨args, hp⟩ | ⟨hconj, hreduced⟩ := conjunction_or_single p
  · subst hp
    rw [reduced]
    split
    · next hnil => simp [conjuncts, hnil, Expr.isPresent]
    · next hne => exact iff_of_true rfl hne
  · rw [hconj, hreduced]
    cases hv : vanishes p with
    | true => simp [kept, hv, Expr.isPresent]
    | false =>
      have hmem : p ∈ kept (conjuncts p) := by simp [hconj, kept, hv]
      simp [kept, hv, isPresent_of_kept h hmem]

/-- Nothing is lost when no attribute may be compared with itself. -/
theorem kept_conjuncts (h : LosesOnly [] p) : kept (conjuncts p) = conjuncts p := by
  refine List.filter_eq_self.mpr fun e he => ?_
  cases hv : vanishes e with
  | false => rfl
  | true =>
    obtain ⟨b, hb, -⟩ := h.vanishing he hv
    cases hb

theorem reduced_eq_self (h : LosesOnly [] p) (hne : conjuncts p ≠ []) : reduced p = p := by
  have hkept := kept_conjuncts h
  obtain ⟨args, hp⟩ | ⟨hconj, hreduced⟩ := conjunction_or_single p
  · subst hp
    rw [reduced, show kept args = args from hkept]
    exact if_neg hne
  · rw [hreduced]
    refine if_neg fun hv => ?_
    simp [hconj, kept, hv] at hkept

/-- What is left of the condition is as true as the condition when the attributes equal
themselves. -/
theorem truth_reduced {V : Type} [DecidableEq V] {I : Interpretation V} (h : LosesOnly bs p)
    {c : Context V} (hself : ∀ b ∈ bs, truth I c (selfComparison b) = .tt) :
    truth I c (reduced p) = .tt ↔ truth I c p = .tt := by
  have hlost {e : Expr} (he : e ∈ conjuncts p) (hv : vanishes e = true) : truth I c e = .tt := by
    obtain ⟨b, hb, rfl⟩ := h.vanishing he hv
    exact hself b hb
  obtain ⟨args, hp⟩ | ⟨hconj, hreduced⟩ := conjunction_or_single p
  · subst hp
    have hkept : (∀ e ∈ kept args, truth I c e = .tt) ↔ ∀ e ∈ args, truth I c e = .tt := by
      refine ⟨fun hall e he => ?_, fun hall e he => hall e (List.mem_filter.mp he).1⟩
      cases hv : vanishes e with
      | false => exact hall e (List.mem_filter.mpr ⟨he, by rw [hv]; rfl⟩)
      | true => exact hlost he hv
    have hargs : truth I c (.boolPredicate .and args) = .tt ↔ ∀ e ∈ args, truth I c e = .tt :=
      truth_eq_tt_iff c _
    rw [hargs, ← hkept, reduced]
    split
    · next hnil =>
      rw [hnil]
      exact iff_of_true rfl (by simp)
    · exact truth_eq_tt_iff c _
  · rw [hreduced]
    cases hv : vanishes p with
    | true =>
      rw [if_pos rfl]
      exact iff_of_true rfl (hlost (by rw [hconj]; exact List.mem_singleton_self p) hv)
    | false => rw [if_neg Bool.false_ne_true]

end

end SqlOptimizer.Unnesting.ChangedConditions
