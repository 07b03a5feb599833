import SqlOptimizer.Semantics.Evaluation
import Mathlib.Data.List.Forall2

/-!
What expressions read. An expression has the same value on two rows that give the same
for every reference in it; a binding that offers none of them can be left out.
-/

set_option autoImplicit false
set_option relaxedAutoImplicit false

namespace SqlOptimizer.Semantics.References

open Algebra.RelationalAlgebra
open Logic.NestedLoops Logic.ThreeValued
open Evaluation

mutual

/-- The attributes and markers that occur in an expression. -/
def references : Expr → List Reference
  | .nullptr => []
  | .constant _ _ => []
  | .attribute name aliasName => [.column name aliasName]
  | .funcCall _ args _ _ => allReferences args
  | .typeCast _ _ e => references e
  | .selectExpression e _ => references e
  | .expression l r _ => references l ++ references r
  | .list args => allReferences args
  | .inList args => allReferences args
  | .caseExpr whens elseDefault => allReferences whens ++ references elseDefault
  | .caseWhen w t => references w ++ references t
  | .boolPredicate _ args => allReferences args
  | .predicate l r _ => references l ++ references r
  | .nullTest e _ => references e
  | .whereSubqueryMarker m _ => [.marker m]

def allReferences : List Expr → List Reference
  | [] => []
  | e :: es => references e ++ allReferences es

end

theorem allReferences_eq_flatMap (es : List Expr) : allReferences es = es.flatMap references := by
  induction es with
  | nil => rfl
  | cons e es ih => rw [allReferences, ih, List.flatMap_cons]

variable {V : Type}

/-- The two rows give the same for the references. -/
def Agree (rs : List Reference) (s s' : Row V) : Prop := ∀ r ∈ rs, lookup s r = lookup s' r

theorem Agree.mono {rs rs' : List Reference} {s s' : Row V} (h : Agree rs s s')
    (hsub : ∀ r ∈ rs', r ∈ rs) : Agree rs' s s' :=
  fun r hr => h r (hsub r hr)

/-- The rows and the members of their groups give the same for the references. -/
structure ContextAgree (rs : List Reference) (c c' : Context V) : Prop where
  scope : Agree rs c.scope c'.scope
  members : List.Forall₂ (Agree rs) c.members c'.members

theorem ContextAgree.mono {rs rs' : List Reference} {c c' : Context V} (h : ContextAgree rs c c')
    (hsub : ∀ r ∈ rs', r ∈ rs) : ContextAgree rs' c c' :=
  ⟨h.scope.mono hsub, h.members.imp fun _ _ h => h.mono hsub⟩

section

variable [DecidableEq V] (I : Interpretation V)

/-- Two contexts that agree on the references give the meaning the same results. -/
structure Determined (m : Meaning V) (rs : List Reference) : Prop where
  value : ∀ {c c' : Context V}, ContextAgree rs c c' → m.value c = m.value c'
  truth : ∀ {c c' : Context V}, ContextAgree rs c c' → m.truth c = m.truth c'
  operand : ∀ {c c' : Context V}, ContextAgree rs c c' → m.operand c = m.operand c'

omit [DecidableEq V] in
private theorem determined_ofValue {v : Context V → Option V} {rs : List Reference}
    (h : ∀ {c c' : Context V}, ContextAgree rs c c' → v c = v c') :
    Determined (.ofValue I v) rs :=
  ⟨h, fun hc => congrArg I.holds (h hc), fun hc => by simp only [Meaning.ofValue, h hc]⟩

omit [DecidableEq V] in
private theorem determined_ofTruth {t : Context V → Truth} {rs : List Reference}
    (h : ∀ {c c' : Context V}, ContextAgree rs c c' → t c = t c') :
    Determined (.ofTruth t) rs :=
  ⟨fun _ => rfl, h, fun _ => rfl⟩

theorem mem_allReferences {es : List Expr} {e : Expr} (he : e ∈ es) {r : Reference}
    (hr : r ∈ references e) : r ∈ allReferences es := by
  rw [allReferences_eq_flatMap]
  exact List.mem_flatMap.mpr ⟨e, he, hr⟩

/-- A list of results that are each determined. -/
private theorem map_meanings_congr {β : Type} {es : List Expr} {f g : Meaning V → β}
    (h : ∀ e ∈ es, f (meaning I e) = g (meaning I e)) :
    (meanings I es).map f = (meanings I es).map g := by
  rw [meanings_eq_map, List.map_map, List.map_map]
  exact List.map_congr_left h

private theorem map_zip_meanings_congr {β : Type} {es : List Expr} {f g : Expr × Meaning V → β}
    (h : ∀ e ∈ es, f (e, meaning I e) = g (e, meaning I e)) :
    (es.zip (meanings I es)).map f = (es.zip (meanings I es)).map g := by
  have hzip : es.zip (meanings I es) = es.map fun e => (e, meaning I e) := by
    rw [meanings_eq_map]
    induction es with
    | nil => rfl
    | cons e es ih =>
      rw [List.forall_mem_cons] at h
      simp only [List.map_cons, List.zip_cons_cons, ih h.2]
  rw [hzip, List.map_map, List.map_map]
  exact List.map_congr_left h

section

variable {I} {es : List Expr}
  (h : ∀ e ∈ es, Determined (meaning I e) (references e))
include h

private theorem argumentTuple_congr {s s' : Row V} (hs : Agree (allReferences es) s s') :
    argumentTuple (es.zip (meanings I es)) s = argumentTuple (es.zip (meanings I es)) s' := by
  have hall : ∀ a ∈ es.zip (meanings I es), a.2.value ⟨s, []⟩ = a.2.value ⟨s', []⟩ := by
    intro a ha
    have hmem : a.1 ∈ es ∧ a.2 = meaning I a.1 := by
      rw [meanings_eq_map] at ha
      clear hs h
      induction es with
      | nil => cases ha
      | cons e es ih =>
        rw [List.map_cons, List.zip_cons_cons, List.mem_cons] at ha
        rcases ha with rfl | ha
        · exact ⟨List.mem_cons_self, rfl⟩
        · exact ⟨List.mem_cons_of_mem _ (ih ha).1, (ih ha).2⟩
    rw [hmem.2]
    exact (h _ hmem.1).value ⟨hs.mono fun r hr => mem_allReferences hmem.1 hr, .nil⟩
  exact List.map_congr_left fun a ha => hall a (List.mem_filter.mp ha).1

private theorem aggregateValue_congr (f : String) (distinct : Bool) {c c' : Context V}
    (hc : ContextAgree (allReferences es) c c') :
    aggregateValue I f distinct (es.zip (meanings I es)) c =
      aggregateValue I f distinct (es.zip (meanings I es)) c' := by
  have htuples : c.members.map (argumentTuple (es.zip (meanings I es))) =
      c'.members.map (argumentTuple (es.zip (meanings I es))) := by
    have hmem := hc.members
    generalize c.members = ms, c'.members = ms' at hmem
    induction hmem with
    | nil => rfl
    | cons hs _ ih => rw [List.map_cons, List.map_cons, argumentTuple_congr h hs, ih]
  simp only [aggregateValue, htuples]

end

private theorem arms_congr {es : List Expr} {c c' : Context V} (default : Option V)
    (h : ∀ w t, .caseWhen w t ∈ es → (meaning I w).truth c = (meaning I w).truth c' ∧
      (meaning I t).value c = (meaning I t).value c') :
    firstCase c default (arms I es) = firstCase c' default (arms I es) := by
  induction es with
  | nil => rfl
  | cons e es ih =>
    cases e with
    | caseWhen w t =>
      obtain ⟨hw, ht⟩ := h w t List.mem_cons_self
      rw [arms, firstCase, firstCase, hw, ht,
        ih fun w t hmem => h w t (List.mem_cons_of_mem _ hmem)]
    | _ => rfl

/-- A case arm determines its condition and its result. -/
private def ArmDetermined (e : Expr) : Prop :=
  ∀ w t, e = .caseWhen w t →
    Determined (meaning I w) (references w) ∧ Determined (meaning I t) (references t)

private theorem determined_and_arms (e : Expr) :
    Determined (meaning I e) (references e) ∧ ArmDetermined I e := by
  have harm {e : Expr} (hd : Determined (meaning I e) (references e))
      (h : ∀ w t, e ≠ .caseWhen w t) :
      Determined (meaning I e) (references e) ∧ ArmDetermined I e :=
    ⟨hd, fun w t heq => absurd heq (h w t)⟩
  induction e using Expr.ind with
  | nullptr => exact harm (determined_ofTruth fun _ => rfl) nofun
  | constant d t => exact harm (determined_ofValue I fun _ => rfl) nofun
  | attr n a =>
    refine harm (determined_ofValue I fun hc => ?_) nofun
    rw [hc.scope _ (by simp [references])]
  | funcCall f args g d ih =>
    cases g with
    | true =>
      exact harm (determined_ofValue I fun hc =>
        aggregateValue_congr (fun e he => (ih e he).1) f d hc) nofun
    | false =>
      exact harm (determined_ofValue I fun hc => congrArg (I.function f)
        (map_meanings_congr I fun e he => (ih e he).1.value (hc.mono fun r hr =>
          mem_allReferences he hr))) nofun
  | typeCast t m e ih =>
    exact harm (determined_ofValue I fun hc => congrArg (I.cast t m) (ih.1.value hc)) nofun
  | selectExpression e r ih => exact harm (determined_ofValue I fun hc => ih.1.value hc) nofun
  | expression l r op ihl ihr =>
    refine harm (determined_ofValue I fun hc => ?_) nofun
    rw [ihl.1.value (hc.mono fun r hr => List.mem_append_left _ hr),
      ihr.1.value (hc.mono fun r hr => List.mem_append_right _ hr)]
  | list args ih =>
    refine harm ⟨fun _ => rfl, fun _ => rfl, fun hc => ?_⟩ nofun
    exact map_meanings_congr I fun e he => (ih e he).1.value (hc.mono fun r hr =>
      mem_allReferences he hr)
  | inList args ih =>
    refine harm ⟨fun _ => rfl, fun _ => rfl, fun hc => ?_⟩ nofun
    exact map_meanings_congr I fun e he => (ih e he).1.value (hc.mono fun r hr =>
      mem_allReferences he hr)
  | caseExpr whens d ih ihd =>
    refine harm (determined_ofValue I fun hc => ?_) nofun
    rw [ihd.1.value (hc.mono fun r hr => List.mem_append_right _ hr)]
    refine arms_congr I _ fun w t hmem => ?_
    obtain ⟨hw, ht⟩ := (ih _ hmem).2 w t rfl
    have harms := hc.mono fun r hr => List.mem_append_left (references d) (mem_allReferences hmem hr)
    exact ⟨hw.truth (harms.mono fun r hr => List.mem_append_left _ hr),
      ht.value (harms.mono fun r hr => List.mem_append_right _ hr)⟩
  | caseWhen w t ihw iht =>
    refine ⟨determined_ofValue I fun _ => rfl, fun w' t' heq => ?_⟩
    cases heq
    exact ⟨ihw.1, iht.1⟩
  | boolPredicate op args ih =>
    have hargs {c c' : Context V} (hc : ContextAgree (allReferences args) c c') {e : Expr}
        (he : e ∈ args) : (meaning I e).truth c = (meaning I e).truth c' :=
      (ih e he).1.truth (hc.mono fun r hr => mem_allReferences he hr)
    cases op with
    | and =>
      exact harm (determined_ofTruth fun hc =>
        congrArg Truth.conj (map_meanings_congr I fun e he => hargs hc he)) nofun
    | or =>
      exact harm (determined_ofTruth fun hc =>
        congrArg Truth.disj (map_meanings_congr I fun e he => hargs hc he)) nofun
    | not =>
      refine harm (determined_ofTruth fun hc => congrArg Truth.conj
        (map_zip_meanings_congr I fun e he => ?_)) nofun
      have h := hargs hc he
      cases e with
      | whereSubqueryMarker m type => cases type <;> simp only [negatedTruth, h]
      | _ => simp only [negatedTruth, h]
  | predicate l r op ihl ihr =>
    refine harm (determined_ofTruth fun hc => ?_) nofun
    rw [ihl.1.operand (hc.mono fun r hr => List.mem_append_left _ hr),
      ihr.1.operand (hc.mono fun r hr => List.mem_append_right _ hr)]
  | nullTest e t ih =>
    cases t <;> exact harm (determined_ofTruth fun hc => by rw [ih.1.value hc]) nofun
  | whereSubqueryMarker m t =>
    have hread {c c' : Context V} (hc : ContextAgree [.marker m] c c') :
        lookup c.scope (.marker m) = lookup c'.scope (.marker m) := hc.scope _ List.mem_cons_self
    refine harm ?_ nofun
    cases t <;> exact ⟨fun hc => by simp only [meaning, hread hc],
      fun hc => by simp only [meaning, hread hc], fun hc => by simp only [meaning, hread hc]⟩

/-- The value and the truth value of an expression depend on its references only. -/
theorem determined (e : Expr) : Determined (meaning I e) (references e) :=
  (determined_and_arms I e).1

/-- A condition has the same truth value on two rows that agree on its references. -/
theorem truth_congr {e : Expr} {s s' : Row V} (h : Agree (references e) s s') :
    truth I ⟨s, []⟩ e = truth I ⟨s', []⟩ e :=
  (determined I e).truth ⟨h, .nil⟩

end

/-- An attribute has no truth value of its own. -/
theorem lookup_column_snd (scope : Row V) (n a : String) :
    (lookup scope (.column n a)).2 = .unknown := by
  rw [lookup]
  cases h : scope.findSome? (resolve (.column n a)) with
  | none => rfl
  | some v =>
    obtain ⟨b, -, hv⟩ := List.exists_of_findSome?_eq_some h
    cases b with
    | subquery m v h => cases hv
    | source q cs =>
      rw [resolve] at hv
      split at hv
      · obtain ⟨w, -, rfl⟩ := Option.map_eq_some_iff.mp hv
        rfl
      · rw [Option.ite_none_right_eq_some] at hv
        obtain ⟨-, hv⟩ := hv
        cases hv
        rfl

/-- Some binding of the row resolves the reference. -/
def Offers (row : Row V) (r : Reference) : Prop := ∃ b ∈ row, (resolve r b).isSome

theorem offers_append {row row' : Row V} {r : Reference} :
    Offers (row ++ row') r ↔ Offers row r ∨ Offers row' r := by
  simp only [Offers, List.mem_append, or_and_right, exists_or]

theorem lookup_append_left {row s : Row V} {r : Reference} (h : ¬ Offers row r) :
    lookup (row ++ s) r = lookup s r := by
  have hnone : row.findSome? (resolve r) = none := by
    rw [List.findSome?_eq_none_iff]
    intro b hb
    by_contra hsome
    exact h ⟨b, hb, Option.isSome_iff_ne_none.mpr hsome⟩
  rw [lookup, List.findSome?_append, hnone, Option.none_or, lookup]

theorem lookup_append_congr {row s s' : Row V} {r : Reference} (h : lookup s r = lookup s' r) :
    lookup (row ++ s) r = lookup (row ++ s') r := by
  simp only [lookup, List.findSome?_append] at h ⊢
  cases row.findSome? (resolve r) with
  | none => simpa using h
  | some v => rfl

/-- The rows on both sides of a segment do not matter for references that they do not
offer. -/
theorem agree_segment {before row after env : Row V} {rs : List Reference}
    (hbefore : ∀ r ∈ rs, ¬ Offers before r) (hafter : ∀ r ∈ rs, ¬ Offers after r) :
    Agree rs (before ++ row ++ after ++ env) (row ++ env) := by
  intro r hr
  rw [List.append_assoc, List.append_assoc, lookup_append_left (hbefore r hr)]
  exact lookup_append_congr (lookup_append_left (hafter r hr))

/-- A binding without its values. -/
def erase : Binding V → Binding V
  | .source q cs => .source q (cs.map fun c => (c.1, none))
  | .subquery m _ _ => .subquery m none .unknown

theorem offers_erase {row : Row V} {r : Reference} : Offers (row.map erase) r ↔ Offers row r := by
  have hone (b : Binding V) : (resolve r (erase b)).isSome = (resolve r b).isSome := by
    cases r with
    | column name a =>
      cases b with
      | source q cs =>
        have hlookup : (List.lookup name (cs.map fun c => (c.1, (none : Option V)))).isSome =
            (cs.lookup name).isSome := by
          induction cs with
          | nil => rfl
          | cons c cs ih =>
            obtain ⟨k, v⟩ := c
            simp only [List.map_cons, List.lookup_cons]
            cases name == k with
            | true => rfl
            | false => exact ih
        simp only [erase, resolve]
        split
        · simpa using hlookup
        · split <;> rfl
      | subquery m v h => rfl
    | marker m =>
      cases b with
      | source q cs => rfl
      | subquery m' v h =>
        simp only [erase, resolve]
        split <;> rfl
  simp only [Offers, List.mem_map, exists_exists_and_eq_and, hone]

end SqlOptimizer.Semantics.References
