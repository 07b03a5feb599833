import SqlOptimizer.Tree.OuterJoins
import SqlOptimizer.Unnesting.Decouple

/-!
What the removal of comparisons of an attribute with itself does to the truth of a condition.
A predicate with one argument left is stored in the pointer to the predicate around it, so it
takes the place of all the arguments there.
-/

set_option autoImplicit false
set_option relaxedAutoImplicit false

namespace SqlOptimizer.Unnesting.RedundantPredicates

open Algebra.RelationalAlgebra
open Tree.Frames Tree.Walks
open Tree.OuterJoins (equality)
open Tree.PushDownMeaning (truth_and)
open Logic.ThreeValued
open Semantics.Evaluation Semantics.References
open Objects Attributes Markers Decouple

mutual

/-- Nothing is left of the predicate: it compares attributes with themselves only. -/
def vanishes : Expr → Bool
  | .boolPredicate _ args => allVanish args
  | .predicate (.attribute l la) (.attribute r ra) _ => l = r ∧ la = ra
  | _ => false

def allVanish : List Expr → Bool
  | [] => true
  | e :: es => vanishes e && allVanish es

end

theorem allVanish_eq_true {es : List Expr} : allVanish es = true ↔ ∀ e ∈ es, vanishes e = true := by
  induction es with
  | nil => simp [allVanish]
  | cons e es ih => simp [allVanish, ih]

/-- The arguments of which something is left. -/
def kept (args : List Expr) : List Expr := args.filter fun e => !vanishes e

/-- One argument of the predicate is left. -/
def collapses : Expr → Bool
  | .boolPredicate _ args => (kept args).length = 1
  | _ => false

def isNegation : Expr → Bool
  | .boolPredicate .not _ => true
  | _ => false

/-- The operators that hold between two equal values. -/
def reflexiveOperators : List String := ["=", "<=", ">="]

/-- NOT loses no argument, and OR, which has some, loses none or all. -/
def LosesRightArguments : BoolOperator → List Expr → Prop
  | .and, _ => True
  | .or, args => args ≠ [] ∧ ((∀ e ∈ args, vanishes e = false) ∨ ∀ e ∈ args, vanishes e = true)
  | .not, args => ∀ e ∈ args, vanishes e = false

/-- The condition on the arguments of a predicate: an argument that has one argument left is an AND
or OR, and all that is left of an AND or OR. -/
structure ArgumentsFit (op : BoolOperator) (args : List Expr) : Prop where
  lost : LosesRightArguments op args
  collapsed : ∀ e ∈ args, collapses e = true →
    op ≠ .not ∧ isNegation e = false ∧ (kept args).length = 1

mutual

/-- The condition on a predicate: the arguments fit at every level, and the operator of a comparison
that is removed holds between equal values. -/
def KeepsTruth : Expr → Prop
  | .boolPredicate op args => ArgumentsFit op args ∧ AllKeepTruth args
  | .predicate l r op => vanishes (.predicate l r op) = true → op ∈ reflexiveOperators
  | _ => True

def AllKeepTruth : List Expr → Prop
  | [] => True
  | e :: es => KeepsTruth e ∧ AllKeepTruth es

end

theorem allKeepTruth_iff {es : List Expr} : AllKeepTruth es ↔ ∀ e ∈ es, KeepsTruth e := by
  induction es with
  | nil => simp [AllKeepTruth]
  | cons e es ih => simp [AllKeepTruth, ih]

theorem kept_eq_nil_iff {args : List Expr} : kept args = [] ↔ allVanish args = true := by
  rw [allVanish_eq_true, kept, List.filter_eq_nil_iff]
  simp

/-- A predicate of which nothing is left has no argument left. -/
theorem collapses_of_vanishes {e : Expr} (h : vanishes e = true) : collapses e = false := by
  cases e with
  | boolPredicate op args => simp [collapses, kept_eq_nil_iff.mpr h]
  | _ => rfl

section

/-- What the pass leaves of a predicate, as far as the predicate around it is concerned. -/
structure Traced (e : Expr) (r : Remainder) : Prop where
  present : r.predicate.isPresent = !vanishes e
  parent : r.parent.isSome = collapses e
  parentPresent : ∀ x ∈ r.parent, x.isPresent = true

variable {args : List Expr} {rs : List Remainder}

/-- The arguments that are left, after the pass over each. -/
def remaining (rs : List Remainder) : List Expr := (rs.map Remainder.predicate).filter Expr.isPresent

/-- The pointer to the predicate, after the arguments have been stored in it. -/
def overwritten (rs : List Remainder) (e : Expr) : Expr :=
  (rs.filterMap Remainder.parent).getLast?.getD e

theorem length_remaining (h : List.Forall₂ Traced args rs) :
    (remaining rs).length = (kept args).length := by
  induction h with
  | nil => rfl
  | cons h _ ih =>
    rw [remaining, List.map_cons, List.filter_cons, kept, List.filter_cons, h.present]
    split
    · exact congrArg (· + 1) ih
    · exact ih

theorem isPresent_of_mem_remaining {x : Expr} (h : x ∈ remaining rs) : x.isPresent = true :=
  (List.mem_filter.mp h).2

/-- An entry of the results comes from an argument. -/
theorem exists_argument {R : Expr → Remainder → Prop} (h : List.Forall₂ R args rs) {r : Remainder}
    (hr : r ∈ rs) : ∃ e ∈ args, R e r := by
  induction h with
  | nil => cases hr
  | cons h _ ih =>
    rcases List.mem_cons.mp hr with rfl | hr
    · exact ⟨_, List.mem_cons_self, h⟩
    · obtain ⟨e, he, hR⟩ := ih hr
      exact ⟨e, List.mem_cons_of_mem _ he, hR⟩

/-- The three ways in which the pass over a Bool_Predicate ends. -/
theorem remainderOfArgs_cases (op : BoolOperator) (rs : List Remainder) :
    (remaining rs = [] ∧ remainderOfArgs op rs = { predicate := .nullptr }) ∨
    (∃ x, remaining rs = [x] ∧ remainderOfArgs op rs =
      { predicate := overwritten rs (.boolPredicate op [x]), parent := some x }) ∨
    (2 ≤ (remaining rs).length ∧ remainderOfArgs op rs =
      { predicate := overwritten rs (.boolPredicate op (remaining rs)) }) := by
  have hargs (l : List Expr) (h : remaining rs = l) :
      (rs.map Remainder.predicate).filter Expr.isPresent = l := h
  match h : remaining rs with
  | [] =>
    refine .inl ⟨rfl, ?_⟩
    simp only [remainderOfArgs, hargs _ h]
  | [x] =>
    refine .inr (.inl ⟨x, rfl, ?_⟩)
    simp only [remainderOfArgs, hargs _ h]
    rfl
  | _ :: _ :: _ =>
    refine .inr (.inr ⟨by simp, ?_⟩)
    simp only [remainderOfArgs, hargs _ h]
    rfl

/-- An argument is stored in the pointer, or the predicate stays there. -/
theorem overwritten_cases (rs : List Remainder) (e : Expr) :
    overwritten rs e = e ∨ ∃ r ∈ rs, r.parent = some (overwritten rs e) := by
  rw [overwritten]
  cases h : (rs.filterMap Remainder.parent).getLast? with
  | none => exact .inl rfl
  | some y =>
    obtain ⟨r, hr, hy⟩ := List.mem_filterMap.mp (List.mem_of_getLast? h)
    exact .inr ⟨r, hr, hy⟩

private theorem traced_remainderOfArgs (op : BoolOperator) (h : List.Forall₂ Traced args rs) :
    Traced (.boolPredicate op args) (remainderOfArgs op rs) := by
  have hlength := length_remaining h
  have hpresent (es : List Expr) : (overwritten rs (.boolPredicate op es)).isPresent = true := by
    rcases overwritten_cases rs (.boolPredicate op es) with heq | ⟨r, hr, hy⟩
    · rw [heq]
      rfl
    · obtain ⟨e, -, htraced⟩ := exists_argument h hr
      exact htraced.parentPresent _ hy
  have hvanishes : vanishes (.boolPredicate op args) = true ↔ (remaining rs).length = 0 := by
    rw [hlength, List.length_eq_zero_iff, kept_eq_nil_iff]
    rfl
  obtain ⟨hnil, heq⟩ | ⟨x, hx, heq⟩ | ⟨htwo, heq⟩ := remainderOfArgs_cases op rs
  · rw [hnil, List.length_nil] at hlength hvanishes
    rw [heq]
    refine ⟨?_, by simp [collapses, ← hlength], by simp⟩
    rw [hvanishes.mpr rfl]
    rfl
  · rw [hx, List.length_singleton] at hlength hvanishes
    rw [heq]
    refine ⟨?_, by simp [collapses, ← hlength], ?_⟩
    · rw [hpresent, Bool.eq_false_iff.mpr fun hv => absurd (hvanishes.mp hv) (by omega)]
      rfl
    · rintro y ⟨⟩
      exact isPresent_of_mem_remaining (hx ▸ List.mem_singleton_self x)
  · rw [heq]
    refine ⟨?_, ?_, by simp⟩
    · rw [hpresent, Bool.eq_false_iff.mpr fun hv => absurd (hvanishes.mp hv) (by omega)]
      rfl
    · have hne : (kept args).length ≠ 1 := by omega
      simp [collapses, hne]

end

/-- The pass over the arguments, one result each. -/
theorem forall₂_of_removeAll {args : List Expr} {rs : List Remainder}
    (h : removeAllRedundantPredicates args = some rs) :
    List.Forall₂ (fun e r => removeRedundantPredicates e = some r) args rs := by
  induction args generalizing rs with
  | nil =>
    cases h
    exact .nil
  | cons e es ih =>
    obtain ⟨r, hr, hes⟩ := Option.bind_eq_some_iff.mp h
    obtain ⟨rs', hrs', rfl⟩ := Option.map_eq_some_iff.mp hes
    exact .cons hr (ih hrs')

/-- A property of each result, given one of each argument. -/
private theorem forall₂_map {R S : Expr → Remainder → Prop} {P : Expr → Prop} {args : List Expr}
    {rs : List Remainder} (h : List.Forall₂ R args rs) (hP : ∀ e ∈ args, P e)
    (hS : ∀ e ∈ args, ∀ r, P e → R e r → S e r) : List.Forall₂ S args rs := by
  induction h with
  | nil => exact .nil
  | cons hR _ ih =>
    rw [List.forall_mem_cons] at hP hS
    exact .cons (hS.1 _ hP.1 hR) (ih hP.2 hS.2)

/-- A comparison of attributes is removed when they are the same; other nodes stay. -/
private theorem removeRedundantPredicates_leaf {e : Expr} {r : Remainder}
    (he : e.isBoolPredicate = false) (h : removeRedundantPredicates e = some r) :
    e.isPresent = true ∧ r = ⟨if vanishes e = true then .nullptr else e, none⟩ := by
  cases e with
  | nullptr => cases h
  | boolPredicate op args => cases he
  | predicate l r op =>
    cases l with
    | nullptr => cases h
    | «attribute» n a =>
      cases r with
      | nullptr => cases h
      | «attribute» n' a' =>
        simp only [removeRedundantPredicates, Option.some.injEq] at h
        exact ⟨rfl, by simp [← h, vanishes]⟩
      | _ =>
        cases h
        exact ⟨rfl, rfl⟩
    | _ =>
      cases h
      exact ⟨rfl, rfl⟩
  | _ =>
    cases h
    exact ⟨rfl, rfl⟩

theorem removeRedundantPredicates_traced {e : Expr} {r : Remainder}
    (h : removeRedundantPredicates e = some r) : Traced e r := by
  have leaf (e : Expr) (he : e.isBoolPredicate = false) {r : Remainder}
      (h : removeRedundantPredicates e = some r) : Traced e r := by
    obtain ⟨hpresent, rfl⟩ := removeRedundantPredicates_leaf he h
    refine ⟨?_, ?_, by simp⟩
    · cases hv : vanishes e with
      | false => exact hpresent
      | true => rfl
    · cases e <;> first | rfl | cases he
  induction e using Expr.ind generalizing r with
  | boolPredicate op args ih =>
    obtain ⟨rs, hrs, rfl⟩ := Option.map_eq_some_iff.mp h
    exact traced_remainderOfArgs op
      (forall₂_map (forall₂_of_removeAll hrs) ih fun e _ r ih h => ih h)
  | _ => exact leaf _ rfl h

section

variable {V : Type}

/-- The comparison of a value with itself holds under the reflexive operators. -/
def ReflexiveComparisons (I : Interpretation V) : Prop :=
  ∀ op ∈ reflexiveOperators, ∀ v : V, I.compare op [some v] [some v] = .tt

/-- The attributes of the expression are not NULL. -/
def NonNull (scope : Row V) (e : Expr) : Prop :=
  ∀ name aliasName, .column name aliasName ∈ references e →
    ∃ v, (lookup scope (.column name aliasName)).1 = some v

theorem NonNull.argument {scope : Row V} {op : BoolOperator} {args : List Expr}
    (h : NonNull scope (.boolPredicate op args)) {e : Expr} (he : e ∈ args) : NonNull scope e :=
  fun n a hmem => h n a (mem_allReferences he hmem)

variable [DecidableEq V] (I : Interpretation V)

/-- The truth value of an argument of NOT. -/
def negation (c : Context V) (e : Expr) : Truth := negatedTruth c (e, meaning I e)

theorem truth_or (c : Context V) (args : List Expr) :
    truth I c (.boolPredicate .or args) = .disj (args.map (truth I c)) := by
  simp only [truth, meaning, Meaning.ofTruth, meanings_eq_map, List.map_map]
  rfl

theorem truth_not (c : Context V) (args : List Expr) :
    truth I c (.boolPredicate .not args) = .conj (args.map (negation I c)) := by
  have hzip : args.zip (meanings I args) = args.map fun e => (e, meaning I e) := by
    rw [meanings_eq_map]
    induction args with
    | nil => rfl
    | cons e es ih => simp only [List.map_cons, List.zip_cons_cons, ih]
  simp only [truth, meaning, Meaning.ofTruth, hzip, List.map_map]
  rfl

theorem truth_of_not_isPresent {c : Context V} {e : Expr} (h : e.isPresent = false) :
    truth I c e = .tt := by
  cases e <;> first | rfl | cases h

/-- The results of the pass over `e` mean what `e` means on the row. -/
structure Sound (scope : Row V) (e : Expr) (r : Remainder) : Prop where
  predicate : truth I ⟨scope, []⟩ r.predicate = truth I ⟨scope, []⟩ e
  parent : isNegation e = false → ∀ x ∈ r.parent, truth I ⟨scope, []⟩ x = truth I ⟨scope, []⟩ e
  negated : collapses e = false → vanishes e = false →
    negation I ⟨scope, []⟩ r.predicate = negation I ⟨scope, []⟩ e

variable {I} {scope : Row V} {op : BoolOperator} {args : List Expr} {rs : List Remainder}

private theorem map_eq_of_forall₂ {α : Type} {f : Remainder → α} {g : Expr → α}
    {R : Expr → Remainder → Prop} (h : List.Forall₂ R args rs)
    (hR : ∀ e ∈ args, ∀ r, R e r → f r = g e) : rs.map f = args.map g := by
  induction h with
  | nil => rfl
  | cons h _ ih =>
    rw [List.forall_mem_cons] at hR
    rw [List.map_cons, List.map_cons, hR.1 _ h, ih hR.2]

private theorem conj_present (es : List Expr) :
    Truth.conj ((es.filter Expr.isPresent).map (truth I ⟨scope, []⟩)) =
      .conj (es.map (truth I ⟨scope, []⟩)) := by
  induction es with
  | nil => rfl
  | cons e es ih =>
    rw [List.filter_cons]
    split
    · rw [List.map_cons, List.map_cons, Truth.conj_cons, Truth.conj_cons, ih]
    · next h =>
      rw [List.map_cons, Truth.conj_cons, truth_of_not_isPresent I (Bool.not_eq_true _ ▸ h), ih,
        Truth.tt_inf]

section

variable (htraced : List.Forall₂ Traced args rs) (hsound : List.Forall₂ (Sound I scope) args rs)

include htraced

/-- When no argument is lost, the arguments are the results of all. -/
private theorem remaining_eq_map (h : ∀ e ∈ args, vanishes e = false) :
    remaining rs = rs.map Remainder.predicate := by
  refine List.filter_eq_self.mpr fun x hx => ?_
  obtain ⟨r, hr, rfl⟩ := List.mem_map.mp hx
  obtain ⟨e, he, htr⟩ := exists_argument htraced hr
  rw [htr.present, h e he]
  rfl

include hsound

/-- An argument that vanishes is true. -/
private theorem truth_of_vanishes {e : Expr} (he : e ∈ args) (hv : vanishes e = true) :
    truth I ⟨scope, []⟩ e = .tt := by
  induction htraced with
  | nil => cases he
  | cons htr _ ih =>
    cases hsound with
    | cons hs hrest =>
      rcases List.mem_cons.mp he with rfl | he
      · rw [← hs.predicate]
        exact truth_of_not_isPresent I (by rw [htr.present, hv]; rfl)
      · exact ih hrest he

/-- The Bool_Predicate without the lost arguments. -/
private theorem truth_remaining (hfit : ArgumentsFit op args) :
    truth I ⟨scope, []⟩ (.boolPredicate op args) =
      if remaining rs = [] then .tt else truth I ⟨scope, []⟩ (.boolPredicate op (remaining rs)) := by
  have hmap : (rs.map Remainder.predicate).map (truth I ⟨scope, []⟩) =
      args.map (truth I ⟨scope, []⟩) := by
    rw [List.map_map]
    exact map_eq_of_forall₂ hsound fun e _ r hs => hs.predicate
  have hlost := hfit.lost
  cases op with
  | and =>
    have hconj : Truth.conj ((remaining rs).map (truth I ⟨scope, []⟩)) =
        .conj (args.map (truth I ⟨scope, []⟩)) := (conj_present _).trans (congrArg Truth.conj hmap)
    rw [truth_and, truth_and, ← hconj]
    split
    · next hnil => rw [hnil]; rfl
    · rfl
  | or =>
    obtain ⟨hne, hnone | hall⟩ := hlost
    · have hrem := remaining_eq_map htraced hnone
      have hnot : remaining rs ≠ [] := by
        intro hnil
        rw [hrem, List.map_eq_nil_iff] at hnil
        rw [hnil] at hsound
        cases hsound
        exact hne rfl
      rw [if_neg hnot, hrem, truth_or, truth_or, hmap]
    · have hnil : remaining rs = [] := by
        rw [← List.length_eq_zero_iff, length_remaining htraced, List.length_eq_zero_iff,
          kept_eq_nil_iff, allVanish_eq_true]
        exact hall
      obtain ⟨e, es, rfl⟩ := List.exists_cons_of_ne_nil hne
      rw [if_pos hnil, truth_or, List.map_cons, Truth.disj_cons,
        truth_of_vanishes htraced hsound List.mem_cons_self (hall e List.mem_cons_self),
        Truth.tt_sup]
  | not =>
    have hneg : (rs.map Remainder.predicate).map (negation I ⟨scope, []⟩) =
        args.map (negation I ⟨scope, []⟩) := by
      rw [List.map_map]
      refine map_eq_of_forall₂ hsound fun e he r hs => hs.negated ?_ (hlost e he)
      by_contra hc
      exact (hfit.collapsed e he (Bool.not_eq_false _ ▸ hc)).1 rfl
    rw [remaining_eq_map htraced hlost, truth_not, truth_not, hneg]
    split
    · next hnil =>
      rw [List.map_eq_nil_iff] at hnil
      rw [hnil] at hsound
      cases hsound
      rfl
    · rfl

end

private theorem truth_singleton (hop : op ≠ .not) (e : Expr) :
    truth I ⟨scope, []⟩ (.boolPredicate op [e]) = truth I ⟨scope, []⟩ e := by
  cases op with
  | and => simp [truth_and]
  | or => simp [truth_or]
  | not => exact absurd rfl hop

private theorem sound_remainderOfArgs
    (h : List.Forall₂ (fun e r => Traced e r ∧ Sound I scope e r) args rs)
    (hfit : ArgumentsFit op args) :
    Sound I scope (.boolPredicate op args) (remainderOfArgs op rs) := by
  have htraced : List.Forall₂ Traced args rs := h.imp fun _ _ h => h.1
  have htruth := truth_remaining htraced (h.imp fun _ _ h => h.2) hfit
  have hlength := length_remaining htraced
  obtain ⟨hnil, heq⟩ | ⟨x, hx, heq⟩ | ⟨htwo, heq⟩ := remainderOfArgs_cases op rs
  · rw [heq]
    rw [if_pos hnil] at htruth
    rw [hnil, List.length_nil, eq_comm, List.length_eq_zero_iff, kept_eq_nil_iff] at hlength
    refine ⟨htruth.symm, fun _ x hx => by simp at hx, fun _ hv => ?_⟩
    rw [vanishes, hlength] at hv
    cases hv
  · rw [heq]
    rw [hx, if_neg (List.cons_ne_nil _ _)] at htruth
    rw [hx, List.length_singleton] at hlength
    have hcollapses : collapses (.boolPredicate op args) = true := by simp [collapses, ← hlength]
    refine ⟨?_, ?_, fun hc => by rw [hcollapses] at hc; cases hc⟩
    · rcases overwritten_cases rs (.boolPredicate op [x]) with hpred | ⟨r, hr, hy⟩
      · rw [hpred, htruth]
      · -- the argument that was stored is the only one that is left
        obtain ⟨e, he, htr, hs⟩ := exists_argument h hr
        have hc : collapses e = true := by rw [← htr.parent, hy]; rfl
        obtain ⟨hop, hneg, -⟩ := hfit.collapsed e he hc
        have hmem : r.predicate ∈ remaining rs := by
          refine List.mem_filter.mpr ⟨List.mem_map_of_mem hr, ?_⟩
          cases hv : vanishes e with
          | true => rw [collapses_of_vanishes hv] at hc; cases hc
          | false => rw [htr.present, hv]; rfl
        rw [hx, List.mem_singleton] at hmem
        rw [hs.parent hneg _ hy, ← hs.predicate, hmem, htruth, truth_singleton hop]
    · rintro hneg y ⟨⟩
      rw [htruth, truth_singleton]
      rintro rfl
      cases hneg
  · rw [heq]
    have hnot : remaining rs ≠ [] := by
      intro hnil
      rw [hnil] at htwo
      simp at htwo
    rw [if_neg hnot] at htruth
    have hpred : overwritten rs (.boolPredicate op (remaining rs)) =
        .boolPredicate op (remaining rs) := by
      refine (overwritten_cases rs _).resolve_right ?_
      rintro ⟨r, hr, hy⟩
      obtain ⟨e, he, htr, -⟩ := exists_argument h hr
      have hone := (hfit.collapsed e he (by rw [← htr.parent, hy]; rfl)).2.2
      omega
    rw [hpred]
    exact ⟨htruth.symm, fun _ x hx => by simp at hx, fun _ _ => congrArg Truth.not htruth.symm⟩

/-- Under the condition, the results of the pass mean what the predicate means. -/
theorem removeRedundantPredicates_sound (hI : ReflexiveComparisons I) {e : Expr} {r : Remainder}
    (h : removeRedundantPredicates e = some r) (hkeeps : KeepsTruth e) (hnonNull : NonNull scope e) :
    Sound I scope e r := by
  have leaf (e : Expr) (he : e.isBoolPredicate = false) (hkeeps : KeepsTruth e)
      (hnonNull : NonNull scope e) {r : Remainder} (h : removeRedundantPredicates e = some r) :
      Sound I scope e r := by
    obtain ⟨-, rfl⟩ := removeRedundantPredicates_leaf he h
    refine ⟨?_, fun _ x hx => by simp at hx, fun _ hv => by simp [hv]⟩
    split
    · next hv =>
      -- a comparison of an attribute with itself
      cases e with
      | predicate l r op =>
        have hop : op ∈ reflexiveOperators := hkeeps hv
        cases l with
        | «attribute» n a =>
          cases r with
          | «attribute» n' a' =>
            obtain ⟨rfl, rfl⟩ : n = n' ∧ a = a' := by simpa [vanishes] using hv
            obtain ⟨v, hvalue⟩ := hnonNull n a (by simp [references])
            have htruth : truth I ⟨scope, []⟩ (.predicate (.attribute n a) (.attribute n a) op) =
                I.compare op [some v] [some v] := by
              rw [← hvalue]
              rfl
            rw [htruth, hI op hop v]
            rfl
          | _ => cases hv
        | _ => cases hv
      | boolPredicate op args => cases he
      | _ => cases hv
    · rfl
  induction e using Expr.ind generalizing r with
  | boolPredicate op args ih =>
    obtain ⟨rs, hrs, rfl⟩ := Option.map_eq_some_iff.mp h
    obtain ⟨hfit, hall⟩ := hkeeps
    rw [allKeepTruth_iff] at hall
    refine sound_remainderOfArgs ?_ hfit
    refine forall₂_map (forall₂_of_removeAll hrs) (P := fun e => e ∈ args) (fun _ he => he) ?_
    intro e he r _ hr
    exact ⟨removeRedundantPredicates_traced hr, ih e he hr (hall e he) (hnonNull.argument he)⟩
  | _ => exact leaf _ rfl hkeeps hnonNull h

end

/-- On every row without NULL attributes the two conditions have one truth value. -/
def SameTruth (p p' : Expr) : Prop :=
  ∀ (V : Type) [DecidableEq V] (I : Interpretation V), ReflexiveComparisons I →
    ∀ scope : Row V, NonNull scope p → truth I ⟨scope, []⟩ p' = truth I ⟨scope, []⟩ p

/-- The condition is true on every row without NULL attributes. -/
def AlwaysTrue (p : Expr) : Prop :=
  ∀ (V : Type) [DecidableEq V] (I : Interpretation V), ReflexiveComparisons I →
    ∀ scope : Row V, NonNull scope p → truth I ⟨scope, []⟩ p = .tt

/-- The tree is the old one but for the condition of the Selection, which is as true as before, or
the Selection is taken out and its condition is always true. -/
def KeepsCondition (sel : Nat) (p : Expr) (root root' : RaNode) : Prop :=
  (∃ p', root' = update sel (setSelectionPredicate p') root ∧ SameTruth p p') ∨
    AlwaysTrue p ∧ ∀ K c, Distinct root → root = plug K (.selection sel p c) → root' = plug K c

private theorem belowSelection_of_not_mem {sel : Nat} {t : RaNode} (h : sel ∉ t.ids) :
    belowSelection sel t = t := by
  cases t with
  | unary i op c =>
    cases op with
    | selection p => exact if_neg (Ne.symm (List.ne_of_not_mem_cons h))
    | _ => rfl
  | _ => rfl

/-- The Selection is taken out at its position. -/
theorem takeOut_plug {K : List Frame} {f : Frame} {sel : Nat} {p : Expr} {c : RaNode}
    (hd : Distinct (plug (f :: K) (.selection sel p c))) :
    update sel clearChild (update f.id (mapChildren (belowSelection sel))
      (plug (f :: K) (.selection sel p c))) = plug (f :: K) c := by
  have hsel : sel ∉ contextIds (f :: K) := hd.not_mem_context List.mem_cons_self
  have hc : sel ∉ c.ids := (List.nodup_cons.mp (distinct_plug.mp hd).2.1).1
  have hchild : mapChildren (belowSelection sel) (f.plug (.selection sel p c)) = f.plug c := by
    rw [contextIds_cons, List.mem_append, not_or] at hsel
    have htake : belowSelection sel (.selection sel p c) = c := if_pos rfl
    cases f with
    | unary i op => simp only [Frame.plug, mapChildren, htake]
    | left i join r =>
      have hr := belowSelection_of_not_mem fun hmem => hsel.1 (List.mem_cons_of_mem i hmem)
      simp only [Frame.plug, mapChildren, htake, hr]
    | right i join l =>
      have hl := belowSelection_of_not_mem fun hmem => hsel.1 (List.mem_cons_of_mem i hmem)
      simp only [Frame.plug, mapChildren, htake, hl]
  rw [plug_cons, update_plug_of_id? (plug_cons f K _ ▸ hd) (Frame.id?_plug f _), hchild,
    ← plug_cons, update_eq_self]
  rw [mem_ids_plug, not_or]
  exact ⟨hsel, hc⟩

/-- What is left of the tree when nothing is left of the condition. -/
private theorem removeRedundantIn_vanishing {K : List Frame} {sel : Nat} {p : Expr}
    {c root' : RaNode} {r : Remainder} (hd : Distinct (plug K (.selection sel p c)))
    (hr : removeRedundantPredicates p = some r) (hnot : r.predicate.isPresent = false)
    (h : removeRedundantIn sel (plug K (.selection sel p c)) = some root') : root' = plug K c := by
  have hid : (RaNode.selection sel p c).id? = some sel := rfl
  have hroot := update_plug_of_id? hd hid (setSelectionPredicate r.predicate)
  have hd' : Distinct (plug K (.selection sel r.predicate c)) := by
    rw [distinct_plug] at hd ⊢
    exact hd
  rw [removeRedundantIn, find?_plug_of_id? hd hid] at h
  simp only [hr, Option.bind_some, hnot, hroot, Bool.false_eq_true, if_false] at h
  rw [Option.ite_none_left_eq_some] at h
  obtain ⟨-, h⟩ := h
  obtain ⟨parent, hparent, h⟩ := Option.bind_eq_some_iff.mp h
  cases K with
  | nil =>
    have hc : sel ∉ c.ids := (List.nodup_cons.mp hd').1
    have hne : c.id? ≠ some sel := fun hid => hc (id?_mem_ids hid)
    have hnone : getNodeParent sel (.selection sel r.predicate c) = none := by
      rw [getNodeParent, if_neg hne, getNodeParent_eq_none hc]
    exact absurd (hparent.symm.trans hnone) (Option.some_ne_none _)
  | cons f K =>
    obtain rfl := Option.some.inj ((getNodeParent_plug hd' hid).symm.trans hparent)
    rw [Frame.id?_plug, Option.map_some, Option.some.injEq] at h
    rw [← h]
    exact takeOut_plug hd'

/-- Under the condition the pass keeps the truth of the condition of a Selection, in every tree. -/
theorem removeRedundantIn_keepsCondition {sel i : Nat} {p : Expr} {c root root' : RaNode}
    (hfind : find? sel root = some (.selection i p c)) (hp : KeepsTruth p)
    (h : removeRedundantIn sel root = some root') : KeepsCondition sel p root root' := by
  have hrun := h
  rw [removeRedundantIn, hfind] at h
  obtain ⟨r, hr, h⟩ := Option.bind_eq_some_iff.mp h
  have hsame : SameTruth p r.predicate := fun V _ I hI scope hnonNull =>
    (removeRedundantPredicates_sound hI hr hp hnonNull).predicate
  cases hpresent : r.predicate.isPresent with
  | true =>
    rw [if_pos hpresent, Option.some.injEq] at h
    exact .inl ⟨r.predicate, h.symm, hsame⟩
  | false =>
    refine .inr ⟨fun V _ I hI scope hnonNull => ?_, ?_⟩
    · rw [← hsame V I hI scope hnonNull]
      exact truth_of_not_isPresent I hpresent
    · rintro K c hd rfl
      exact removeRedundantIn_vanishing hd hr hpresent hrun

/-- The Selection over `s` with two conditions, the first on the attribute `a`. -/
private def selectBoth (first second : Expr) : RaNode :=
  .projection 1 { args := [.attribute "b" "s"] }
    (.selection 2 (.boolPredicate .and [first, second]) (.relation 3 "s" ""))

private def equals (l r : String) : Expr := .predicate (.attribute l "s") (.attribute r "s") "="

private theorem reflexiveComparisons_equality : ReflexiveComparisons equality := by
  intro op _ v
  simp [equality, Truth.ofBool]

/-- For `s.a = s.a and s.b = s.c` the second condition is what is left. -/
theorem selfComparison_keepsCondition : KeepsCondition 2
    (.boolPredicate .and [equals "a" "a", equals "b" "c"])
    (selectBoth (equals "a" "a") (equals "b" "c"))
    (.projection 1 { args := [.attribute "b" "s"] }
      (.selection 2 (.boolPredicate .and [equals "b" "c"]) (.relation 3 "s" ""))) := by
  refine removeRedundantIn_keepsCondition (i := 2) rfl ?_ rfl
  refine ⟨⟨trivial, ?_⟩, ?_, ?_, trivial⟩
  · simp [equals, collapses]
  · simp [KeepsTruth, equals, reflexiveOperators]
  · simp [KeepsTruth, equals, vanishes]

/-- For `s.a = s.a and not (s.b = s.c)` the argument of NOT takes the place of the AND. -/
theorem negation_not_keepsCondition : ∃ root',
    removeRedundantIn 2 (selectBoth (equals "a" "a") (.boolPredicate .not [equals "b" "c"])) =
      some root' ∧
    ¬ KeepsCondition 2
      (.boolPredicate .and [equals "a" "a", .boolPredicate .not [equals "b" "c"]])
      (selectBoth (equals "a" "a") (.boolPredicate .not [equals "b" "c"])) root' := by
  let row : Row Nat := [.source "s" [("a", some 1), ("b", some 2), ("c", some 2)]]
  have hnonNull : NonNull row
      (.boolPredicate .and [equals "a" "a", .boolPredicate .not [equals "b" "c"]]) := by
    intro n a h
    simp only [references, allReferences, equals, List.append_nil, List.cons_append,
      List.nil_append, List.mem_cons, Reference.column.injEq, List.not_mem_nil, or_false] at h
    rcases h with ⟨rfl, rfl⟩ | ⟨rfl, rfl⟩ | ⟨rfl, rfl⟩ | ⟨rfl, rfl⟩
    · exact ⟨1, by decide⟩
    · exact ⟨1, by decide⟩
    · exact ⟨2, by decide⟩
    · exact ⟨2, by decide⟩
  refine ⟨_, rfl, ?_⟩
  rintro (⟨p', htree, hsame⟩ | ⟨htrue, -⟩)
  · simp only [selectBoth, update, setSelectionPredicate] at htree
    have hp' := UnaryOp.selection.inj (RaNode.unary.inj (RaNode.unary.inj htree).2.2).2.1
    have htruth := hsame Nat equality reflexiveComparisons_equality row hnonNull
    rw [← hp'] at htruth
    exact absurd htruth (by decide)
  · exact absurd (htrue Nat equality reflexiveComparisons_equality row hnonNull) (by decide)

end SqlOptimizer.Unnesting.RedundantPredicates
