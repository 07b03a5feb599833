import SqlOptimizer.Tree.OuterJoins
import SqlOptimizer.Unnesting.Counterparts

/-!
`has_equivalent_attribute` with the map that it changes on the way: what it enters holds on
every row that satisfies the predicate, and an unsuccessful search leaves no trace.
-/

set_option autoImplicit false
set_option relaxedAutoImplicit false

namespace SqlOptimizer.Unnesting.EquivalentAttributes

open Algebra.RelationalAlgebra
open Logic.ThreeValued
open Tree.OuterJoins (equality)
open Semantics.Evaluation
open Attributes Decouple Counterparts

/-- The Predicate case from the operands of an equality: the D attribute on one side and another
attribute on the other. -/
def enterEquality (name : String) : Expr → Expr → RenameMap → Option (Bool × RenameMap)
  | .nullptr, _, _ => none
  | .attribute _ _, .nullptr, _ => none
  | .attribute l la, .attribute r ra, m =>
      if la = "d" ∧ l = name ∧ ra ≠ "d" then some (true, m.set "d" name ra r)
      else if ra = "d" ∧ r = name ∧ la ≠ "d" then some (true, m.set "d" name la l)
      else some (false, m)
  | _, _, m => some (false, m)

section

variable (name : String)

mutual

/-- `RaTree::has_equivalent_attribute`: the answer and the map that it leaves in `d_rename_map`;
`none` stands for a null pointer that is followed. -/
def hasEquivalentAttributeRef : Expr → RenameMap → Option (Bool × RenameMap)
  | .nullptr, _ => none
  | .boolPredicate .and args, m => tryArguments args (false, m)
  | .predicate l r op, m =>
      if op = "=" then enterEquality name l r m else some (false, m)
  | _, m => some (false, m)

/-- The loop over the arguments of an AND, which stops through a flag. -/
def tryArguments : List Expr → Bool × RenameMap → Option (Bool × RenameMap)
  | [], r => some r
  | e :: es, r =>
      (if r.1 then some r else hasEquivalentAttributeRef e r.2).bind (tryArguments es)

end

end

mutual

/-- No null pointer stands for an argument or for an operand of a comparison. -/
def isPredicateTree : Expr → Bool
  | .nullptr => false
  | .boolPredicate _ args => arePredicateTrees args
  | .predicate l r _ => l.isPresent && r.isPresent
  | _ => true

def arePredicateTrees : List Expr → Bool
  | [] => true
  | e :: es => isPredicateTree e && arePredicateTrees es

end

/-- What a search leaves that finds this counterpart or none. -/
def reported (name : String) (m : RenameMap) : Option AttributeRef → Bool × RenameMap
  | some b => (true, withCounterpart name m b)
  | none => (false, m)

theorem enterEquality_eq (name : String) {l r : Expr} (hl : l.isPresent = true)
    (hr : r.isPresent = true) (m : RenameMap) :
    enterEquality name l r m = some (reported name m (counterpart name (.predicate l r "="))) := by
  cases l with
  | nullptr => cases hl
  | «attribute» n a =>
    cases r with
    | nullptr => cases hr
    | «attribute» n' a' =>
      rw [enterEquality, counterpart, if_pos rfl]
      split
      · rfl
      · split <;> rfl
    | _ => rfl
  | _ => rfl

theorem counterpart_of_ne (name : String) (l r : Expr) {op : String} (h : op ≠ "=") :
    counterpart name (.predicate l r op) = none := by
  cases l with
  | «attribute» n a =>
    cases r with
    | «attribute» n' a' => rw [counterpart, if_neg h]
    | _ => rfl
  | _ => rfl

theorem tryArguments_found (name : String) (es : List Expr) (m : RenameMap) :
    tryArguments name es (true, m) = some (true, m) := by
  induction es with
  | nil => rfl
  | cons e es ih => rw [tryArguments, if_pos rfl, Option.bind_some, ih]

/-- The search reports the first counterpart. -/
theorem hasEquivalentAttributeRef_eq (name : String) {e : Expr} (he : isPredicateTree e = true)
    (m : RenameMap) :
    hasEquivalentAttributeRef name e m = some (reported name m (counterpart name e)) := by
  induction e using Expr.ind generalizing m with
  | nullptr => cases he
  | boolPredicate op args ih =>
    cases op with
    | and =>
      rw [hasEquivalentAttributeRef, counterpart]
      rw [isPredicateTree] at he
      induction args with
      | nil => rfl
      | cons e es ihes =>
        rw [arePredicateTrees, Bool.and_eq_true] at he
        rw [List.forall_mem_cons] at ih
        rw [tryArguments, if_neg Bool.false_ne_true, ih.1 he.1, Option.bind_some, anyCounterpart]
        cases counterpart name e with
        | none => exact ihes ih.2 he.2
        | some b => exact tryArguments_found name es _
    | _ => rfl
  | predicate l r op =>
    rw [isPredicateTree, Bool.and_eq_true] at he
    rw [hasEquivalentAttributeRef]
    by_cases hop : op = "="
    · subst hop
      rw [if_pos rfl, enterEquality_eq name he.1 he.2]
    · rw [if_neg hop, counterpart_of_ne name l r hop]
      rfl
  | _ => rfl

/-- The search as `can_decouple` uses it. -/
theorem hasEquivalentAttribute_eq_ref {name : String} {e : Expr} (he : isPredicateTree e = true)
    (m : RenameMap) :
    hasEquivalentAttributeRef name e m = some (match hasEquivalentAttribute name e m with
      | some m' => (true, m')
      | none => (false, m)) := by
  rw [hasEquivalentAttributeRef_eq name he, hasEquivalentAttribute_eq]
  cases counterpart name e <;> rfl

/-- The laws of `=`: only values that are not NULL are equal, in either order. -/
structure IsEquality {V : Type} (I : Interpretation V) : Prop where
  strict : ∀ v w, I.compare "=" [v] [w] = .tt → v ≠ none ∧ w ≠ none
  symm : ∀ v w, I.compare "=" [v] [w] = .tt → I.compare "=" [w] [v] = .tt

/-- `has_equivalent_attribute` is sound. What it enters for the attribute `name` of D is no
attribute of D, and on every row on which the predicate is true both are equal and not NULL;
without success the map is as before. -/
theorem hasEquivalentAttribute_sound {V : Type} [DecidableEq V] {I : Interpretation V}
    (hI : IsEquality I) (name : String) {e : Expr} (he : isPredicateTree e = true)
    (m : RenameMap) :
    ∃ found m', hasEquivalentAttributeRef name e m = some (found, m') ∧
      (found = true → ∃ other otherAlias, otherAlias ≠ "d" ∧
        m' = m.set "d" name otherAlias other ∧
        ∀ c : Context V, truth I c e = .tt →
          (lookup c.scope (.column name "d")).1 ≠ none ∧
            (lookup c.scope (.column other otherAlias)).1 ≠ none ∧
            I.compare "=" [(lookup c.scope (.column name "d")).1]
              [(lookup c.scope (.column other otherAlias)).1] = .tt) ∧
      (found = false → m' = m) := by
  refine ⟨_, _, hasEquivalentAttributeRef_eq name he m, fun hfound => ?_, fun hfail => ?_⟩
  · cases h : counterpart name e with
    | none =>
      rw [h] at hfound
      cases hfound
    | some b =>
      refine ⟨b.1, b.2, alias_of_counterpart name h, rfl, fun c htruth => ?_⟩
      have heq : I.compare "=" [(lookup c.scope (.column name "d")).1]
          [(lookup c.scope (.column b.1 b.2)).1] = .tt := by
        rcases compare_counterpart h htruth with heq | heq
        · exact heq
        · exact hI.symm _ _ heq
      obtain ⟨hd, hother⟩ := hI.strict _ _ heq
      exact ⟨hd, hother, heq⟩
  · cases h : counterpart name e with
    | none => rfl
    | some b =>
      rw [h] at hfail
      cases hfail

theorem isEquality_equality : IsEquality equality where
  strict v w h := by
    cases v <;> cases w <;> simp_all [equality]
  symm v w h := by
    cases v with
    | none => cases h
    | some v =>
      cases w with
      | none => cases h
      | some w =>
        by_cases heq : v = w
        · exact heq ▸ h
        · simp [equality, Truth.ofBool, heq] at h

/-- `s.k is not null and t.k = d.k`. -/
def equatedInAnd : Expr :=
  .boolPredicate .and
    [.nullTest (.attribute "k" "s") .isNotNull,
      .predicate (.attribute "k" "t") (.attribute "k" "d") "="]

def equatedRow : Row Nat :=
  [.source "s" [("k", some 1)], .source "t" [("k", some 2)], .source "d" [("k", some 2)]]

/-- `t.k` is entered for `d.k`, and both are equal on a row. -/
theorem equatedInAnd_sound :
    hasEquivalentAttributeRef "k" equatedInAnd [] = some (true, [(("d", "k"), ("t", "k"))]) ∧
      equality.compare "=" [(lookup equatedRow (.column "k" "d")).1]
        [(lookup equatedRow (.column "k" "t")).1] = .tt := by
  refine ⟨rfl, ?_⟩
  obtain ⟨found, m', hrun, hsound, -⟩ := hasEquivalentAttribute_sound isEquality_equality "k"
    (e := equatedInAnd) (by decide) []
  obtain ⟨rfl, rfl⟩ : true = found ∧ [(("d", "k"), ("t", "k"))] = m' :=
    Prod.mk.inj (Option.some.inj hrun)
  obtain ⟨other, otherAlias, -, hm, hrows⟩ := hsound rfl
  obtain ⟨rfl, rfl⟩ : "t" = otherAlias ∧ "k" = other := by simpa [RenameMap.set] using hm
  exact (hrows ⟨equatedRow, []⟩ (by decide)).2.2

end SqlOptimizer.Unnesting.EquivalentAttributes
