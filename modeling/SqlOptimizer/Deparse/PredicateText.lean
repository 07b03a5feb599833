import SqlOptimizer.Deparse.DeparseRaToSql

/-!
What the text of a single predicate denotes when it is read with SQL precedence.
The reading is computed by `printed`, which differs from the meaning of the predicate
only where the printer leaves a negation out.
-/

set_option autoImplicit false
set_option relaxedAutoImplicit false

namespace SqlOptimizer.Deparse.PredicateText

open Algebra.RelationalAlgebra
open Logic.BoolText
open DeparseRaToSql

mutual

/-- The condition a predicate node stands for; comparisons, null tests and subquery
markers are its atoms. -/
def meaning : Expr → Cond Expr
  | .boolPredicate .and args => .all (meanings args)
  | .boolPredicate .or args => .any (meanings args)
  | .boolPredicate .not args => .not (.all (meanings args))
  | e => .atom e

def meanings : List Expr → List (Cond Expr)
  | [] => []
  | e :: es => meaning e :: meanings es

end

theorem meanings_eq_map (es : List Expr) : meanings es = es.map meaning := by
  induction es with
  | nil => rfl
  | cons e es ih => simp [meanings, ih]

/-- AND and OR have arguments and NOT has exactly one. -/
inductive IsBoolean : Expr → Prop
  | connective (op : BoolOperator) (args : List Expr) :
      op ≠ .not → args ≠ [] → (∀ a ∈ args, IsBoolean a) → IsBoolean (.boolPredicate op args)
  | not (a : Expr) : IsBoolean a → IsBoolean (.boolPredicate .not [a])
  | atom (e : Expr) : e.isBoolPredicate = false → IsBoolean e

/-- The marker is printed as a NOT IN. -/
def printsNotIn (subs : Nat → Option Subquery) (m : Nat) : Bool :=
  match subs m with
  | some s => s.join.type = .antiInLeft || s.join.type = .antiInLeftDependent
  | none => false

/-- The reading of a NOT argument, from the reading of the argument itself. -/
def negatedCond : Expr → Cond Expr → Cond Expr
  | .whereSubqueryMarker _ .antiInLeft, c => c
  | .whereSubqueryMarker _ .antiInLeftDependent, c => c
  | .nullTest _ _, c => c
  | _, c => .not c

section

variable (subs : Nat → Option Subquery)

mutual

/-- The condition that the text of a predicate denotes. -/
def printed : Expr → Cond Expr
  | .boolPredicate .and args => .all (printeds args)
  | .boolPredicate .or args => .any (printeds args)
  | .boolPredicate .not args => .all (printedNegations args)
  | .whereSubqueryMarker m type =>
      if printsNotIn subs m then .not (.atom (.whereSubqueryMarker m type))
      else .atom (.whereSubqueryMarker m type)
  | e => .atom e

def printeds : List Expr → List (Cond Expr)
  | [] => []
  | e :: es => printed e :: printeds es

def printedNegations : List Expr → List (Cond Expr)
  | [] => []
  | e :: es => negatedCond e (printed e) :: printedNegations es

end

theorem printeds_eq_map (es : List Expr) : printeds subs es = es.map (printed subs) := by
  induction es with
  | nil => rfl
  | cons e es ih => simp [printeds, ih]

end

/-- The tokens of a text with the printed nodes as atoms. -/
def skeleton (ts : Text) : List (Tok Expr) := ts.map (Tok.map Leaf.node)

@[simp] theorem skeleton_append (ts us : Text) :
    skeleton (ts ++ us) = skeleton ts ++ skeleton us := by
  simp [skeleton]

@[simp] theorem skeleton_cons (t : Tok Leaf) (ts : Text) :
    skeleton (t :: ts) = t.map Leaf.node :: skeleton ts := rfl

@[simp] theorem skeleton_nil : skeleton [] = [] := rfl

theorem skeleton_sepBy (sep : Tok Leaf) (ts : List Text) :
    skeleton (sepBy sep ts) = sepBy (sep.map Leaf.node) (ts.map skeleton) := by
  induction ts with
  | nil => rfl
  | cons t ts ih =>
    cases ts with
    | nil => rfl
    | cons u ts => simp [sepBy, ih]

variable {subs : Nat → Option Subquery}

/-- The texts of a list of predicates, one for each. -/
theorem printPredicates_eq_some {es : List Expr} {tss : List Text} :
    printPredicates subs es = some tss ↔
      List.Forall₂ (fun e ts => deparsePredicate subs e = some ts) es tss := by
  induction es generalizing tss with
  | nil => simp [printPredicates, eq_comm]
  | cons e es ih =>
    simp only [printPredicates, Option.bind_eq_some_iff, Option.map_eq_some_iff,
      List.forall₂_cons_left_iff, deparsePredicate]
    constructor
    · rintro ⟨ts, hts, tss', htss, rfl⟩
      exact ⟨ts, tss', hts, ih.mp htss, rfl⟩
    · rintro ⟨ts, tss', hts, htss, rfl⟩
      exact ⟨ts, hts, tss', ih.mpr htss, rfl⟩

theorem deparsePredicate_bool {op : BoolOperator} {args : List Expr} {ts : Text}
    (h : deparsePredicate subs (.boolPredicate op args) = some ts) :
    ∃ tss, List.Forall₂ (fun e ts => deparsePredicate subs e = some ts) args tss ∧
      ts = boolText op (args.zip tss) := by
  simp only [deparsePredicate, print, Printed.ofPredicate, Option.map_eq_some_iff] at h
  obtain ⟨tss, htss, rfl⟩ := h
  exact ⟨tss, printPredicates_eq_some.mp htss, rfl⟩

theorem deparsePredicate_marker (m : Nat) (type : JoinType) :
    deparsePredicate subs (.whereSubqueryMarker m type) = deparseMarker subs m type := rfl

/-- Every node that is neither a connective nor a marker is printed as one atom. -/
theorem deparsePredicate_atom {e : Expr} {ts : Text} (hb : e.isBoolPredicate = false)
    (hm : ∀ m t, e ≠ .whereSubqueryMarker m t)
    (h : deparsePredicate subs e = some ts) : ∃ s, ts = [.atom ⟨e, s⟩] := by
  cases e with
  | nullTest arg type =>
    cases type <;>
      simp only [deparsePredicate, print, Printed.ofPredicate, Option.map_eq_some_iff] at h <;>
      obtain ⟨s, -, rfl⟩ := h <;> exact ⟨_, rfl⟩
  | boolPredicate op args => cases hb
  | whereSubqueryMarker m t => exact absurd rfl (hm m t)
  | predicate l r op =>
    simp only [deparsePredicate, print, Printed.ofPredicate, Option.bind_eq_some_iff,
      Option.map_eq_some_iff] at h
    obtain ⟨_, -, _, -, rfl⟩ := h
    exact ⟨_, rfl⟩
  | nullptr => cases h
  | _ =>
    simp only [deparsePredicate, print, Printed.ofPredicate, Printed.ofExpression,
      Option.map_eq_some_iff] at h
    obtain ⟨s, -, rfl⟩ := h
    exact ⟨_, rfl⟩

private theorem readsUnit_marker {m : Nat} {type : JoinType} {ts : Text}
    (h : deparseMarker subs m type = some ts) :
    ReadsUnit (skeleton ts) (printed subs (.whereSubqueryMarker m type)) := by
  unfold deparseMarker at h
  cases hs : subs m with
  | none => simp [hs] at h
  | some s =>
    simp only [hs] at h
    cases hj : s.join.type <;> simp only [hj, Option.some.injEq] at h <;> subst h <;>
      simp only [printed, printsNotIn, hs, hj, skeleton_cons, skeleton_nil, Tok.map] <;>
      first | exact ReadsUnit.atom _ | exact ReadsUnit.negAtom _

private theorem printed_atom {e : Expr} (hb : e.isBoolPredicate = false)
    (hm : ∀ m t, e ≠ .whereSubqueryMarker m t) : printed subs e = .atom e := by
  cases e with
  | boolPredicate op args => cases hb
  | whereSubqueryMarker m t => exact absurd rfl (hm m t)
  | _ => rfl

/-- A node that is no connective reads as a unit. -/
theorem readsUnit_of_not_bool {e : Expr} {ts : Text} (hb : e.isBoolPredicate = false)
    (h : deparsePredicate subs e = some ts) : ReadsUnit (skeleton ts) (printed subs e) := by
  by_cases hm : ∀ m t, e ≠ .whereSubqueryMarker m t
  · obtain ⟨s, rfl⟩ := deparsePredicate_atom hb hm h
    rw [printed_atom hb hm]
    exact ReadsUnit.atom e
  · push Not at hm
    obtain ⟨m, t, rfl⟩ := hm
    exact readsUnit_marker h

/-- The parenthesised argument of a connective reads as a unit. -/
private theorem readsUnit_operand {e : Expr} {ts : Text}
    (hor : ReadsOr (skeleton ts) (printed subs e)) (h : deparsePredicate subs e = some ts) :
    ReadsUnit (skeleton (operandText e ts)) (printed subs e) := by
  unfold operandText
  split
  · simpa [Tok.map] using hor.paren
  · next hb => exact readsUnit_of_not_bool (by simpa using hb) h

private theorem readsUnit_negated {e : Expr} {ts : Text}
    (hor : ReadsOr (skeleton ts) (printed subs e)) (h : deparsePredicate subs e = some ts) :
    ReadsUnit (skeleton (negatedText e ts)) (negatedCond e (printed subs e)) := by
  cases hb : e.isBoolPredicate with
  | true =>
    cases e <;> simp only [Expr.isBoolPredicate, Bool.false_eq_true] at hb
    simpa [negatedText, negatedCond, Tok.map] using hor.paren.not
  | false =>
    have hunit := readsUnit_of_not_bool hb h
    unfold negatedText negatedCond
    split <;> simp_all [Tok.map, Expr.isBoolPredicate, ReadsUnit.not]

/-- The arguments of a connective as separate units. -/
private theorem forall₂_operands {args : List Expr} {tss : List Text}
    (htss : List.Forall₂ (fun e ts => deparsePredicate subs e = some ts) args tss)
    (hor : ∀ a ∈ args, ∀ ts, deparsePredicate subs a = some ts →
      ReadsOr (skeleton ts) (printed subs a)) :
    List.Forall₂ ReadsUnit
      (((args.zip tss).map fun a => operandText a.1 a.2).map skeleton)
      (args.map (printed subs)) := by
  induction htss with
  | nil => exact .nil
  | @cons e ts es tss h _ ih =>
    exact .cons (readsUnit_operand (hor e (by simp) ts h) h)
      (ih fun a ha => hor a (List.mem_cons_of_mem _ ha))

/-- The text of an operand list as separate operands. -/
def operandTexts (args : List Expr) (tss : List Text) : List Text :=
  (args.zip tss).map fun a => operandText a.1 a.2

private theorem operandTexts_ne_nil {args : List Expr} {tss : List Text}
    (htss : List.Forall₂ (fun e ts => deparsePredicate subs e = some ts) args tss)
    (hne : args ≠ []) : operandTexts args tss ≠ [] := by
  cases htss with
  | nil => exact absurd rfl hne
  | cons _ _ => simp [operandTexts]

theorem boolText_and (args : List Expr) (tss : List Text) :
    boolText .and (args.zip tss) = sepBy .and (operandTexts args tss) := by
  rw [operandTexts, ← dropLast_flatMap_eq_sepBy, boolText, List.flatMap_map]

theorem boolText_or (args : List Expr) (tss : List Text) :
    boolText .or (args.zip tss) = sepBy .or (operandTexts args tss) := by
  rw [operandTexts, ← dropLast_flatMap_eq_sepBy, boolText, List.flatMap_map]

/-- The text of a boolean predicate reads as the condition `printed` computes. -/
theorem readsOr_deparsePredicate {e : Expr} (he : IsBoolean e) {ts : Text}
    (h : deparsePredicate subs e = some ts) : ReadsOr (skeleton ts) (printed subs e) := by
  induction he generalizing ts with
  | connective op args hop hne _ ih =>
    obtain ⟨tss, htss, rfl⟩ := deparsePredicate_bool h
    have hunits := forall₂_operands htss fun a ha ts hts => ih a ha hts
    have hne' : (operandTexts args tss).map skeleton ≠ [] := by
      simpa using operandTexts_ne_nil htss hne
    cases op with
    | and =>
      rw [boolText_and, skeleton_sepBy, printed, printeds_eq_map]
      exact (ReadsAnd.sepBy_and hunits hne').toOr
    | or =>
      rw [boolText_or, skeleton_sepBy, printed, printeds_eq_map]
      exact ReadsOr.sepBy_or (hunits.imp fun _ _ h => h.toAnd) hne'
    | not => exact absurd rfl hop
  | not a _ ih =>
    obtain ⟨tss, htss, rfl⟩ := deparsePredicate_bool h
    obtain ⟨ts, hts, rfl⟩ : ∃ ts, deparsePredicate subs a = some ts ∧ tss = [ts] := by
      cases htss with
      | cons h₁ h₂ => cases h₂; exact ⟨_, h₁, rfl⟩
    have hunit := readsUnit_negated (ih hts) hts
    simpa [boolText, printed, printedNegations, Cond.all] using hunit.toAnd.toOr
  | atom e hb => exact (readsUnit_of_not_bool hb h).toAnd.toOr

/-- The operand texts of AND and OR read as units. -/
theorem readsUnit_operandTexts {args : List Expr} {tss : List Text}
    (hargs : ∀ a ∈ args, IsBoolean a)
    (htss : List.Forall₂ (fun e ts => deparsePredicate subs e = some ts) args tss) :
    List.Forall₂ ReadsUnit ((operandTexts args tss).map skeleton)
      (args.map (printed subs)) :=
  forall₂_operands htss fun a ha _ hts => readsOr_deparsePredicate (hargs a ha) hts

/-- The text of a NOT reads as a unit. -/
theorem readsUnit_not {a : Expr} (ha : IsBoolean a) {ts : Text}
    (h : deparsePredicate subs (.boolPredicate .not [a]) = some ts) :
    ReadsUnit (skeleton ts) (printed subs (.boolPredicate .not [a])) := by
  obtain ⟨tss, htss, rfl⟩ := deparsePredicate_bool h
  cases htss with
  | cons hus hnil =>
    cases hnil
    have hunit := readsUnit_negated (readsOr_deparsePredicate ha hus) hus
    simpa [boolText, printed, printedNegations, Cond.all] using hunit

/-- The printer renders the predicate faithfully: its text is not empty and, read with
SQL precedence, has the truth value of the predicate under every valuation. -/
def Faithful (subs : Nat → Option Subquery) (e : Expr) : Prop :=
  ∃ ts c, deparsePredicate subs e = some ts ∧ render ts ≠ "" ∧ read (skeleton ts) = some c ∧
    ∀ v, c.eval v = (meaning e).eval v

theorem Faithful.eval_printed {e : Expr} (h : Faithful subs e) (he : IsBoolean e)
    (v : Expr → Logic.ThreeValued.Truth) : (printed subs e).eval v = (meaning e).eval v := by
  obtain ⟨ts, c, hts, -, hread, hval⟩ := h
  have hc : some (printed subs e) = some c :=
    (readsOr_deparsePredicate he hts).read_eq.symm.trans hread
  rw [Option.some.inj hc, hval]

theorem Faithful.render_ne_empty {e : Expr} (h : Faithful subs e) {ts : Text}
    (hts : deparsePredicate subs e = some ts) : render ts ≠ "" := by
  obtain ⟨us, c, hus, hne, -, -⟩ := h
  rwa [Option.some.inj (hts.symm.trans hus)]

theorem faithful_of_printed {e : Expr} (he : IsBoolean e) {ts : Text}
    (hts : deparsePredicate subs e = some ts) (hne : render ts ≠ "")
    (hval : ∀ v, (printed subs e).eval v = (meaning e).eval v) : Faithful subs e :=
  ⟨ts, printed subs e, hts, hne, (readsOr_deparsePredicate he hts).read_eq, hval⟩

end SqlOptimizer.Deparse.PredicateText
