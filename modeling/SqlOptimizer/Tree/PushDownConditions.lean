import SqlOptimizer.Tree.PushDownRun
import Mathlib.Algebra.BigOperators.Group.Multiset.Basic
import Mathlib.Algebra.Order.Group.Multiset
import Mathlib.Tactic.Abel

/-!
The conditions of a tree under `push_down_predicates`. A conjunct is lost when it arrives
at a node that carries a bare subquery marker, because the routine that merges
predicates has no branch for it.
-/

set_option autoImplicit false
set_option relaxedAutoImplicit false

namespace SqlOptimizer.Tree.PushDownConditions

open Algebra.RelationalAlgebra
open Frames Walks PushDown PushDownRun
open Logic.Runs (AtEveryStep Carries)

mutual

/-- The conjuncts of a condition, split at every AND. -/
def conjuncts : Expr → List Expr
  | .nullptr => []
  | .boolPredicate .and args => allConjuncts args
  | e => [e]

def allConjuncts : List Expr → List Expr
  | [] => []
  | e :: es => conjuncts e ++ allConjuncts es

end

theorem allConjuncts_append (es es' : List Expr) :
    allConjuncts (es ++ es') = allConjuncts es ++ allConjuncts es' := by
  induction es with
  | nil => rfl
  | cons e es ih => simp [allConjuncts, ih]

/-- Comparisons, null tests, bare markers, OR and NOT, joined by AND to any depth. -/
inductive IsCondition : Expr → Prop
  | and (args : List Expr) : (∀ a ∈ args, IsCondition a) → IsCondition (.boolPredicate .and args)
  | or (args : List Expr) : IsCondition (.boolPredicate .or args)
  | not (args : List Expr) : IsCondition (.boolPredicate .not args)
  | predicate (l r : Expr) (op : String) : IsCondition (.predicate l r op)
  | nullTest (arg : Expr) (type : NullTestType) : IsCondition (.nullTest arg type)
  | marker (m : Nat) (type : JoinType) : IsCondition (.whereSubqueryMarker m type)

/-- The conjuncts of a condition are not split any further. -/
theorem IsCondition.conjuncts_eq {p : Expr} (h : IsCondition p) :
    splitSelectionPredicates p = some (conjuncts p) ∧ ∀ c ∈ conjuncts p, conjuncts c = [c] := by
  induction h with
  | and args _ ih =>
    rw [splitSelectionPredicates, conjuncts]
    clear * - ih
    induction args with
    | nil => exact ⟨rfl, by simp [allConjuncts]⟩
    | cons a args iha =>
      rw [List.forall_mem_cons] at ih
      obtain ⟨hsplit, hatoms⟩ := iha ih.2
      refine ⟨by simp [splitAll, allConjuncts, ih.1.1, hsplit], ?_⟩
      rw [allConjuncts, List.forall_mem_append]
      exact ⟨ih.1.2, hatoms⟩
  | _ => exact ⟨rfl, by simp [conjuncts]⟩

/-- The top-level conjuncts of all Selection and join predicates of a tree. -/
def conditions : RaNode → Multiset Expr
  | .hole => 0
  | .leaf _ _ => 0
  | .unary _ (.selection p) c => conjuncts p + conditions c
  | .unary _ _ c => conditions c
  | .join _ join l r => conjuncts join.predicate + (conditions l + conditions r)

def frameConditions : Frame → Multiset Expr
  | .unary _ (.selection p) => conjuncts p
  | .unary _ _ => 0
  | .left _ join r => conjuncts join.predicate + conditions r
  | .right _ join l => conjuncts join.predicate + conditions l

theorem conditions_plug (K : List Frame) (t : RaNode) :
    conditions (plug K t) = (K.map frameConditions).sum + conditions t := by
  induction K generalizing t with
  | nil => simp
  | cons f K ih =>
    have hframe : conditions (f.plug t) = frameConditions f + conditions t := by
      cases f with
      | unary i op => cases op <;> simp [Frame.plug, conditions, frameConditions]
      | left i j r =>
        simp only [Frame.plug, conditions, frameConditions]
        abel
      | right i j l =>
        simp only [Frame.plug, conditions, frameConditions]
        abel
    rw [plug_cons, ih, hframe, List.map_cons, List.sum_cons]
    abel

/-- The kinds of present predicates for which `add_predicate_to_selection` and
`add_predicate_to_join` have a branch. -/
def absorbs : Expr → Bool
  | .nullptr => true
  | .boolPredicate _ _ => true
  | .predicate _ _ _ => true
  | .nullTest _ _ => true
  | _ => false

theorem conjuncts_addPredicate {present c : Expr} (hc : conjuncts c = [c]) :
    conjuncts (addPredicate present c) =
      conjuncts present ++ if absorbs present then [c] else [] := by
  cases present with
  | boolPredicate op args =>
    cases op <;> simp [addPredicate, conjuncts, allConjuncts_append, allConjuncts, hc, absorbs]
  | _ => simp [addPredicate, conjuncts, allConjuncts, hc, absorbs]

/-- Attaching a conjunct adds it to the conditions when the present predicate absorbs
it, and changes nothing otherwise. -/
theorem conditions_attachment {n : Nat} {c present : Expr} {x x' : RaNode}
    (h : Attachment n c x x' present) (hc : conjuncts c = [c]) :
    conditions x' = conditions x + if absorbs present then {c} else 0 := by
  cases h with
  | join i join l r =>
    simp only [addPredicateToJoin, conditions, conjuncts_addPredicate hc]
    split
    · simp only [← Multiset.coe_add, Multiset.coe_singleton]
      abel
    · simp
  | selection i p child =>
    simp only [conditions, conjuncts_addPredicate hc]
    split
    · simp only [← Multiset.coe_add, Multiset.coe_singleton]
      abel
    · simp
  | newSelection x hx => simp [conditions, hc, absorbs, add_comm]

/-- The node that a conjunct arrives at has no predicate yet, or a comparison, a null
test or a boolean predicate: no bare subquery marker. -/
def Absorbed (cpToJoin : Bool) (t : RaTree) : Step → Prop
  | .place i c rels =>
      ∀ pos, stepPosition cpToJoin t i c rels = some pos → absorbs (pos.present t.root) = true
  | .removeIfEmpty _ => True

instance (cp : Bool) (t : RaTree) : (s : Step) → Decidable (Absorbed cp t s)
  | .place i c rels =>
      match h : stepPosition cp t i c rels with
      | none => .isTrue (by simp [Absorbed, h])
      | some pos =>
          decidable_of_iff (absorbs (pos.present t.root) = true) (by simp [Absorbed, h])
  | .removeIfEmpty _ => .isTrue trivial

/-- The conjunct that a step has in hand. -/
def stepConditions : Step → Multiset Expr
  | .place _ c _ => {c}
  | .removeIfEmpty _ => 0

/-- The conditions of the tree and of the steps that are still to come. -/
def pendingConditions (pending : List Step) (t : RaTree) : Multiset Expr :=
  conditions t.root + (pending.map stepConditions).sum

/-- The run invariant, with conjuncts that are not split any further. -/
def ConditionInvariant (original : RaNode) (pending : List Step) (t : RaTree) : Prop :=
  RunInvariant original pending t ∧
    ∀ i c rels, Step.place i c rels ∈ pending → conjuncts c = [c]

private theorem conditionInvariant_carries (cp : Bool) (original : RaNode) :
    Carries (step cp) (ConditionInvariant original) := by
  intro s ss t h
  obtain ⟨t', hstep, ht'⟩ := runInvariant_carries cp original s ss t h.1
  exact ⟨t', hstep, ht', fun i c rels hmem => h.2 i c rels (List.mem_cons_of_mem _ hmem)⟩

/-- One step keeps the conditions, or loses the conjunct it has in hand. -/
private theorem pendingConditions_step {cp : Bool} {original : RaNode} {s : Step}
    {ss : List Step} {t t' : RaTree} (h : ConditionInvariant original (s :: ss) t)
    (hstep : step cp t s = some t') :
    (Absorbed cp t s ∧ pendingConditions ss t' = pendingConditions (s :: ss) t) ∨
      (¬ Absorbed cp t s ∧ ∃ c, pendingConditions (s :: ss) t = {c} + pendingConditions ss t') := by
  obtain ⟨p, child, hfind, -⟩ := h.1.next
  cases s with
  | place i c rels =>
    have hfind' : find? i t.root = some (.selection i p child) := hfind
    obtain ⟨pos, _, inner, before, after, hpos, -, hatt, -, -⟩ :=
      stepPosition_spec cp h.1.wellFormed hfind' c rels
    rw [step, hpos, Option.map_some, Option.some.injEq] at hstep
    subst hstep
    have hc := h.2 i c rels List.mem_cons_self
    have hroot : conditions (attach c t pos).root =
        conditions t.root + if absorbs (pos.present t.root) then {c} else 0 := by
      rw [hatt.root_eq', conditions_plug, conditions_attachment hatt.attachment hc, ← add_assoc,
        ← conditions_plug, ← hatt.root_eq]
    have habs : Absorbed cp t (.place i c rels) ↔ absorbs (pos.present t.root) = true := by
      simp [Absorbed, hpos]
    simp only [pendingConditions, hroot, habs, List.map_cons, List.sum_cons, stepConditions]
    cases absorbs (pos.present t.root) with
    | true => exact .inl ⟨rfl, by simp only [if_true]; abel⟩
    | false => exact .inr ⟨by simp, c, by simp only [Bool.false_eq_true, if_false]; abel⟩
  | removeIfEmpty i =>
    refine .inl ⟨trivial, ?_⟩
    obtain ⟨t'', hstep', ht''⟩ := step_removeIfEmpty cp h.1.wellFormed hfind
    obtain rfl : t'' = t' := Option.some.inj (hstep'.symm.trans hstep)
    rcases ht'' with ⟨-, rfl⟩ | ⟨rfl, f, K, hroot, rfl⟩
    · simp [pendingConditions, stepConditions]
    · have hsame : conditions (plug (f :: K) child) = conditions t.root := by
        rw [hroot, conditions_plug, conditions_plug]
        simp [conditions, conjuncts]
      simp [pendingConditions, stepConditions, ← hsame]

theorem conditions_detachPredicates (t : RaNode) :
    conditions t = conditions (detachPredicates t) +
      ((getAllSelections t).map fun s => (conjuncts s.2.1 : Multiset Expr)).sum := by
  induction t with
  | hole => rfl
  | leaf i op => rfl
  | unary i op c ih =>
    cases op with
    | selection p =>
      simp only [conditions, detachPredicates, getAllSelections, List.map_cons, List.sum_cons, ih,
        conjuncts, Multiset.coe_nil]
      abel
    | _ => simpa [conditions, detachPredicates, getAllSelections] using ih
  | join i j l r ihl ihr =>
    simp only [conditions, detachPredicates, getAllSelections, List.map_append, List.sum_append]
    rw [ihl, ihr]
    abel

/-- The steps carry the conjuncts of the Selections, each one once. -/
private theorem stepConditions_flatten {sels : List (Nat × Expr × RaNode)}
    {sss : List (List Step)} (hcond : ∀ s ∈ sels, IsCondition s.2.1)
    (h : List.Forall₂ (fun s ss => selectionSteps s.1 s.2.1 = some ss) sels sss) :
    (sss.flatten.map stepConditions).sum =
        (sels.map fun s => (conjuncts s.2.1 : Multiset Expr)).sum ∧
      ∀ i c rels, Step.place i c rels ∈ sss.flatten → conjuncts c = [c] := by
  induction h with
  | nil => exact ⟨rfl, by simp⟩
  | @cons sel ss sels sss hsel _ ih =>
    rw [List.forall_mem_cons] at hcond
    obtain ⟨hsum, hatoms⟩ := ih hcond.2
    obtain ⟨hsplit, hone⟩ := hcond.1.conjuncts_eq
    simp only [selectionSteps, hsplit, Option.bind_some, Option.map_eq_some_iff] at hsel
    obtain ⟨places, hplaces, rfl⟩ := hsel
    have hplaced : (places.map stepConditions).sum = (conjuncts sel.2.1 : Multiset Expr) ∧
        ∀ i c rels, Step.place i c rels ∈ places → conjuncts c = [c] := by
      rw [Logic.Runs.mapM_eq_some_iff] at hplaces
      clear hsplit
      generalize conjuncts sel.2.1 = cs at hplaces hone ⊢
      induction hplaces with
      | nil => exact ⟨rfl, by simp⟩
      | cons hc _ ihc =>
        rw [List.forall_mem_cons] at hone
        obtain ⟨hsum', hatoms'⟩ := ihc hone.2
        obtain ⟨rels, -, rfl⟩ := Option.map_eq_some_iff.mp hc
        refine ⟨by simp [stepConditions, hsum'], fun i c rels hmem => ?_⟩
        rcases List.mem_cons.mp hmem with heq | hmem
        · cases heq
          exact hone.1
        · exact hatoms' i c rels hmem
    refine ⟨?_, fun i c rels hmem => ?_⟩
    · simp only [List.flatten_cons, List.map_append, List.sum_append, List.map_cons, List.map_nil,
        List.sum_cons, List.sum_nil, hplaced.1, hsum, stepConditions, add_zero]
    · simp only [List.flatten_cons, List.mem_append, List.mem_singleton, reduceCtorEq,
        or_false] at hmem
      exact hmem.elim (hplaced.2 i c rels) (hatoms i c rels)

/-- The relations of every conjunct can be collected, so the second loop starts. -/
theorem steps_isSome_iff {root : RaNode}
    (hcond : ∀ s ∈ getAllSelections root, IsCondition s.2.1) :
    (∃ ss, steps root = some ss) ↔
      ∀ s ∈ getAllSelections root, ∀ c ∈ conjuncts s.2.1, (getPredicateRelations c).isSome := by
  have hmapM {α β : Type} (f : α → Option β) (l : List α) :
      (∃ bs, l.mapM f = some bs) ↔ ∀ a ∈ l, (f a).isSome := by
    simp only [Logic.Runs.mapM_eq_some_iff]
    induction l with
    | nil => simp
    | cons a l ih =>
      rw [List.forall_mem_cons, ← ih, Option.isSome_iff_exists]
      simp only [List.forall₂_cons_left_iff]
      constructor
      · rintro ⟨_, b, bs, hb, hbs, rfl⟩
        exact ⟨⟨b, hb⟩, bs, hbs⟩
      · rintro ⟨⟨b, hb⟩, bs, hbs⟩
        exact ⟨_, b, bs, hb, hbs, rfl⟩
  have hsel : (∃ ss, steps root = some ss) ↔
      ∀ s ∈ getAllSelections root, (selectionSteps s.1 s.2.1).isSome := by
    rw [← hmapM]
    simp [steps, Option.map_eq_some_iff]
  rw [hsel]
  refine forall₂_congr fun s hs => ?_
  rw [selectionSteps, (hcond s hs).conjuncts_eq.1, Option.bind_some, Option.isSome_map]
  rw [Option.isSome_iff_exists, hmapM]
  simp

/-- Push-down keeps the multiset of conjuncts exactly when no operand pointer that it
follows is null and no conjunct arrives at a node that carries a bare subquery marker
at that moment. -/
theorem pushDownPredicates_conditions_iff (cp : Bool) {t : RaTree} (ht : WellFormed t)
    (hcond : ∀ s ∈ getAllSelections t.root, IsCondition s.2.1) :
    (∃ t', pushDownPredicates cp t = some t' ∧ conditions t'.root = conditions t.root) ↔
      (∀ s ∈ getAllSelections t.root, ∀ c ∈ conjuncts s.2.1,
        (getPredicateRelations c).isSome) ∧
      ∀ ss, steps t.root = some ss → AtEveryStep (step cp) (Absorbed cp) ss (detached t) := by
  rw [← steps_isSome_iff hcond]
  -- with the steps at hand both sides speak of the run of the second loop
  have hrun (ss : List Step) (hss : steps t.root = some ss) :
      ∃ t', pushDownPredicates cp t = some t' ∧
        (conditions t'.root = conditions t.root ↔
          AtEveryStep (step cp) (Absorbed cp) ss (detached t)) := by
    obtain ⟨sss, hflat, hsels⟩ := steps_eq_some_iff.mp hss
    obtain ⟨hsum, hatoms⟩ := stepConditions_flatten hcond hsels
    have hinv : ConditionInvariant t.root ss (detached t) :=
      ⟨runInvariant_detached ht hss, hflat ▸ hatoms⟩
    obtain ⟨t', ht', -⟩ := (conditionInvariant_carries cp t.root).exists_run hinv
    have hstart : pendingConditions ss (detached t) = conditions t.root := by
      rw [pendingConditions, hflat, hsum, conditions_detachPredicates t.root, detached]
    have hiff := (conditionInvariant_carries cp t.root).run_eq_iff
      (μ := pendingConditions) (P := Absorbed cp)
      (fun a as s s' hI hs => by
        rcases pendingConditions_step hI hs with ⟨-, heq⟩ | ⟨-, c, heq⟩
        · exact heq.le
        · rw [heq]
          exact Multiset.le_add_left _ _)
      (fun a as s s' hI hs => by
        rcases pendingConditions_step hI hs with ⟨hP, heq⟩ | ⟨hP, c, heq⟩
        · simp [hP, heq]
        · refine iff_of_false (fun hsame => ?_) hP
          have hcard := congrArg Multiset.card (hsame.trans heq)
          simp at hcard)
      hinv ht'
    refine ⟨t', by simp [pushDownPredicates, hss, ht'], ?_⟩
    rw [← hiff.2, hstart]
    simp [pendingConditions]
  constructor
  · rintro ⟨t', ht', heq⟩
    obtain ⟨ss, hss⟩ : ∃ ss, steps t.root = some ss := by
      rw [pushDownPredicates, Option.bind_eq_some_iff] at ht'
      exact ⟨_, ht'.choose_spec.1⟩
    refine ⟨⟨ss, hss⟩, fun ss' hss' => ?_⟩
    obtain ⟨t'', ht'', hiff⟩ := hrun ss' hss'
    obtain rfl : t'' = t' := Option.some.inj (ht''.symm.trans ht')
    exact hiff.mp heq
  · rintro ⟨⟨ss, hss⟩, hall⟩
    obtain ⟨t', ht', hiff⟩ := hrun ss hss
    exact ⟨t', ht', hiff.mpr (hall ss hss)⟩

/-- `select * from o where exists (select * from i where <predicate>)`, where the inner
FROM clause carries the uncorrelated subquery `exists (select * from k)`. -/
def nestedExists (predicate : Expr) : RaTree where
  root :=
    .projection 0 { args := [.selectExpression (.attribute "*" "") ""] }
      (.selection 1 (.whereSubqueryMarker 2 .semiLeftDependent)
        (.join 2 { type := .semiLeftDependent, marker := 2 } (.relation 3 "o" "")
          (.projection 4 { args := [.selectExpression (.attribute "*" "") ""] }
            (.selection 5 predicate
              (.join 6 { type := .semiLeft, marker := 1 } (.relation 7 "i" "")
                (.projection 8 { args := [.selectExpression (.attribute "*" "") ""] }
                  (.relation 9 "k" "")))))))
  nextId := 10

private theorem wellFormed_nestedExists (p : Expr) : WellFormed (nestedExists p) := by
  refine ⟨?_, ⟨trivial, trivial, trivial⟩, ?_, rfl⟩
  · simp only [Distinct, nestedExists, RaNode.ids]
    decide
  · simp only [nestedExists, RaNode.ids]
    decide

private theorem isCondition_nestedExists {p : Expr} (hp : IsCondition p) :
    ∀ s ∈ getAllSelections (nestedExists p).root, IsCondition s.2.1 := by
  simp only [nestedExists, getAllSelections, List.append_nil, List.nil_append,
    List.forall_mem_cons, List.not_mem_nil, false_implies, implies_true, and_true]
  exact ⟨.marker _ _, hp⟩

/-- The comparison `i.a=o.b` that correlates the subquery. -/
def correlation : Expr := .predicate (.attribute "a" "i") (.attribute "b" "o") "="

/-- With the marker first, `exists (select * from k) and i.a=o.b` loses its second
conjunct: it cannot be pushed below the Selection, where the marker already is. -/
theorem nestedExists_loses_condition :
    ¬ ∀ (cp : Bool) (t : RaTree), WellFormed t →
      (∀ s ∈ getAllSelections t.root, IsCondition s.2.1) →
      ∃ t', pushDownPredicates cp t = some t' ∧ conditions t'.root = conditions t.root := by
  intro h
  obtain ⟨t', ht', heq⟩ := h false
    (nestedExists (.boolPredicate .and [.whereSubqueryMarker 1 .semiLeft, correlation]))
    (wellFormed_nestedExists _) (isCondition_nestedExists (.and _ (by
      simp only [List.forall_mem_cons, List.not_mem_nil, false_implies, implies_true, and_true]
      exact ⟨.marker _ _, .predicate _ _ _⟩)))
  have hcard := congrArg Multiset.card heq
  obtain rfl := Option.some.inj ht'
  revert hcard
  decide

/-- With the comparison first, both conjuncts are kept. -/
theorem nestedExists_keeps_conditions :
    ∃ t', pushDownPredicates false
        (nestedExists (.boolPredicate .and [correlation, .whereSubqueryMarker 1 .semiLeft])) =
          some t' ∧
      conditions t'.root = conditions
        (nestedExists (.boolPredicate .and [correlation, .whereSubqueryMarker 1 .semiLeft])).root := by
  refine (pushDownPredicates_conditions_iff false (wellFormed_nestedExists _)
    (isCondition_nestedExists (.and _ ?_))).mpr ⟨?_, ?_⟩
  · simp only [List.forall_mem_cons, List.not_mem_nil, false_implies, implies_true, and_true]
    exact ⟨.predicate _ _ _, .marker _ _⟩
  · simp only [nestedExists, getAllSelections, List.append_nil, List.nil_append,
      List.forall_mem_cons, List.not_mem_nil, false_implies, implies_true, and_true]
    decide
  · intro ss hss
    obtain rfl := Option.some.inj hss
    decide

end SqlOptimizer.Tree.PushDownConditions
