import SqlOptimizer.Tree.OuterJoins
import SqlOptimizer.Unnesting.ClosedCtes
import SqlOptimizer.Unnesting.ExistsRows

/-!
The rows of a statement under `optimize`. Both runs of `push_down_predicates` and the pass over the
EXISTS and IN subqueries keep them; a statement without correlated scalar subqueries goes through
no other pass.
-/

set_option autoImplicit false
set_option relaxedAutoImplicit false

namespace SqlOptimizer.Unnesting.OptimizedRows

open Algebra.RelationalAlgebra
open Tree.Frames Tree.Walks Tree.PushDown Tree.PushDownRun Tree.PushDownConditions
open Tree.PushDownMeaning Tree.OuterJoins Tree.RelationNames
open Logic.Runs (AtEveryStep)
open Logic.Triples
open Parse.PgQuery Parse.Builder Parse.ParseSqlToRa Parse.Supported
open Semantics.Evaluation Semantics.References Semantics.Equivalence
open Objects Attributes Markers ExistsIn DecorrelateSubquery Passes CteOrder ProbeTruth SelectLists
open ClosedCtes (wellFormed_ofParser)
open QueryRows LiftedRows ExistsRows

section

variable {V : Type}

mutual

/-- Whether an expression is a condition. -/
def isCondition : Expr → Bool
  | .boolPredicate .and args => areConditions args
  | .boolPredicate _ _ => true
  | .predicate _ _ _ => true
  | .nullTest _ _ => true
  | .whereSubqueryMarker _ _ => true
  | _ => false

def areConditions : List Expr → Bool
  | [] => true
  | e :: es => isCondition e && areConditions es

end

theorem isCondition_iff {e : Expr} : isCondition e = true ↔ IsCondition e := by
  induction e using Expr.ind with
  | boolPredicate op args ih =>
    cases op with
    | and =>
      have hall : areConditions args = true ↔ ∀ a ∈ args, IsCondition a := by
        induction args with
        | nil => simp [areConditions]
        | cons a args iha =>
          rw [List.forall_mem_cons] at ih
          rw [areConditions, Bool.and_eq_true, ih.1, iha ih.2, List.forall_mem_cons]
      rw [isCondition, hall]
      exact ⟨.and args, fun h => by cases h; assumption⟩
    | or => exact iff_of_true rfl (.or args)
    | not => exact iff_of_true rfl (.not args)
  | predicate l r op => exact iff_of_true rfl (.predicate l r op)
  | nullTest e type => exact iff_of_true rfl (.nullTest e type)
  | whereSubqueryMarker m type => exact iff_of_true rfl (.marker m type)
  | _ => exact iff_of_false (by simp [isCondition]) fun h => by cases h

instance (e : Expr) : Decidable (IsCondition e) := decidable_of_iff _ isCondition_iff

instance (db : Database V) (rs : List Reference) (f : Frame) : Decidable (Transparent db rs f) :=
  inferInstanceAs (Decidable (_ ∧ _))

/-- The node may be given another condition, if it is a join. -/
def takesCondition : Option RaNode → Bool
  | some (.join _ join _ _) => isPlainJoin join
  | _ => true

theorem takesCondition_iff {o : Option RaNode} : takesCondition o = true ↔
    ∀ k join l r, o = some (.join k join l r) → isPlainJoin join = true := by
  constructor
  · rintro h k join l r rfl
    exact h
  · intro h
    unfold takesCondition
    split
    · next k join l r => exact h k join l r rfl
    · rfl

/-- Whether a step takes its conjunct to a position where it says the same. -/
def isHarmless (cp : Bool) (db : Database V) (t : RaTree) : Step → Bool
  | .place i c rels =>
      match stepPosition cp t i c rels, find? i t.root with
      | some pos, some (.selection _ _ child) =>
          absorbs (pos.present t.root) &&
            (!(findNodeWhereRelationsDefined rels child).isSome ||
              (descent rels child).all fun f => Transparent db (references c) f) &&
            takesCondition (find? (pos.receiver t.nextId) (attach c t pos).root)
      | _, _ => true
  | .removeIfEmpty _ => true

private theorem harmless_of_isHarmless {cp : Bool} {db : Database V} {t : RaTree} {s : Step}
    (h : isHarmless cp db t s = true) : Harmless cp db t s := by
  cases s with
  | removeIfEmpty i => trivial
  | place i c rels =>
    intro pos p child hpos hfind
    simp only [isHarmless, hpos, hfind, Bool.and_eq_true, Bool.or_eq_true, Bool.not_eq_true',
      List.all_eq_true, decide_eq_true_eq, takesCondition_iff] at h
    obtain ⟨⟨habs, hdescent⟩, hplain⟩ := h
    refine ⟨habs, fun hsome f hf => ?_, hplain⟩
    rcases hdescent with hnone | hall
    · rw [hsome] at hnone
      cases hnone
    · exact hall f hf

private theorem isHarmless_of_harmless {cp : Bool} {db : Database V} {t : RaTree} {s : Step}
    (h : Harmless cp db t s) : isHarmless cp db t s = true := by
  cases s with
  | removeIfEmpty i => rfl
  | place i c rels =>
    simp only [isHarmless]
    split
    · next pos j p child hpos hfind =>
      obtain rfl : j = i := Option.some.inj (exists_plug_of_find? hfind).1
      obtain ⟨habs, hdescent, hplain⟩ := h pos p child hpos hfind
      simp only [Bool.and_eq_true, Bool.or_eq_true, Bool.not_eq_true', List.all_eq_true,
        decide_eq_true_eq]
      refine ⟨⟨habs, ?_⟩, takesCondition_iff.mpr hplain⟩
      rw [← Bool.not_eq_true]
      exact imp_iff_not_or.mp hdescent
    · rfl

instance (cp : Bool) (db : Database V) (t : RaTree) (s : Step) : Decidable (Harmless cp db t s) :=
  decidable_of_iff _ ⟨harmless_of_isHarmless, isHarmless_of_harmless⟩

end

section

variable {V : Type} [DecidableEq V] {I : Interpretation V} {db : Database V}

/-- The run of `push_down_predicates` on the tree takes every conjunct to a position where it says
the same. -/
def PushesHarmlessly (db : Database V) (t : RaTree) : Prop :=
  (∀ s ∈ getAllSelections t.root, IsCondition s.2.1) ∧
    ∃ ss ∈ steps t.root, AtEveryStep (step false) (Harmless false db) ss (detached t)

/-- The condition on a run of `optimize`: no condition changes its meaning on the way, all that
reads an outer query is lifted out of the EXISTS and IN subqueries, and no correlated scalar
subquery is found. -/
def OptimizesHarmlessly (db : Database V) (I : Interpretation V) (s : State) : Prop :=
  PushesHarmlessly (withTables I db s.tree.ctes) s.tree ∧
    ∀ s₁, outcome pushDown s = (.ok (), s₁) →
      ((markersJoins existsInTypes s₁.tree.root).isSome = true ∧
        ExistsRounds (RoundLifts db I) s₁) ∧
      ∀ s₂, outcome decorrelateAllExistsInSubqueries s₁ = (.ok (), s₂) →
        markersJoins [.dependentInnerLeft] s₂.tree.root = some [] ∧
          PushesHarmlessly (withTables I db s₂.tree.ctes) s₂.tree

instance (db : Database V) (t : RaTree) : Decidable (PushesHarmlessly db t) :=
  inferInstanceAs (Decidable (_ ∧ ∃ ss ∈ steps t.root,
    AtEveryStep (step false) (Harmless false db) ss (detached t)))

instance (db : Database V) (I : Interpretation V) (s : State) :
    Decidable (OptimizesHarmlessly db I s) :=
  inferInstanceAs (Decidable (PushesHarmlessly (withTables I db s.tree.ctes) s.tree ∧
    ∀ s₁, outcome pushDown s = (.ok (), s₁) →
      ((markersJoins existsInTypes s₁.tree.root).isSome = true ∧
        ExistsRounds (RoundLifts db I) s₁) ∧
      ∀ s₂, outcome decorrelateAllExistsInSubqueries s₁ = (.ok (), s₂) →
        markersJoins [.dependentInnerLeft] s₂.tree.root = some [] ∧
          PushesHarmlessly (withTables I db s₂.tree.ctes) s₂.tree))

theorem hasRows_pushDown {s : State} {rows : List (Tuple V)} (hs : HasRows db I rows s)
    (hpush : PushesHarmlessly (withTables I db s.tree.ctes) s.tree) :
    ∃ s', outcome pushDown s = (.ok (), s') ∧ HasRows db I rows s' := by
  obtain ⟨hcond, ss, hss, hsteps⟩ := hpush
  obtain ⟨t', hrun, hequiv⟩ :=
    pushDownPredicates_equivalent false hs.wellFormed hcond hss hsteps (I := I)
  refine ⟨{ s with tree := t' }, by rw [outcome_pushDown, hrun], ?_, ?_⟩
  · obtain ⟨t'', hloop, hinv⟩ := (runInvariant_carries false s.tree.root).exists_run
      (runInvariant_detached hs.wellFormed hss)
    have hrun' : pushDownPredicates false s.tree = some t'' := by
      rw [pushDownPredicates, hss]
      exact hloop
    obtain rfl : t' = t'' := Option.some.inj (hrun.symm.trans hrun')
    exact hinv.wellFormed
  · obtain ⟨hctes, -, -⟩ := pushDownPredicates_frame hrun
    rw [← hs.rows, queryRows, queryRows, hctes]
    exact hequiv.rows []

end

section

private def table (name : String) : PgNode := .rangeVar name none

private def equals (l r : List String) : PgNode := .aExpr .op "=" (.columnRef l) (.columnRef r)

private def isOne (column : List String) : PgNode :=
  .aExpr .op "=" (.columnRef column) (.aConst (.integer 1))

private def select (column : String) (item condition : PgNode) : PgNode :=
  .selectStmt false [.resTarget "" (.columnRef [column])] [item] condition [] .nullptr [] []

/-- `select * from r where r.b in (select a from s where s.a = r.a and s.b = 1)`. -/
def correlatedIn : PgNode :=
  select "*" (table "r") <| .subLink .any (.columnRef ["r", "b"]) <|
    select "a" (table "s") (.boolExpr .and [equals ["s", "a"] ["r", "a"], isOne ["s", "b"]])

/-- Two rows in every table. -/
def twoRows : Database Nat := fun _ => ⟨["a", "b"], [[some 1, some 1], [some 2, some 1]], by simp⟩

theorem symmetricEquality_equality : SymmetricEquality equality := by
  intro op _ xs ys
  have hsym : decide (xs = ys) = decide (ys = xs) := decide_eq_decide.mpr eq_comm
  simp only [equality, hsym, Bool.or_comm]

end

section

variable {V : Type} [DecidableEq V] {I : Interpretation V} {db : Database V}

/-- `optimize` ends, and the statement that it ends with has the rows of the parsed one. -/
theorem hasRows_optimize (hI : SymmetricEquality I) {s : State} {rows : List (Tuple V)}
    (hs : HasRows db I rows s) (h : OptimizesHarmlessly db I s) (fuel : Nat) :
    ∃ s', outcome (optimize fuel) s = (.ok (), s') ∧ HasRows db I rows s' := by
  obtain ⟨s₁, h₁, hs₁⟩ := hasRows_pushDown hs h.1
  obtain ⟨hrounds, hend⟩ := h.2 s₁ h₁
  obtain ⟨u, s₂, h₂, hs₂⟩ := (hasRows_exists hI).exists_ok ⟨hs₁, hrounds⟩
  obtain ⟨hnone, hpush⟩ := hend s₂ h₂
  have h₃ : outcome (generalQueryUnnesting fuel) s₂ = (.ok (), s₂) := by
    change outcome (orCrash (markersJoins [.dependentInnerLeft] s₂.tree.root) >>= fun pairs =>
      pairs.reverse.forM (markerRound (decorrelateSubquery fuel))) s₂ = _
    rw [hnone]
    rfl
  obtain ⟨s₄, h₄, hs₄⟩ := hasRows_pushDown hs₂ hpush
  refine ⟨s₄, ?_, hs₄⟩
  exact outcome_bind_eq_ok.mpr ⟨(), s₁, h₁, outcome_bind_eq_ok.mpr ⟨(), s₂, h₂,
    outcome_bind_eq_ok.mpr ⟨(), s₂, h₃, h₄⟩⟩⟩

end

/-- `select * from r where r.b = 1 and exists (select * from s where s.a = r.a and exists (select *
from u where u.b = s.b))`. -/
def nestedExists : PgNode :=
  select "*" (table "r") <| .boolExpr .and
    [isOne ["r", "b"],
      .subLink .exists .nullptr <| select "*" (table "s") <| .boolExpr .and
        [equals ["s", "a"] ["r", "a"],
          .subLink .exists .nullptr <| select "*" (table "u") (equals ["u", "b"] ["s", "b"])]]

end SqlOptimizer.Unnesting.OptimizedRows
