import SqlOptimizer.Tree.Addresses
import SqlOptimizer.Unnesting.ClosedTrees
import SqlOptimizer.Unnesting.CteOrder
import SqlOptimizer.Unnesting.FirstSelection

/-!
The CTEs that the pass over the EXISTS and IN subqueries appends. The conjuncts that are
lifted out of a subquery are as many as it has correlating predicates, from the front.
-/

set_option autoImplicit false
set_option relaxedAutoImplicit false

namespace SqlOptimizer.Unnesting.ClosedCtes

open Algebra.RelationalAlgebra
open Tree.Addresses Tree.Frames Tree.Walks Tree.PushDown Tree.PushDownRun
open Logic.NumberedNames Logic.Triples
open Semantics.References
open Parse.PgQuery Parse.Builder Parse.ParseSqlToRa Parse.Supported Parse.ParsedTree
open Objects Attributes Markers ExistsIn DecorrelateSubquery ClosedTrees CteOrder FirstSelection
open Passes

section

variable {relationsAliases : List (String × String)}

private theorem isCovered_of_foundRelation {a : AttributeRef}
    (h : foundRelation relationsAliases a = true) :
    isCovered relationsAliases a.1 a.2 = true := by
  obtain ⟨r, hr, hfound⟩ := List.any_eq_true.mp h
  refine List.any_eq_true.mpr ⟨r, hr, ?_⟩
  simp only [Bool.or_eq_true, Bool.and_eq_true, decide_eq_true_eq] at hfound ⊢
  tauto

private theorem bound_args {qs : List CorrelatingPredicate} {scope : Scope} {cteName : String}
    (h : ∀ q ∈ qs, isCovered scope q.inner.1 q.inner.2 = true) :
    Bound scope (cteProjectionOf cteName qs).args := by
  intro e he a ha
  obtain ⟨q, hq, rfl⟩ := List.mem_map.mp he
  obtain ⟨r, hr, hnamed⟩ := List.mem_filterMap.mp ha
  obtain rfl := List.mem_singleton.mp hr
  simp only [namedColumn, Option.ite_none_left_eq_some, Option.some.injEq] at hnamed
  exact hnamed.2 ▸ h q hq

/-- What is left of the condition of the first Selection is bound when its conjuncts are. -/
private theorem bound_remaining {scope : Scope} {p : Expr} {n : Nat} {rest : Option Expr}
    (h : remainingPredicate p n = some rest) :
    Bound scope (conjunctsFrom n p) ↔ Bound scope rest.toList := by
  cases p with
  | boolPredicate op args =>
    simp only [remainingPredicate, Option.ite_none_left_eq_some] at h
    obtain ⟨-, -, h⟩ := h
    rw [conjunctsFrom]
    split at h <;> cases h
    · next hdrop => rw [hdrop]; rfl
    · next e hdrop => rw [hdrop]; rfl
    · generalize args.drop n = es
      have hall : attributesOf (.boolPredicate op es) = es.flatMap attributesOf := by
        simp only [attributesOf, references, allReferences_eq_flatMap, List.filterMap_flatMap]
        rfl
      simp only [Bound, Option.toList_some, List.forall_mem_singleton, hall, List.mem_flatMap,
        forall_exists_index, and_imp]
      exact ⟨fun h a e he ha => h e he a ha, fun h e he a ha => h a e he ha⟩
  | _ =>
    cases h
    rfl

end

section

variable {f : Frame} {K : List Frame} {sel : Nat} {p : Expr} {c t : RaNode}

/-- Without its correlating predicates, the tree has the rest of the condition at the position of
the first Selection, if anything is left of it. -/
private theorem removeCorrelatingPredicates_plug {n : Nat}
    (hd : Distinct (plug (f :: K) (.selection sel p c)))
    (h : removeCorrelatingPredicates sel p n (plug (f :: K) (.selection sel p c)) = some t) :
    ∃ x, t = plug (f :: K) x ∧ core x = core c ∧ x.ids.Sublist (sel :: c.ids) ∧
      ∀ scope, Closed scope x ↔ Bound scope (conjunctsFrom n p) ∧ Closed scope c := by
  obtain ⟨rest, hrest, h⟩ := Option.bind_eq_some_iff.mp h
  cases rest with
  | none =>
    refine ⟨c, ((removeSelection_plug_iff hd).mp h).2.2, rfl, List.sublist_cons_self _ _, fun scope => ?_⟩
    rw [bound_remaining hrest]
    simp [Bound]
  | some e =>
    obtain rfl := Option.some.inj h
    refine ⟨.selection sel e c, update_plug_of_id? hd rfl _, rfl, List.Sublist.refl _,
      fun scope => ?_⟩
    rw [bound_remaining hrest]
    rfl

end

section

variable {w : Rewriting} {join : Nat} {s : State} (hw : w.Applies join s)
  (hbody : Addressed s.tree.nextId w.body)

include hw hbody

/-- The CTE with its position of the first Selection of the subquery. -/
private theorem exists_cte : ∃ K c x,
    w.body = plug K (.selection w.selection w.predicate c) ∧
    w.cte = .projection s.tree.nextId
      (cteProjectionOf (numbered "cte_" s.tree.counter) w.correlating) (plug K x) ∧
    core x = core c ∧ x.ids.Sublist (w.selection :: c.ids) ∧
    (∀ scope, Closed scope x ↔
      Bound scope (conjunctsFrom w.correlating.length w.predicate) ∧ Closed scope c) ∧
    ∀ n scope, ClosedBut n scope w.body ↔ ContextClosed scope K c ∧
      Bound (scopeAt scope K c) (conjunctsFrom n w.predicate) ∧
        Closed (scopeAt scope K c) c := by
  obtain ⟨K, c, hK, hiff⟩ := exists_firstSelection hw.selection
  have hcte := hw.cte
  generalize cteProjectionOf (numbered "cte_" s.tree.counter) w.correlating = pr at hcte ⊢
  have htop : RaNode.projection s.tree.nextId pr w.body =
      plug (K ++ [.unary s.tree.nextId (.projection pr)])
        (.selection w.selection w.predicate c) := by
    simp [hK, Frame.plug]
  have hd : Distinct (.projection s.tree.nextId pr w.body) :=
    List.nodup_cons.mpr ⟨fun hmem => Nat.lt_irrefl _ (hbody.fresh _ hmem), hbody.distinct⟩
  obtain ⟨f, L, hfL⟩ : ∃ f L, K ++ [.unary s.tree.nextId (.projection pr)] = f :: L :=
    List.exists_cons_of_ne_nil (by simp)
  rw [htop, hfL] at hd hcte
  obtain ⟨x, hx, hcore, hids, hclosed⟩ := removeCorrelatingPredicates_plug hd hcte
  refine ⟨K, c, x, hK, ?_, hcore, hids, hclosed, hiff⟩
  rw [hx, ← hfL]
  simp [Frame.plug]

/-- The CTE is closed when the body is, but for the conjuncts that are lifted out of it. -/
theorem closed_cte_iff : Closed [] w.cte ↔
    ClosedBut w.correlating.length (getRelationsAliases w.body) w.body := by
  obtain ⟨K, c, x, hK, hcte, hcore, -, hclosed, hiff⟩ := exists_cte hw hbody
  have hrel : getRelationsAliases (plug K x) = getRelationsAliases w.body := by
    have hsel := core_selection w.selection w.predicate c K
    rw [hK]
    exact relations_eq ((core_plug hcore K).trans hsel.symm)
  have hargs : Bound (getRelationsAliases w.body)
      (cteProjectionOf (numbered "cte_" s.tree.counter) w.correlating).args :=
    bound_args fun q hq => isCovered_of_foundRelation (foundRelation_inner hw.correlating hq)
  obtain ⟨hscope, hcontext⟩ := context_eq hcore (getRelationsAliases w.body) K
  rw [hcte, hiff]
  simp only [Closed, operatorScope, Parse.Inventory.unaryExprs, hrel, List.append_nil, hargs,
    true_and, closed_plug, hclosed, hscope, hcontext]

theorem addressed_cte : Addressed (s.tree.nextId + 1) w.cte := by
  obtain ⟨K, c, x, hK, hcte, -, hids, -, -⟩ := exists_cte hw hbody
  have hplug : Addressed s.tree.nextId (plug K x) := by
    rw [hK] at hbody
    exact hbody.plug (Nat.le_refl _) (hids.nodup hbody.at_position.distinct)
      fun i hi => .inl (hids.subset hi)
  rw [hcte]
  refine ⟨List.nodup_cons.mpr ⟨fun hmem => Nat.lt_irrefl _ (hplug.fresh _ hmem), hplug.distinct⟩,
    fun i hi => ?_⟩
  rcases List.mem_cons.mp hi with rfl | hi
  · exact Nat.lt_succ_self _
  · exact Nat.lt_succ_of_lt (hplug.fresh i hi)

end

/-- The subquery on the right of a join: its projection and its body. -/
def subqueryAt (join : Nat) (s : State) : Option (Projection × RaNode) :=
  ((findObject s.tree join).bind fun j => j.childNodes[1]?).bind fun q =>
    match q with
    | .projection _ pr body => some (pr, body)
    | _ => none

/-- A marked join in whose place the selection from the CTE is bound. -/
def ProbeBound (cteName : String) (args : List Expr) (qs : List CorrelatingPredicate)
    (scope : Scope) : RaNode → Prop
  | .join _ join _ _ => join.marker ≠ 0 ∧ Bound ((cteName, "") :: scope) (probe cteName qs :: args)
  | _ => False

instance (cteName : String) (args : List Expr) (qs : List CorrelatingPredicate) (scope : Scope) :
    ∀ t, Decidable (ProbeBound cteName args qs scope t)
  | .join _ join _ _ => inferInstanceAs (Decidable (join.marker ≠ 0 ∧ Bound _ _))
  | .hole => .isFalse id
  | .leaf _ _ => .isFalse id
  | .unary _ _ _ => .isFalse id

/-- All references out of a subquery are lifted out of it, and where its join lies in one of the
CTEs from position `n` on, the selection that takes its place is bound there. -/
structure ReferencesLifted (n join : Nat) (s : State) (pr : Projection) (body : RaNode)
    (qs : List CorrelatingPredicate) : Prop where
  body : ClosedBut qs.length (getRelationsAliases body) body
  probe : ∀ cte ∈ s.tree.ctes.drop n,
    AtObject join (ProbeBound (numbered "cte_" s.tree.counter) pr.args qs) [] cte

instance (n join : Nat) (s : State) (pr : Projection) (body : RaNode)
    (qs : List CorrelatingPredicate) : Decidable (ReferencesLifted n join s pr body qs) :=
  decidable_of_iff
    (ClosedBut qs.length (getRelationsAliases body) body ∧ ∀ cte ∈ s.tree.ctes.drop n,
      AtObject join (ProbeBound (numbered "cte_" s.tree.counter) pr.args qs) [] cte)
    ⟨fun h => ⟨h.1, h.2⟩, fun h => ⟨h.body, h.probe⟩⟩

/-- The condition on a round of the EXISTS and IN pass. -/
def RoundLifted (n : Nat) (p : MarkerJoin) (s : State) : Prop :=
  ∀ join ∈ p.join, ∀ q ∈ subqueryAt join s, ∀ sel ∈ getFirstSelection q.2,
    ∀ qs ∈ getCorrelatingPredicates (getRelationsAliases q.2) sel.2,
      ReferencesLifted n join s q.1 q.2 qs

instance (n : Nat) (p : MarkerJoin) (s : State) : Decidable (RoundLifted n p s) :=
  inferInstanceAs (Decidable (∀ join ∈ p.join, ∀ q ∈ subqueryAt join s,
    ∀ sel ∈ getFirstSelection q.2,
      ∀ qs ∈ getCorrelatingPredicates (getRelationsAliases q.2) sel.2,
        ReferencesLifted n join s q.1 q.2 qs))

/-- Between two rounds the CTEs from position `n` on are closed. -/
structure ClosedFrom (n : Nat) (s : State) : Prop where
  addressed : ∀ t ∈ s.tree.root :: s.tree.ctes, Addressed s.tree.nextId t
  length : n ≤ s.tree.ctes.length
  closed : ∀ cte ∈ s.tree.ctes.drop n, Closed [] cte

section

variable {w : Rewriting} {join n : Nat} {s : State}

private theorem addressed_findObject (hs : ClosedFrom n s) {i : Nat} {t : RaNode}
    (h : findObject s.tree i = some t) : Addressed s.tree.nextId t := by
  rcases Option.or_eq_some_iff.mp h with hroot | ⟨-, hcte⟩
  · exact (hs.addressed _ List.mem_cons_self).find? hroot
  · obtain ⟨cte, hmem, hfind⟩ := List.exists_of_findSome?_eq_some hcte
    exact (hs.addressed cte (List.mem_cons_of_mem _ hmem)).find? hfind

private theorem addressed_body (hs : ClosedFrom n s) (hw : w.Applies join s) :
    Addressed s.tree.nextId w.body := by
  obtain ⟨j, hj, hright⟩ := Option.bind_eq_some_iff.mp hw.subquery
  have hsub := (addressed_findObject hs hj).childNodes (List.mem_of_getElem? hright)
  exact Addressed.at_position (K := [.unary w.projectionId (.projection w.projection)]) hsub

/-- The selection from the CTE in the place of the subquery. -/
private theorem addressed_setRight {t : RaNode} (h : Addressed s.tree.nextId t) :
    Addressed (s.tree.nextId + 4) (update join (setRight (w.probeTree s)) t) := by
  have hprobe : (w.probeTree s).ids =
      [s.tree.nextId + 3, s.tree.nextId + 1, s.tree.nextId + 2] := rfl
  refine h.update (Nat.le_add_right _ _) fun x hx => ?_
  cases x with
  | join i join' l r =>
    have hd := List.nodup_cons.mp hx.distinct
    have hlt := hx.fresh
    simp only [RaNode.ids, List.mem_append, not_or, List.mem_cons, forall_eq_or_imp] at hd hlt
    refine ⟨?_, fun k hk => ?_⟩
    · refine List.nodup_cons.mpr ⟨?_, List.nodup_append'.mpr ⟨(List.nodup_append'.mp hd.2).1, ?_, ?_⟩⟩
      · simp only [List.mem_append, hprobe, List.mem_cons, List.not_mem_nil, or_false, not_or]
        exact ⟨hd.1.1, by omega, by omega, by omega⟩
      · simp [hprobe]
      · intro k hk hmem
        have := hlt.2 k (.inl hk)
        simp only [hprobe, List.mem_cons, List.not_mem_nil, or_false] at hmem
        omega
    · simp only [setRight, RaNode.ids, List.mem_cons, List.mem_append, hprobe, List.not_mem_nil,
        or_false] at hk ⊢
      rcases hk with rfl | hk | hnew
      · exact .inl (.inl rfl)
      · exact .inl (.inr (.inl hk))
      · exact .inr (by omega)
  | _ => exact ⟨hx.distinct, fun k hk => .inl hk⟩

/-- The selection from the CTE is closed where it is bound. -/
private theorem closed_probeTree {scope : Scope} :
    Closed scope (w.probeTree s) ↔
      Bound ((numbered "cte_" s.tree.counter, "") :: scope)
        (probe (numbered "cte_" s.tree.counter) w.correlating :: w.projection.args) := by
  simp [Rewriting.probeTree, Closed, operatorScope, getRelationsAliases, Bound,
    Parse.Inventory.unaryExprs, Parse.Inventory.leafExprs, and_comm]

/-- A rewriting under the condition keeps the CTEs closed. -/
theorem closedFrom_rewriting (hs : ClosedFrom n s) (hw : w.Applies join s)
    (hlifted : ReferencesLifted n join s w.projection w.body w.correlating) :
    ClosedFrom n (w.result join s) := by
  have hbody := addressed_body hs hw
  have hcte := (addressed_cte hw hbody).mono (Nat.le_add_right _ 3)
  refine ⟨fun t ht => ?_, ?_, fun cte hmem => ?_⟩
  · simp only [Rewriting.result, List.mem_cons, List.mem_append, List.mem_map, List.not_mem_nil,
      or_false] at ht
    rcases ht with rfl | ⟨t, ht, rfl⟩ | rfl
    · exact addressed_setRight (hs.addressed _ List.mem_cons_self)
    · exact addressed_setRight (hs.addressed t (List.mem_cons_of_mem _ ht))
    · exact hcte
  · have := hs.length
    simp only [Rewriting.result, List.length_append, List.length_map]
    omega
  · simp only [Rewriting.result] at hmem
    rw [List.drop_append_of_le_length (by simpa using hs.length), ← List.map_drop,
      List.mem_append] at hmem
    rcases hmem with hmem | hmem
    · obtain ⟨t, ht, rfl⟩ := List.mem_map.mp hmem
      refine ((hlifted.probe t ht).closed_update ?_).2 (hs.closed t ht)
      rintro scope x hx
      cases x with
      | join i join' l r =>
        obtain ⟨hmarker, hprobe⟩ := hx
        refine ⟨by simp [setRight, getRelationsAliases, hmarker], fun hclosed => ?_⟩
        simp only [Closed, joinScope, if_pos hmarker, setRight] at hclosed ⊢
        exact ⟨hclosed.1, hclosed.2.1, closed_probeTree.mpr hprobe⟩
      | _ => exact hx.elim
    · obtain rfl := List.mem_singleton.mp hmem
      exact (closed_cte_iff hw hbody).mpr hlifted.body

theorem decorrelateAllExistsInSubqueries_closedFrom :
    Triple (fun s => ClosedFrom n s ∧ ExistsRounds (RoundLifted n) s)
      decorrelateAllExistsInSubqueries (fun _ => ClosedFrom n) fun _ => True := by
  refine forEachMarker_of_eachMarker (fun _ _ => trivial) fun p join hjoin s hs => ?_
  cases h : outcome (decorrelateExistsInSubquery join) s with
  | mk r s' =>
    cases r with
    | error e => trivial
    | ok u =>
      obtain ⟨w, hw, rfl⟩ := decorrelateExistsInSubquery_eq_ok.mp h
      refine closedFrom_rewriting hs.1 hw (hs.2 join hjoin (w.projection, w.body) ?_ _ hw.selection
        _ hw.correlating)
      exact Option.bind_eq_some_iff.mpr ⟨_, hw.subquery, rfl⟩

end

/-- The parser hands over a tree that `push_down_predicates` can work on. -/
theorem wellFormed_ofParser {stmt : PgNode} (h : isSelect stmt = true)
    (hgood : isBuildable stmt = true) {t : RaNode} {s : ParserState}
    (hparse : parse stmt = some (t, s)) : WellFormed (ofParser t s).tree := by
  obtain ⟨⟨i, pr, c, rfl, -⟩, -⟩ := parse_accounts h hparse
  have haddressed := parse_addressed h hparse _ List.mem_cons_self
  have hfull := parse_full h hgood hparse _ List.mem_cons_self
  exact ⟨haddressed.distinct, hfull, haddressed.fresh, rfl⟩

/-- `push_down_predicates` keeps the tree well formed. -/
private theorem pushDown_wellFormed {t t' : RaTree} (ht : WellFormed t)
    (hrun : pushDownPredicates false t = some t') : WellFormed t' := by
  obtain ⟨ss, hss, hloop⟩ := Option.bind_eq_some_iff.mp hrun
  obtain ⟨t'', hloop', hinv⟩ :=
    (runInvariant_carries false t.root).exists_run (runInvariant_detached ht hss)
  obtain rfl := Option.some.inj (hloop.symm.trans hloop')
  exact hinv.wellFormed

/-- All CTEs that the pass over the EXISTS and IN subqueries appends are closed when every round
lifts all references out of its subquery. -/
theorem appended_closed {stmt : PgNode} {t : RaNode} {s : ParserState} (h : isSelect stmt = true)
    (hgood : isBuildable stmt = true) (hparse : parse stmt = some (t, s)) {s₁ : State}
    (hpush : outcome pushDown (ofParser t s) = (.ok (), s₁))
    (hrounds : ExistsRounds (RoundLifted s₁.tree.ctes.length) s₁) {s₂ : State}
    (hrun : outcome decorrelateAllExistsInSubqueries s₁ = (.ok (), s₂)) :
    ∀ cte ∈ s₂.tree.ctes.drop s₁.tree.ctes.length, Closed [] cte := by
  have hwell := wellFormed_ofParser h hgood hparse
  rw [outcome_pushDown] at hpush
  split at hpush
  · cases hpush
  · next tree htree =>
    cases hpush
    have hwell' := pushDown_wellFormed hwell htree
    obtain ⟨hctes, -, hnext⟩ :=
      Tree.RelationNames.pushDownPredicates_frame htree
    have hstart : ClosedFrom tree.ctes.length { ofParser t s with tree := tree } := by
      refine ⟨fun u hu => ?_, Nat.le_refl _, by simp⟩
      rcases List.mem_cons.mp hu with rfl | hu
      · exact ⟨hwell'.distinct, hwell'.fresh⟩
      · have hold : u ∈ s.ctes := (congrArg (u ∈ ·) hctes).mp hu
        exact (parse_addressed h hparse u (List.mem_cons_of_mem _ hold)).mono hnext
    have hend := decorrelateAllExistsInSubqueries_closedFrom _ ⟨hstart, hrounds⟩
    rw [hrun] at hend
    exact hend.closed

private def selectAll (item : PgNode) (condition : PgNode) : PgNode :=
  .selectStmt false [.resTarget "" (.columnRef ["*"])] [item] condition [] .nullptr [] []

private def equals (l r : List String) : PgNode := .aExpr .op "=" (.columnRef l) (.columnRef r)

/-- `select * from r where exists (select * from s where s.a = r.a and exists (select * from u
where u.b = x.b))` for a relation `x`. -/
def innermostUses (x : String) : PgNode :=
  selectAll (.rangeVar "r" none) <| .subLink .exists .nullptr <|
    selectAll (.rangeVar "s" none) <| .boolExpr .and
      [equals ["s", "a"] ["r", "a"],
        .subLink .exists .nullptr <| selectAll (.rangeVar "u" none) (equals ["u", "b"] [x, "b"])]

/-- The states before and after the pass over the EXISTS and IN subqueries. -/
private def aroundExists (stmt : PgNode) : Option (State × State) :=
  (parse stmt).bind fun p =>
    match outcome pushDown (ofParser p.1 p.2) with
    | (.ok _, s₁) =>
        match outcome decorrelateAllExistsInSubqueries s₁ with
        | (.ok _, s₂) => some (s₁, s₂)
        | (.error _, _) => none
    | (.error _, _) => none

private theorem aroundExists_eq_some {stmt : PgNode} {s₁ s₂ : State}
    (h : aroundExists stmt = some (s₁, s₂)) : ∃ t s, parse stmt = some (t, s) ∧
      outcome pushDown (ofParser t s) = (.ok (), s₁) ∧
      outcome decorrelateAllExistsInSubqueries s₁ = (.ok (), s₂) := by
  obtain ⟨⟨t, s⟩, hparse, h⟩ := Option.bind_eq_some_iff.mp h
  refine ⟨t, s, hparse, ?_⟩
  split at h
  · next hpush =>
    split at h
    · next hexists =>
      cases h
      exact ⟨hpush, hexists⟩
    · cases h
  · cases h

theorem innermostUses_inner_closed : ∃ t s s₁ s₂, parse (innermostUses "s") = some (t, s) ∧
    outcome pushDown (ofParser t s) = (.ok (), s₁) ∧
    outcome decorrelateAllExistsInSubqueries s₁ = (.ok (), s₂) ∧
    ∀ cte ∈ s₂.tree.ctes.drop s₁.tree.ctes.length, Closed [] cte := by
  obtain ⟨⟨s₁, s₂⟩, hs⟩ := Option.isSome_iff_exists.mp
    (by decide +kernel : (aroundExists (innermostUses "s")).isSome = true)
  obtain ⟨t, s, hparse, hpush, hrun⟩ := aroundExists_eq_some hs
  have hrounds : ∀ p ∈ aroundExists (innermostUses "s"),
      ExistsRounds (RoundLifted p.1.tree.ctes.length) p.1 := by
    decide +kernel
  exact ⟨t, s, s₁, s₂, hparse, hpush, hrun,
    appended_closed (by decide) (by decide) hparse hpush (hrounds _ hs) hrun⟩

/-- The reference of the innermost subquery to the outer query is lifted out of it, but not out of
the subquery around it. -/
theorem innermostUses_outer_not_closed : ∃ t s s₁ s₂, parse (innermostUses "r") = some (t, s) ∧
    outcome pushDown (ofParser t s) = (.ok (), s₁) ∧
    outcome decorrelateAllExistsInSubqueries s₁ = (.ok (), s₂) ∧
    ¬ ∀ cte ∈ s₂.tree.ctes.drop s₁.tree.ctes.length, Closed [] cte := by
  obtain ⟨⟨s₁, s₂⟩, hs⟩ := Option.isSome_iff_exists.mp
    (by decide +kernel : (aroundExists (innermostUses "r")).isSome = true)
  obtain ⟨t, s, hparse, hpush, hrun⟩ := aroundExists_eq_some hs
  have hopen : ∀ p ∈ aroundExists (innermostUses "r"),
      ¬ ∀ cte ∈ p.2.tree.ctes.drop p.1.tree.ctes.length, Closed [] cte := by
    decide +kernel
  exact ⟨t, s, s₁, s₂, hparse, hpush, hrun, hopen _ hs⟩

end SqlOptimizer.Unnesting.ClosedCtes
