import SqlOptimizer.Unnesting.LiftedRows

/-!
The rows of a query under the pass over the EXISTS and IN subqueries. Every round appends a table
to the WITH list; the query with the longer list has the rows of the one before.
-/

set_option autoImplicit false
set_option relaxedAutoImplicit false

namespace SqlOptimizer.Unnesting.ExistsRows

open Algebra.RelationalAlgebra
open Tree.Addresses Tree.Frames Tree.Walks Tree.PushDown Tree.PushDownRun Tree.RelationNames
open Logic.NumberedNames Logic.Triples
open Parse.WithBinding (cteName)
open Semantics.Evaluation Semantics.Equivalence
open Objects Attributes Markers ExistsIn FirstSelection LiftedConjuncts ProbeTruth Passes CteOrder
open CorrelationAgreement (conjuncts)
open QueryRows LiftedRows

/-- The correlating predicates of a conjunction over a tree. -/
def correlatingIn (p : Expr) (c : RaNode) : List CorrelatingPredicate :=
  (conjuncts p).filterMap (correlatingConjunct (getRelationsAliases c))

section

variable {V : Type} [DecidableEq V]

/-- A join with a subquery `select .. from child where predicate` on its right. -/
structure WhereSubquery where
  join : Join
  left : RaNode
  projection : Projection
  predicate : Expr
  child : RaNode

def whereSubquery : RaNode → Option WhereSubquery
  | .join _ join left (.projection _ projection (.selection _ predicate child)) =>
      some { join, left, projection, predicate, child }
  | _ => none

theorem whereSubquery_eq_some {t : RaNode} {q : WhereSubquery} (h : whereSubquery t = some q) :
    ∃ i j k, t = .join i q.join q.left
      (.projection j q.projection (.selection k q.predicate q.child)) := by
  unfold whereSubquery at h
  split at h
  · next i join left j projection k predicate child =>
    cases h
    exact ⟨i, j, k, rfl⟩
  · cases h

/-- The condition on an EXISTS or IN subquery that becomes the CTE `cteName`. -/
structure SubqueryLifts (db : Database V) (cteName : String) (root : RaNode) (q : WhereSubquery) :
    Prop where
  left : q.left.isHole = false
  marker : q.join.marker ≠ 0
  unused : cteName ∉ relationNames root
  removable :
    (remainingPredicate q.predicate (correlatingIn q.predicate q.child).length).isSome = true
  lifts : LiftsOut db (getRelationsAliases q.child) cteName q.predicate q.child
    (correlatingIn q.predicate q.child)
  first : q.join.type ∈ existsTypes ∨
    KeepsFirstColumn cteName (correlatingIn q.predicate q.child) db q.projection q.child

instance (db : Database V) (cteName : String) (root : RaNode) (q : WhereSubquery) :
    Decidable (SubqueryLifts db cteName root q) :=
  decidable_of_iff
    (q.left.isHole = false ∧ q.join.marker ≠ 0 ∧ cteName ∉ relationNames root ∧
      (remainingPredicate q.predicate (correlatingIn q.predicate q.child).length).isSome = true ∧
      LiftsOut db (getRelationsAliases q.child) cteName q.predicate q.child
        (correlatingIn q.predicate q.child) ∧
      (q.join.type ∈ existsTypes ∨
        KeepsFirstColumn cteName (correlatingIn q.predicate q.child) db q.projection q.child))
    ⟨fun h => ⟨h.1, h.2.1, h.2.2.1, h.2.2.2.1, h.2.2.2.2.1, h.2.2.2.2.2⟩,
      fun h => ⟨h.left, h.marker, h.unused, h.removable, h.lifts, h.first⟩⟩

/-- The condition on a round of the pass. -/
def RoundLifts (db : Database V) (I : Interpretation V) (p : MarkerJoin) (s : State) : Prop :=
  ∃ join ∈ p.join, OutsideCtes join s ∧
    ∃ q ∈ (find? join s.tree.root).bind whereSubquery,
      SubqueryLifts (withTables I db s.tree.ctes) (numbered "cte_" s.tree.counter) s.tree.root q

instance (db : Database V) (I : Interpretation V) (p : MarkerJoin) (s : State) :
    Decidable (RoundLifts db I p s) :=
  inferInstanceAs (Decidable (∃ join ∈ p.join, OutsideCtes join s ∧
    ∃ q ∈ (find? join s.tree.root).bind whereSubquery,
      SubqueryLifts (withTables I db s.tree.ctes) (numbered "cte_" s.tree.counter) s.tree.root q))

/-- Between two rounds the query has these rows. -/
structure HasRows (db : Database V) (I : Interpretation V) (rows : List (Tuple V)) (s : State) :
    Prop where
  wellFormed : WellFormed s.tree
  rows : queryRows I db s.tree = rows

end

section

variable {V : Type} [DecidableEq V] {I : Interpretation V} {db : Database V} {join : Nat}
  {s s' : State}

/-- Another right side of a marked join that gives the same for every row of the left side. -/
private theorem equivalent_marked {j : Join} (hmarker : j.marker ≠ 0) {i : Nat} {l x y : RaNode}
    (h : ∀ scope, subqueryBinding I j scope (evaluate db I x scope) =
      subqueryBinding I j scope (evaluate db I y scope)) :
    Equivalent db I (.join i j l x) (.join i j l y) := by
  refine ⟨fun env => ?_, ?_⟩
  · simp only [evaluate, if_pos hmarker, h]
  · simp only [nullRow, if_pos hmarker]

/-- The new right side consists of new nodes. -/
private theorem addressed_probe {next i : Nat} {j : Join} {l sub : RaNode} {K : List Frame}
    (h : Addressed next (plug K (.join i j l sub))) (pr : Projection) (e : Expr) (name : String) :
    Addressed (next + 4) (plug K (.join i j l
      (.projection (next + 3) pr (.selection (next + 1) e (.relation (next + 2) name ""))))) := by
  have hd := List.nodup_cons.mp h.at_position.distinct
  have hlt := h.at_position.fresh
  simp only [RaNode.ids, List.mem_append, not_or, List.mem_cons, forall_eq_or_imp] at hd hlt
  refine h.plug (Nat.le_add_right _ _) ?_ fun k hk => ?_
  · refine List.nodup_cons.mpr ⟨?_, List.nodup_append'.mpr ⟨(List.nodup_append'.mp hd.2).1, ?_, ?_⟩⟩
    · simp only [RaNode.ids, List.mem_append, List.mem_cons, List.not_mem_nil, or_false, not_or]
      exact ⟨hd.1.1, by omega, by omega, by omega⟩
    · simp [RaNode.ids]
    · intro k hk hmem
      have hold := hlt.2 k (.inl hk)
      simp only [RaNode.ids, List.mem_cons, List.not_mem_nil, or_false] at hmem
      omega
  · simp only [RaNode.ids, List.mem_cons, List.mem_append, List.not_mem_nil, or_false] at hk ⊢
    rcases hk with rfl | hk | hnew
    · exact .inl (.inl rfl)
    · exact .inl (.inr (.inl hk))
    · exact .inr (by omega)

/-- No node that encloses a join is another kind of node after the right side is exchanged. -/
private theorem isSelection_right {i : Nat} {j : Join} {l x y : RaNode} (K : List Frame) :
    isSelection (plug K (.join i j l x)) = isSelection (plug K (.join i j l y)) := by
  cases K with
  | nil => rfl
  | cons f K => exact isSelection_plug (List.cons_ne_nil f K) _ _

section

variable {prId sel : Nat} {j : Join} {l c : RaNode} {pr : Projection} {p : Expr}
  {K : List Frame} (hs : WellFormed s.tree)
  (hroot : s.tree.root = plug K (.join join j l (.projection prId pr (.selection sel p c))))

include hs hroot

/-- One round of the pass rewrites the subquery. -/
private theorem outcome_rewritten (hl : l.isHole = false) {rest : Option Expr}
    (hqs : getCorrelatingPredicates (getRelationsAliases (plug [] (.selection sel p c))) p =
      some (correlatingIn p c))
    (hrest : remainingPredicate p (correlatingIn p c).length = some rest) :
    outcome (decorrelateExistsInSubquery join) s =
      (.ok (), (rewritingTo s prId pr [] sel p c (correlatingIn p c) rest).result join s) := by
  have hjoin : Addressed s.tree.nextId s.tree.root := ⟨hs.distinct, hs.fresh⟩
  have hfull := hs.full
  rw [hroot] at hjoin
  rw [hroot, full_plug] at hfull
  have hfind : find? join s.tree.root =
      some (.join join j l (.projection prId pr (.selection sel p c))) := by
    rw [hroot]
    exact find?_plug_of_id? hjoin.distinct rfl
  have hat : SubqueryAt join s prId pr (plug [] (.selection sel p c)) sel p := by
    refine ⟨?_, hjoin.at_position.childNodes ?_, rfl⟩
    · rw [subqueryOf, findObject, hfind]
      cases l <;> first | rfl | cases hl
    · cases l <;> simp [RaNode.childNodes]
  have hremovable : Removable sel (.projection prId pr (plug [] (.selection sel p c))) := by
    have hd : Distinct (plug [.unary prId (.projection pr)] (.selection sel p c)) :=
      hat.addressed.distinct
    have hc : c.Full := hfull.2.2
    exact Option.isSome_iff_exists.mpr ⟨_, (removeSelection_plug_iff hd).mpr
      ⟨⟨_, _, rfl⟩, RaNode.isHole_of_full hc, rfl⟩⟩
  exact (hat.run_iff hqs).mpr ⟨rest, hrest, fun _ => hremovable, rfl⟩

private theorem root_rewritten (rest : Option Expr) :
    ((rewritingTo s prId pr [] sel p c (correlatingIn p c) rest).result join s).tree.root =
      plug K (.join join j l
        ((rewritingTo s prId pr [] sel p c (correlatingIn p c) rest).probeTree s)) := by
  have hdistinct := hs.distinct
  rw [hroot] at hdistinct
  rw [Rewriting.result, hroot, update_plug_of_id? hdistinct rfl]
  rfl

private theorem wellFormed_rewritten (rest : Option Expr) :
    WellFormed
      ((rewritingTo s prId pr [] sel p c (correlatingIn p c) rest).result join s).tree := by
  have hafter := root_rewritten hs hroot rest
  have hjoin : Addressed s.tree.nextId s.tree.root := ⟨hs.distinct, hs.fresh⟩
  have hfull := hs.full
  have hrooted := hs.rooted
  rw [hroot] at hjoin hrooted
  rw [hroot, full_plug] at hfull
  have haddressed := addressed_probe hjoin { args := pr.args }
    (probe (numbered "cte_" s.tree.counter) (correlatingIn p c)) (numbered "cte_" s.tree.counter)
  refine ⟨hafter ▸ haddressed.distinct, ?_, hafter ▸ haddressed.fresh, ?_⟩
  · rw [hafter, full_plug]
    exact ⟨hfull.1, hfull.2.1, trivial⟩
  · rw [hafter, ← hrooted]
    exact isSelection_right K

/-- The rewritten query reads the table that the round appends. -/
private theorem queryRows_rewritten (hI : SymmetricEquality I) (hout : OutsideCtes join s)
    (hlifts : SubqueryLifts (withTables I db s.tree.ctes) (numbered "cte_" s.tree.counter)
      s.tree.root { join := j, left := l, projection := pr, predicate := p, child := c })
    {rest : Option Expr} (hrest : remainingPredicate p (correlatingIn p c).length = some rest) :
    queryRows I db
        ((rewritingTo s prId pr [] sel p c (correlatingIn p c) rest).result join s).tree =
      queryRows I db s.tree := by
  obtain ⟨-, hmarker, hunused, -, hlift, htype⟩ := hlifts
  have hdistinct := hs.distinct
  rw [hroot] at hdistinct
  have hctes : s.tree.ctes.map (update join (setRight
      ((rewritingTo s prId pr [] sel p c (correlatingIn p c) rest).probeTree s))) = s.tree.ctes :=
    (List.map_congr_left fun cte hcte => update_eq_self _ (hout cte hcte)).trans (List.map_id _)
  have htables : withTables I db
      ((rewritingTo s prId pr [] sel p c (correlatingIn p c) rest).result join s).tree.ctes =
      withTable I (withTables I db s.tree.ctes)
        (rewritingTo s prId pr [] sel p c (correlatingIn p c) rest).cte := by
    rw [Rewriting.result, hctes, withTables_concat]
  have hsub : cteName (rewritingTo s prId pr [] sel p c (correlatingIn p c) rest).cte ∉
      relationNames (.projection prId pr (.selection sel p c)) := by
    have hnamed : NamedIn (· ≠ numbered "cte_" s.tree.counter) s.tree.root :=
      fun name hmem heq => hunused (heq ▸ hmem)
    have hfind : find? join s.tree.root =
        some (.join join j l (.projection prId pr (.selection sel p c))) := by
      rw [hroot]
      exact find?_plug_of_id? hdistinct rfl
    exact fun hmem => (namedIn_join.mp (hnamed.find? hfind)).2 _ hmem rfl
  have hunused' : cteName (rewritingTo s prId pr [] sel p c (correlatingIn p c) rest).cte ∉
      relationNames s.tree.root := hunused
  rw [queryRows, queryRows, htables, root_rewritten hs hroot rest,
    ← evaluate_withTable_of_notMem I hunused', hroot]
  refine ((equivalent_marked hmarker fun scope => ?_).plug K).rows []
  rw [evaluate_withTable_of_notMem I hsub]
  exact hlift.subqueryBinding_eq rfl hI (numbered_ne_empty (by decide) _) htype hrest _ _ _ _ scope

end

/-- One round of the pass ends, and it keeps the rows. -/
theorem hasRows_round (hI : SymmetricEquality I) {rows : List (Tuple V)}
    (hs : HasRows db I rows s) (hout : OutsideCtes join s) {q : WhereSubquery}
    (hq : (find? join s.tree.root).bind whereSubquery = some q)
    (hlifts : SubqueryLifts (withTables I db s.tree.ctes) (numbered "cte_" s.tree.counter)
      s.tree.root q) :
    ∃ s', outcome (decorrelateExistsInSubquery join) s = (.ok (), s') ∧ HasRows db I rows s' := by
  obtain ⟨node, hfind, hnode⟩ := Option.bind_eq_some_iff.mp hq
  obtain ⟨i, prId, sel, rfl⟩ := whereSubquery_eq_some hnode
  obtain ⟨j, l, pr, p, c⟩ := q
  obtain ⟨hid, K, hroot⟩ := exists_plug_of_find? hfind
  obtain rfl : i = join := Option.some.inj hid
  obtain ⟨rest, hrest⟩ := Option.isSome_iff_exists.mp hlifts.removable
  have hqs : getCorrelatingPredicates (getRelationsAliases (plug [] (.selection sel p c))) p =
      some (correlatingIn p c) :=
    getCorrelatingPredicates_conjuncts fun e he =>
      isLocal_of_isSeparated (hlifts.lifts.separated e he)
  refine ⟨_, outcome_rewritten hs.wellFormed hroot hlifts.left hqs hrest, ?_⟩
  refine ⟨wellFormed_rewritten hs.wellFormed hroot rest, ?_⟩
  exact (queryRows_rewritten hs.wellFormed hroot hI hout hlifts hrest).trans hs.rows

/-- The pass over the EXISTS and IN subqueries ends, and it keeps the rows, when every round lifts
all that reads an outer query out of its subquery. -/
theorem hasRows_exists (hI : SymmetricEquality I) {rows : List (Tuple V)} :
    Triple (fun s => HasRows db I rows s ∧
        (markersJoins existsInTypes s.tree.root).isSome = true ∧ ExistsRounds (RoundLifts db I) s)
      decorrelateAllExistsInSubqueries (fun _ => HasRows db I rows) fun _ => False := by
  refine forEachMarker_succeeds (fun p s hlifts => ?_) fun p join hp s hs => ?_
  · obtain ⟨join, hjoin, -⟩ := hlifts
    exact Option.isSome_iff_exists.mpr ⟨join, hjoin⟩
  · obtain ⟨join', hjoin, hout, q, hq, hlifts⟩ := hs.2
    obtain rfl := Option.mem_unique hp hjoin
    obtain ⟨s', hrun, hrows⟩ := hasRows_round hI hs.1 hout hq hlifts
    rw [hrun]
    exact hrows

end

end SqlOptimizer.Unnesting.ExistsRows
