import SqlOptimizer.Unnesting.CollectorCalls
import SqlOptimizer.Unnesting.Passes

/-!
Where `optimize` calls the collectors: both runs of `push_down_predicates` on the conjuncts of
the Selections, and `general_query_unnesting` on the right sides of dependent joins.
-/

set_option autoImplicit false
set_option relaxedAutoImplicit false

namespace SqlOptimizer.Unnesting.CollectorSearches

open Algebra.RelationalAlgebra
open Tree.Frames Tree.Walks Tree.PushDown
open Tree.PlacedConditions (hasConditions getPredicateRelations_eq)
open Parse.PgQuery Parse.ParseSqlToRa
open Logic.Runs Logic.Triples
open Logic.CallStacks (not_onlyPresent_of_callee not_onlyPresent_of_absent)
open Objects Attributes Markers PushDownDepJoin ExistsIn DecorrelateSubquery CollectorCalls

/-- A call of a collector from outside: `get_predicate_relations` on a conjunct, or
`get_subtree_attributes` on a subtree of the heap with the given root. -/
inductive Search where
  | conjunct (c : Expr)
  | subtree (root it : RaNode)

/-- The collectors are only called on present nodes. -/
def Search.OnlyPresent : Search → Prop
  | .conjunct c => (Call.predicateRelations c).OnlyPresent .hole
  | .subtree root it => (Call.subtreeAttributes it).OnlyPresent root

/-- What the collectors come to is there. -/
def Search.IsComplete : Search → Prop
  | .conjunct c => hasConditions c = true
  | .subtree root it => NothingMissing root it

/-! ### The searches of a run -/

/-- The searches of a program that starts where another one ends. -/
def after {α : Type} (x : Optimizer α) (f : α → State → List Search) (s : State) : List Search :=
  match outcome x s with
  | (.ok a, s') => f a s'
  | (.error _, _) => []

/-- The first loop of `push_down_predicates`. -/
def conjunctSearches : List (Nat × Expr × RaNode) → List Search
  | [] => []
  | s :: ss =>
      match splitSelectionPredicates s.2.1 with
      | some cs => cs.map .conjunct ++ conjunctSearches ss
      | none => []

def pushDownSearches (s : State) : List Search := conjunctSearches (getAllSelections s.tree.root)

/-- `decorrelate_subquery` up to the first search: the main tree and the subtree. -/
def tableSubtree (marker join : Nat) (subqueryAlias : String) : Optimizer (RaNode × RaNode) := do
  replaceMarker marker subqueryAlias
  let s ← get
  match findObject s.tree join with
  | some (.join _ j l (.projection _ _ body)) => do
      assert (j.predicate.isPresent = false ∧ l.isHole = false ∧ body.isHole = false)
      let depJoin ← newNode
      let d ← newNode
      logName "d"
      modifyRoot (update join (openSubquery subqueryAlias depJoin d))
      let _ ← selectionAbove join
      let subtree ← orCrash (firstChild body)
      let root ← getRoot
      let _ ← orCrash (find? d root)
      return (root, subtree)
  | _ => crash

/-- The searches for the side of a join that a dependent join goes to. -/
def joinSearches (root d : RaNode) (join : Join) (a b : RaNode) : List Search :=
  if a.isHole || b.isHole then []
  else .subtree root b ::
    match intersectCorrelatedAttributes root d b with
    | some onRight =>
        if onRight.isEmpty || join.type = .left then [] else [.subtree root a]
    | none => []

/-- The searches of `push_down_dep_join` over the right child. -/
def moveSearches (root d : RaNode) : RaNode → List Search
  | .join _ join a b =>
      match join.type with
      | .crossProduct | .inner | .left => joinSearches root d join a b
      | _ => []
  | _ => []

/-- The searches of the queue of dependent joins. -/
def loopSearches (rightProjection : Nat) : Nat → List Nat → State → List Search
  | 0, _, _ => []
  | _ + 1, [], _ => []
  | fuel + 1, depJoin :: queue, s =>
      match find? depJoin s.tree.root with
      | some (.join _ _ d r) =>
          if r.isHole then []
          else .subtree s.tree.root r ::
            match intersectCorrelatedAttributes s.tree.root d r with
            | some correlated =>
                if correlated.isEmpty then loopSearches rightProjection fuel queue s
                else
                  (match (find? rightProjection s.tree.root).bind (getNodeParent depJoin) with
                    | some _ => moveSearches s.tree.root d r
                    | none => []) ++
                  after (pushDownDepJoin depJoin rightProjection) (fun next =>
                    loopSearches rightProjection fuel (depJoin :: (queue ++ next.toList))) s
            | none => []
      | _ => []

/-- The searches of one round of `general_query_unnesting`. -/
def roundSearches (fuel marker join : Nat) : State → List Search :=
  after (newName "t") fun subqueryAlias s =>
    after (tableSubtree marker join subqueryAlias) (fun p _ => [.subtree p.1 p.2]) s ++
      after (setUpTable marker join subqueryAlias)
        (fun t => loopSearches t.rightProjection fuel [t.depJoin]) s

def roundsSearches (fuel : Nat) : List MarkerJoin → State → List Search
  | [], _ => []
  | p :: ps, s =>
      (match p.join with
        | some join => roundSearches fuel p.marker join s
        | none => []) ++
      after (markerRound (decorrelateSubquery fuel) p) (fun _ => roundsSearches fuel ps) s

def unnestingSearches (fuel : Nat) (s : State) : List Search :=
  match markersJoins [.dependentInnerLeft] s.tree.root with
  | some pairs => roundsSearches fuel pairs.reverse s
  | none => []

/-- The searches of `optimize`. -/
def optimizeSearches (fuel : Nat) (s : State) : List Search :=
  pushDownSearches s ++
    after pushDown (fun _ =>
      after decorrelateAllExistsInSubqueries fun _ s₂ =>
        unnestingSearches fuel s₂ ++
          after (generalQueryUnnesting fuel) (fun _ => pushDownSearches) s₂) s

/-! ### Runs -/

theorem onlyPresent_of_isComplete {x : Search} (h : x.IsComplete) : x.OnlyPresent := by
  cases x with
  | conjunct c => exact (decidedBy_predicateRelations c).onlyPresent_iff.mpr h
  | subtree root it => exact onlyPresent_subtreeAttributes h

theorem mem_after {α : Type} {p : Optimizer α} {f : α → State → List Search} {s : State}
    {x : Search} : x ∈ after p f s ↔ ∃ a s', outcome p s = (.ok a, s') ∧ x ∈ f a s' := by
  unfold after
  cases h : outcome p s with
  | mk r s' =>
    cases r with
    | error e => simp
    | ok a => simp

/-- After a program that does not fault the searches are those of what comes next. -/
theorem after_of_ok {α : Type} {p : Optimizer α} {a : α} {s s' : State}
    (h : outcome p s = (.ok a, s')) (f : α → State → List Search) : after p f s = f a s' := by
  unfold after
  rw [h]

private theorem isComplete_of_intersect {root d it : RaNode} {os : List Occurrence}
    (h : intersectCorrelatedAttributes root d it = some os) (hit : it.isHole = false) :
    (Search.subtree root it).IsComplete := by
  obtain ⟨all, hall, -⟩ := Option.map_eq_some_iff.mp h
  exact nothingMissing_of_getSubtreeAttributes hall hit

private theorem isComplete_conjunctSearches {ss : List (Nat × Expr × RaNode)}
    {steps : List (List Step)} (h : ss.mapM (fun s => selectionSteps s.1 s.2.1) = some steps) :
    ∀ x ∈ conjunctSearches ss, x.IsComplete := by
  rw [mapM_eq_some_iff] at h
  induction h with
  | nil => exact fun _ hx => absurd hx List.not_mem_nil
  | @cons s step ss steps hstep _ ih =>
    obtain ⟨cs, hcs, hsteps⟩ := Option.bind_eq_some_iff.mp hstep
    obtain ⟨places, hplaces, -⟩ := Option.map_eq_some_iff.mp hsteps
    rw [conjunctSearches, hcs]
    refine List.forall_mem_append.mpr ⟨List.forall_mem_map.mpr fun c hc => ?_, ih⟩
    obtain ⟨place, hplace⟩ := exists_of_mapM hplaces hc
    obtain ⟨relations, hrelations, -⟩ := Option.map_eq_some_iff.mp hplace
    rw [getPredicateRelations_eq] at hrelations
    show hasConditions c = true
    by_contra hnot
    rw [if_neg hnot] at hrelations
    cases hrelations

theorem isComplete_pushDownSearches {s s' : State} {u : Unit}
    (h : outcome pushDown s = (.ok u, s')) : ∀ x ∈ pushDownSearches s, x.IsComplete := by
  rw [Passes.outcome_pushDown] at h
  cases htree : pushDownPredicates false s.tree with
  | none =>
    rw [htree] at h
    cases h
  | some tree =>
    obtain ⟨ss, hss, -⟩ := Option.bind_eq_some_iff.mp htree
    obtain ⟨steps, hsteps, -⟩ := Option.map_eq_some_iff.mp hss
    exact isComplete_conjunctSearches hsteps

private theorem firstChild_isHole {t c : RaNode} (h : firstChild t = some c) : c.isHole = false := by
  cases t with
  | hole => cases h
  | leaf i op => cases h
  | unary i op c' =>
    cases c' with
    | hole => cases h
    | _ =>
      obtain rfl := Option.some.inj h
      rfl
  | join i join l r =>
    cases l with
    | hole =>
      cases r with
      | hole => cases h
      | _ =>
        obtain rfl := Option.some.inj h
        rfl
    | _ =>
      obtain rfl := Option.some.inj h
      rfl

section

variable {marker join : Nat} {subqueryAlias : String} {s s₁ s₂ : State} {t : DerivedTable}
  {o : Opened} {p : RaNode × RaNode}

/-- Two programs that begin in the same way. -/
private theorem outcome_bind_both {α β γ : Type} {x : Optimizer α} {f : α → Optimizer β}
    {g : α → Optimizer γ} {b : β} {c : γ} (hf : outcome (x >>= f) s = (.ok b, s₁))
    (hg : outcome (x >>= g) s = (.ok c, s₂)) : ∃ a s', outcome x s = (.ok a, s') ∧
      outcome (f a) s' = (.ok b, s₁) ∧ outcome (g a) s' = (.ok c, s₂) := by
  obtain ⟨a, s', hx, hf⟩ := outcome_bind_eq_ok.mp hf
  obtain ⟨a', s'', hx', hg⟩ := outcome_bind_eq_ok.mp hg
  cases hx.symm.trans hx'
  exact ⟨a, s', hx, hf, hg⟩

private theorem isComplete_of_openDepJoin {depJoin d : Nat} {body : RaNode}
    (hopen : outcome (openDepJoin join subqueryAlias depJoin d body) s = (.ok o, s₁))
    (hsubtree : outcome (do
        modifyRoot (update join (openSubquery subqueryAlias depJoin d))
        let _ ← selectionAbove join
        let subtree ← orCrash (firstChild body)
        let root ← getRoot
        let _ ← orCrash (find? d root)
        return (root, subtree)) s = (.ok p, s₂)) :
    (Search.subtree p.1 p.2).IsComplete := by
  obtain ⟨_, _, -, hopen, hsubtree⟩ := outcome_bind_both hopen hsubtree
  obtain ⟨above, _, -, hopen, hsubtree⟩ := outcome_bind_both hopen hsubtree
  obtain ⟨subtree, _, hchild, hopen, hsubtree⟩ := outcome_bind_both hopen hsubtree
  obtain ⟨root, _, -, hopen, hsubtree⟩ := outcome_bind_both hopen hsubtree
  obtain ⟨dProjection, _, -, hopen, hsubtree⟩ := outcome_bind_both hopen hsubtree
  obtain ⟨correlated, _, hcorrelated, -⟩ := outcome_bind_eq_ok.mp hopen
  cases hsubtree
  rw [outcome_orCrash_eq_ok] at hchild hcorrelated
  exact isComplete_of_intersect hcorrelated.1 (firstChild_isHole hchild.1)

/-- The first search of a round that sets up its derived table. -/
private theorem isComplete_tableSubtree
    (hopen : outcome (openTable marker join subqueryAlias) s = (.ok (t, o), s₁))
    (hsubtree : outcome (tableSubtree marker join subqueryAlias) s = (.ok p, s₂)) :
    (Search.subtree p.1 p.2).IsComplete := by
  unfold openTable at hopen
  unfold tableSubtree at hsubtree
  obtain ⟨_, _, -, hopen, hsubtree⟩ := outcome_bind_both hopen hsubtree
  obtain ⟨s', _, -, hopen, hsubtree⟩ := outcome_bind_both hopen hsubtree
  split at hsubtree
  · next hfind =>
    rw [hfind] at hopen
    obtain ⟨_, _, -, hopen, hsubtree⟩ := outcome_bind_both hopen hsubtree
    obtain ⟨depJoin, _, -, hopen, hsubtree⟩ := outcome_bind_both hopen hsubtree
    obtain ⟨d, _, -, hopen, hsubtree⟩ := outcome_bind_both hopen hsubtree
    obtain ⟨_, _, -, hopen, hsubtree⟩ := outcome_bind_both hopen hsubtree
    obtain ⟨o', _, hrun, -⟩ := outcome_bind_eq_ok.mp hopen
    exact isComplete_of_openDepJoin hrun hsubtree
  · cases hsubtree

end

private theorem isComplete_joinSearches {root d a b : RaNode} {depJoin i : Nat} {dep join : Join}
    {move : Move} (h : belowJoin root depJoin dep d i join a b = some move) :
    ∀ x ∈ joinSearches root d join a b, x.IsComplete := by
  rw [belowJoin] at h
  rw [joinSearches]
  split at h
  · cases h
  · next hhole =>
    rw [if_neg hhole]
    rw [Bool.or_eq_true, not_or, Bool.not_eq_true, Bool.not_eq_true] at hhole
    obtain ⟨onRight, hright, h⟩ := Option.bind_eq_some_iff.mp h
    refine List.forall_mem_cons.mpr ⟨isComplete_of_intersect hright hhole.2, ?_⟩
    simp only [hright]
    split at h
    · next hempty => simp [hempty]
    · next hempty =>
      split at h
      · next hleft => simp [hleft]
      · next hleft =>
        obtain ⟨onLeft, honLeft, -⟩ := Option.map_eq_some_iff.mp h
        have hcond : (onRight.isEmpty || decide (join.type = .left)) = false := by
          simp [hempty, hleft]
        rw [hcond, if_neg Bool.false_ne_true]
        exact List.forall_mem_singleton.mpr (isComplete_of_intersect honLeft hhole.1)

/-- The searches of a dependent join that is moved. -/
private theorem isComplete_moveSearches {root d r : RaNode} {depJoin : Nat} {dep : Join}
    {move : Move} (h : depJoinMove root depJoin dep d r = some move) :
    ∀ x ∈ moveSearches root d r, x.IsComplete := by
  cases r with
  | join i join a b =>
    rw [depJoinMove] at h
    split at h
    · next htype => simpa only [moveSearches, htype] using isComplete_joinSearches h
    · next htype => simpa only [moveSearches, htype] using isComplete_joinSearches h
    · next htype => simpa only [moveSearches, htype] using isComplete_joinSearches h
    · next hcross hinner hleft =>
      have hnone : moveSearches root d (.join i join a b) = [] := by
        rw [moveSearches]
        split
        · next htype => exact (hcross htype).elim
        · next htype => exact (hinner htype).elim
        · next htype => exact (hleft htype).elim
        · rfl
      simp [hnone]
  | _ => exact fun _ hx => absurd hx List.not_mem_nil

private theorem isComplete_loopSearches {rightProjection fuel : Nat} {queue pushed result : List Nat}
    {s s' : State}
    (h : outcome (pushDownLoop rightProjection fuel queue pushed) s = (.ok result, s')) :
    ∀ x ∈ loopSearches rightProjection fuel queue s, x.IsComplete := by
  induction fuel generalizing queue pushed s with
  | zero => cases h
  | succ fuel ih =>
    cases queue with
    | nil => exact fun _ hx => absurd hx List.not_mem_nil
    | cons depJoin queue =>
      rw [pushDownLoop] at h
      obtain ⟨root, s₁, hroot, h⟩ := outcome_bind_eq_ok.mp h
      cases hroot
      rw [loopSearches]
      split at h
      · next k dep d r hfind =>
        obtain ⟨correlated, s₂, hcor, hrest⟩ := outcome_bind_eq_ok.mp h
        obtain ⟨hcorrelated, rfl⟩ := outcome_orCrash_eq_ok.mp hcor
        simp only [hfind, hcorrelated]
        split
        · exact fun _ hx => absurd hx List.not_mem_nil
        · next hhole =>
          rw [Bool.not_eq_true] at hhole
          refine List.forall_mem_cons.mpr ⟨isComplete_of_intersect hcorrelated hhole, ?_⟩
          split
          · next hempty =>
            rw [if_pos hempty] at hrest
            exact ih hrest
          · next hempty =>
            rw [if_neg hempty] at hrest
            obtain ⟨next, s₃, hpush, hloop⟩ := outcome_bind_eq_ok.mp hrest
            obtain ⟨k', dep', d', r', move, hfind', hmove, -⟩ := pushDownDepJoin_eq_ok hpush
            cases hfind.symm.trans hfind'
            rw [after_of_ok hpush]
            refine List.forall_mem_append.mpr ⟨?_, ih hloop⟩
            split
            · exact isComplete_moveSearches hmove
            · exact fun _ hx => absurd hx List.not_mem_nil
      · cases h

private theorem isComplete_roundSearches {fuel marker join : Nat} {s s' : State} {u : Unit}
    (h : outcome (decorrelateSubquery fuel marker join) s = (.ok u, s')) :
    ∀ x ∈ roundSearches fuel marker join s, x.IsComplete := by
  obtain ⟨subqueryAlias, s₁, hname, h⟩ := outcome_bind_eq_ok.mp h
  obtain ⟨t, s₂, hsetUp, h⟩ := outcome_bind_eq_ok.mp h
  obtain ⟨depJoins, s₃, hloop, -⟩ := outcome_bind_eq_ok.mp h
  obtain ⟨⟨t', o⟩, s₄, hopen, hadd⟩ := outcome_bind_eq_ok.mp hsetUp
  rw [roundSearches, after_of_ok hname]
  refine List.forall_mem_append.mpr ⟨fun x hx => ?_, ?_⟩
  · obtain ⟨p, s₅, hsubtree, hx⟩ := mem_after.mp hx
    rw [List.mem_singleton.mp hx]
    exact isComplete_tableSubtree hopen hsubtree
  · rw [after_of_ok hsetUp]
    exact isComplete_loopSearches hloop

private theorem isComplete_roundsSearches {fuel : Nat} {ps : List MarkerJoin} {s s' : State}
    {u : Unit} (h : outcome (ps.forM (markerRound (decorrelateSubquery fuel))) s = (.ok u, s')) :
    ∀ x ∈ roundsSearches fuel ps s, x.IsComplete := by
  induction ps generalizing s with
  | nil => exact fun _ hx => absurd hx List.not_mem_nil
  | cons p ps ih =>
    obtain ⟨v, s₁, hround, hrest⟩ := outcome_bind_eq_ok.mp h
    rw [roundsSearches, after_of_ok hround]
    refine List.forall_mem_append.mpr ⟨?_, ih hrest⟩
    obtain ⟨join, s₂, hcarried, hdecorrelate⟩ := outcome_bind_eq_ok.mp hround
    obtain ⟨hjoin, rfl⟩ := outcome_orCrash_eq_ok.mp hcarried
    rw [hjoin]
    exact isComplete_roundSearches hdecorrelate

private theorem isComplete_unnestingSearches {fuel : Nat} {s s' : State} {u : Unit}
    (h : outcome (generalQueryUnnesting fuel) s = (.ok u, s')) :
    ∀ x ∈ unnestingSearches fuel s, x.IsComplete := by
  obtain ⟨root, s₁, hroot, hrest⟩ := outcome_bind_eq_ok.mp h
  cases hroot
  obtain ⟨pairs, s₂, hsome, hrounds⟩ := outcome_bind_eq_ok.mp hrest
  obtain ⟨hpairs, rfl⟩ := outcome_orCrash_eq_ok.mp hsome
  rw [unnestingSearches, hpairs]
  exact isComplete_roundsSearches hrounds

/-- A run that comes to its end has come to nothing that is missing. -/
theorem isComplete_optimizeSearches {fuel : Nat} {s s' : State} {u : Unit}
    (h : outcome (optimize fuel) s = (.ok u, s')) :
    ∀ x ∈ optimizeSearches fuel s, x.IsComplete := by
  obtain ⟨_, s₁, hpush, h⟩ := outcome_bind_eq_ok.mp h
  obtain ⟨_, s₂, hexists, h⟩ := outcome_bind_eq_ok.mp h
  obtain ⟨_, s₃, hunnest, hpush'⟩ := outcome_bind_eq_ok.mp h
  rw [optimizeSearches, after_of_ok hpush, after_of_ok hexists, after_of_ok hunnest]
  refine List.forall_mem_append.mpr ⟨isComplete_pushDownSearches hpush, ?_⟩
  refine List.forall_mem_append.mpr ⟨isComplete_unnestingSearches hunnest, ?_⟩
  exact isComplete_pushDownSearches hpush'

private theorem exists_conjunct {ss : List (Nat × Expr × RaNode)} {x : Search}
    (hx : x ∈ conjunctSearches ss) : ∃ c, x = .conjunct c := by
  induction ss with
  | nil => cases hx
  | cons s ss ih =>
    rw [conjunctSearches] at hx
    split at hx
    · rcases List.mem_append.mp hx with hx | hx
      · obtain ⟨c, -, rfl⟩ := List.mem_map.mp hx
        exact ⟨c, rfl⟩
      · exact ih hx
    · cases hx

/-- In a run in which the searches come to nothing that is missing, the collectors are only called
on present nodes. For the first pass this is needed as well, and it holds of every run that comes
to its end. -/
theorem optimizeSearches_onlyPresent (fuel : Nat) (s : State) :
    ((∀ x ∈ optimizeSearches fuel s, x.IsComplete) →
        ∀ x ∈ optimizeSearches fuel s, x.OnlyPresent) ∧
      ((∀ x ∈ pushDownSearches s, x.OnlyPresent) ↔ ∀ x ∈ pushDownSearches s, x.IsComplete) ∧
      ∀ s', outcome (optimize fuel) s = (.ok (), s') →
        ∀ x ∈ optimizeSearches fuel s, x.IsComplete := by
  have hconjunct : ∀ x ∈ pushDownSearches s, (x.OnlyPresent ↔ x.IsComplete) := by
    intro x hx
    obtain ⟨c, rfl⟩ := exists_conjunct hx
    exact (decidedBy_predicateRelations c).onlyPresent_iff
  refine ⟨fun h x hx => onlyPresent_of_isComplete (h x hx), forall₂_congr hconjunct, ?_⟩
  intro s' h
  exact isComplete_optimizeSearches h

private def select (from_ : String) (target condition : PgNode) : PgNode :=
  .selectStmt false [.resTarget "" target] [.rangeVar from_ none] condition [] .nullptr [] []

/-- `select * from r where r.a = (select min(s.b) from s where condition)`. -/
private def minWhere (condition : PgNode) : PgNode :=
  select "r" (.columnRef ["*"]) (.aExpr .op "=" (.columnRef ["r", "a"]) (.subLink .expr .nullptr
    (select "s" (.funcCall "min" [.columnRef ["s", "b"]] false false) condition)))

private def correlation : PgNode := .aExpr .op "=" (.columnRef ["s", "c"]) (.columnRef ["r", "d"])

/-- `select * from r where r.a = -r.b`. -/
private def negatedOperand : PgNode :=
  select "r" (.columnRef ["*"]) (.aExpr .op "=" (.columnRef ["r", "a"])
    (.aExpr .op "-" .nullptr (.columnRef ["r", "b"])))

/-- `s.c = r.d and s.e in (select u.f from u)`. -/
private def independentIn : PgNode :=
  minWhere (.boolExpr .and [correlation, .subLink .any (.columnRef ["s", "e"])
    (select "u" (.columnRef ["u", "f"]) .nullptr)])

private def conjunctOf : Search → Option Expr
  | .conjunct c => some c
  | .subtree _ _ => none

private def isSubtree : Search → Bool
  | .subtree _ _ => true
  | _ => false

/-- A subquery that is correlated in its condition: the collectors come to present nodes only. -/
theorem optimizeSearches_correlation : ∃ p ∈ parse (minWhere correlation),
    (optimizeSearches 20 (ofParser p.1 p.2)).countP isSubtree = 4 ∧
      ∀ x ∈ optimizeSearches 20 (ofParser p.1 p.2), x.OnlyPresent := by
  have hrun : ∃ p ∈ parse (minWhere correlation),
      (outcome (optimize 20) (ofParser p.1 p.2)).1.toOption = some () ∧
        (optimizeSearches 20 (ofParser p.1 p.2)).countP isSubtree = 4 := by
    decide +kernel
  obtain ⟨p, hp, hok, hcount⟩ := hrun
  refine ⟨p, hp, hcount, ?_⟩
  obtain ⟨hpresent, -, hcomplete⟩ := optimizeSearches_onlyPresent 20 (ofParser p.1 p.2)
  apply hpresent
  cases hout : outcome (optimize 20) (ofParser p.1 p.2) with
  | mk r s' =>
    rw [hout] at hok
    cases r with
    | error e => cases hok
    | ok u => exact hcomplete s' hout

/-- The condition of `select * from r where r.a = -r.b`: `get_expression_relations` is called on
the left operand of the minus, which is not there. -/
theorem negatedOperand_callsNull : ¬ ∀ (stmt : PgNode) (t : RaNode) (s : Parse.Builder.ParserState)
    (fuel : Nat), parse stmt = some (t, s) →
      ∀ x ∈ optimizeSearches fuel (ofParser t s), x.OnlyPresent := by
  intro h
  have hrun : ∃ p ∈ parse negatedOperand,
      ∃ x ∈ optimizeSearches 1 (ofParser p.1 p.2), ∃ c ∈ conjunctOf x, hasConditions c = false := by
    decide +kernel
  obtain ⟨⟨t, s⟩, hp, x, hx, c, hc, hmissing⟩ := hrun
  have honly := h negatedOperand t s 1 hp x hx
  obtain rfl : x = .conjunct c := by
    cases x with
    | conjunct c' => rw [Option.some.inj hc]
    | subtree root it => cases hc
  rw [Search.OnlyPresent, (decidedBy_predicateRelations c).onlyPresent_iff, hmissing] at honly
  cases honly

/-- After a comparison of two attributes comes the marker of an IN subquery whose join still has
its probe predicate. -/
private def comesToProbe : Search → Bool
  | .subtree root (.selection _ (.boolPredicate .and
      [.predicate (.attribute _ _) (.attribute _ _) _, .whereSubqueryMarker m type]) _) =>
      match markerSubtree root m type with
      | some (.join _ join _ _) =>
          match join.predicate with
          | .predicate (.attribute _ _) .nullptr _ => true
          | _ => false
      | _ => false
  | _ => false

private theorem not_onlyPresent_of_comesToProbe {x : Search} (h : comesToProbe x = true) :
    ¬ x.OnlyPresent := by
  have hfirst {root : RaNode} {c b : Call} {rest : List Call} (hpresent : c.isPresent = true)
      (hcs : callees root c = some (b :: rest)) (hb : ¬ b.OnlyPresent root) :
      ¬ c.OnlyPresent root := by
    have hcs' : callees root c = some ([] ++ b :: rest) := hcs
    exact not_onlyPresent_of_callee hpresent hcs' (fun _ ha => absurd ha List.not_mem_nil) hb
  have hsecond {root : RaNode} {c a b : Call} (hpresent : c.isPresent = true)
      (hcs : callees root c = some [a, b]) (ha : a.Returns root) (hb : ¬ b.OnlyPresent root) :
      ¬ c.OnlyPresent root := by
    have hcs' : callees root c = some ([a] ++ [b]) := hcs
    exact not_onlyPresent_of_callee hpresent hcs' (List.forall_mem_singleton.mpr ha) hb
  have hattribute (root : RaNode) (name aliasName : String) :
      (Call.expressionAttributes (.attribute name aliasName)).Returns root :=
    .intro rfl rfl fun _ hb => absurd hb List.not_mem_nil
  unfold comesToProbe at h
  split at h
  · next root i n a n' a' op m type child =>
    split at h
    · next j join l r hsubtree =>
      split at h
      · next name aliasName op hprobe =>
        -- from the Selection to the marker, and from its join to the probe predicate
        apply hfirst rfl rfl
        refine hsecond rfl rfl (.intro rfl rfl ?_) ?_
        · exact List.forall_mem_cons.mpr
            ⟨hattribute root n a, List.forall_mem_singleton.mpr (hattribute root n' a')⟩
        · refine hfirst rfl (by rw [callees, hsubtree]; rfl) ?_
          refine hfirst rfl (by rw [callees, nodeCalls, hprobe]; rfl) ?_
          exact hsecond rfl rfl (hattribute root name aliasName) (not_onlyPresent_of_absent rfl)
      · cases h
    · cases h
  · cases h

/-- `select min(s.b) from s where s.c = r.d and s.e in (select u.f from u)`: the unnesting comes to
the probe predicate `s.e in` of the independent subquery, which has no right operand. -/
theorem independentIn_callsNull : ∃ p ∈ parse independentIn,
    ∃ x ∈ optimizeSearches 1 (ofParser p.1 p.2), ¬ x.OnlyPresent := by
  have hrun : ∃ p ∈ parse independentIn,
      ∃ x ∈ optimizeSearches 1 (ofParser p.1 p.2), comesToProbe x = true := by
    decide +kernel
  obtain ⟨p, hp, x, hx, hprobe⟩ := hrun
  exact ⟨p, hp, x, hx, not_onlyPresent_of_comesToProbe hprobe⟩

end SqlOptimizer.Unnesting.CollectorSearches
