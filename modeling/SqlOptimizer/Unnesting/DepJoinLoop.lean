import SqlOptimizer.Logic.Iteration
import SqlOptimizer.Unnesting.DepJoinSteps

/-!
The loop of `decorrelate_subquery` that pushes dependent joins down. It ends unless it comes to a
dependent join that refers to the outer side and that `push_down_dep_join` leaves where it is.
-/

set_option autoImplicit false
set_option relaxedAutoImplicit false

namespace SqlOptimizer.Unnesting.DepJoinLoop

open Algebra.RelationalAlgebra
open Tree.AlikeTrees Tree.Frames Tree.Walks
open Logic.Iteration Logic.Triples
open Objects Attributes PushDownDepJoin DecorrelateSubquery DepJoinSteps

/-- Where the loop stands: the queue, the dependent joins that are pushed down already, and the
state. -/
structure Config where
  queue : List Nat
  pushed : List Nat
  state : State

/-- One round of the loop. -/
def loopRound (rightProjection : Nat) (c : Config) : (Except Fault (List Nat) × State) ⊕ Config :=
  match c.queue with
  | [] => .inl (.ok c.pushed, c.state)
  | depJoin :: queue =>
      match find? depJoin c.state.tree.root with
      | some (.join _ _ d r) =>
          match intersectCorrelatedAttributes c.state.tree.root d r with
          | none => .inl (.error .crash, c.state)
          | some correlated =>
              if correlated.isEmpty then .inr ⟨queue, c.pushed ++ [depJoin], c.state⟩
              else
                match outcome (pushDownDepJoin depJoin rightProjection) c.state with
                | (.error e, s) => .inl (.error e, s)
                | (.ok next, s) => .inr ⟨depJoin :: (queue ++ next.toList), c.pushed, s⟩
      | _ => .inl (.error .crash, c.state)

private theorem outcome_round (rightProjection fuel : Nat) (c : Config) :
    outcome (pushDownLoop rightProjection (fuel + 1) c.queue c.pushed) c.state =
      match loopRound rightProjection c with
      | .inl r => r
      | .inr c' => outcome (pushDownLoop rightProjection fuel c'.queue c'.pushed) c'.state := by
  obtain ⟨queue, pushed, s⟩ := c
  cases queue with
  | nil => rfl
  | cons depJoin queue =>
    rw [loopRound, pushDownLoop, outcome_bind]
    have hroot : outcome getRoot s = (.ok s.tree.root, s) := rfl
    rw [hroot]
    dsimp only
    cases hfind : find? depJoin s.tree.root with
    | none => rfl
    | some node =>
      cases node with
      | join i join d r =>
        dsimp only
        rw [outcome_bind]
        cases hcor : intersectCorrelatedAttributes s.tree.root d r with
        | none => rfl
        | some correlated =>
          have hsome : outcome (orCrash (some correlated)) s = (.ok correlated, s) := rfl
          rw [hsome]
          dsimp only
          split
          · rfl
          · rw [outcome_bind]
            cases outcome (pushDownDepJoin depJoin rightProjection) s with
            | mk r' s' => cases r' <;> rfl
      | _ => rfl

/-- The loop runs its rounds one after the other. -/
theorem outcome_pushDownLoop (rightProjection fuel : Nat) (c : Config) :
    match iterate (loopRound rightProjection) fuel c with
    | some r => outcome (pushDownLoop rightProjection fuel c.queue c.pushed) c.state = r
    | none => (outcome (pushDownLoop rightProjection fuel c.queue c.pushed) c.state).1 =
        .error .outOfFuel := by
  induction fuel generalizing c with
  | zero => rfl
  | succ fuel ih =>
    rw [outcome_round]
    cases hround : loopRound rightProjection c with
    | inl r => rw [iterate_of_inl hround]
    | inr c' =>
      rw [iterate_of_inr hround]
      exact ih c'

/-- What holds between two rounds: the queued dependent joins are spread over the tree, and new
addresses are free. -/
structure Queued (queue : List Nat) (t : RaTree) : Prop where
  spread : Spread queue t.root
  fresh : ∀ i ∈ t.root.ids, i < t.nextId

section

variable {x : Nat} {queue new : List Nat} {t t' : RaTree} {u u' : RaNode}

theorem Queued.tail (h : Queued (x :: queue) t) : Queued queue t :=
  ⟨⟨(List.nodup_cons.mp h.spread.nodup).2, fun y hy => h.spread.once y (List.mem_cons_of_mem x hy),
    fun y hy u hu z hz => h.spread.apart y (List.mem_cons_of_mem x hy) u hu z
      (List.mem_cons_of_mem x hz)⟩, h.fresh⟩

/-- A dependent join that a call has taken further down, and the ones that the call adds. -/
theorem Queued.exchange (h : Queued (x :: queue) t) (he : Exchange x new t t' u u') :
    Queued (x :: (queue ++ new)) t' := by
  have hids (i : Nat) (hi : i ∈ u'.ids) := (he.ids i hi).2
  have hspread := h.spread.exchange h.fresh he.found he.replaced he.fresh hids he.spread
  refine ⟨hspread.of_alike he.root, fun i hi => ?_⟩
  rw [he.root.ids_eq] at hi
  rcases mem_ids_update (Nat.le_of_eq (h.spread.once x List.mem_cons_self)) hi with
    hi | ⟨v, hv, hi⟩
  · exact Nat.lt_of_lt_of_le (h.fresh i hi) he.nextId
  · obtain rfl := Option.some.inj (he.found.symm.trans hv)
    exact (he.ids i (he.replaced ▸ hi)).1

/-- The queued dependent joins after a call: the others are as they were. -/
theorem Queued.find?_exchange (h : Queued (x :: queue) t) (he : Exchange x new t t' u u') {y : Nat}
    (hy : y ∈ queue) : find? y (update x (replaceJoin u') t.root) = find? y t.root :=
  h.spread.find?_exchange h.fresh he.found he.replaced (fun i hi => (he.ids i hi).2) hy

theorem Queued.find?_new (h : Queued (x :: queue) t) (he : Exchange x new t t' u u') {y : Nat}
    (hy : y ∈ x :: new) : find? y (update x (replaceJoin u') t.root) = find? y u' :=
  h.spread.find?_new h.fresh he.found he.replaced he.fresh hy

/-- There is less to do after a call. -/
theorem Queued.work_lt (h : Queued (x :: queue) t) (he : Exchange x new t t' u u') :
    work t'.root (x :: (queue ++ new)) < work t.root (x :: queue) := by
  have hold : work (update x (replaceJoin u') t.root) queue = work t.root queue :=
    work_congr fun y hy => h.find?_exchange he hy
  have hhere : work (update x (replaceJoin u') t.root) (x :: new) = work u' (x :: new) :=
    work_congr fun y hy => h.find?_new he hy
  have hless := he.less
  rw [work_of_sameNodes he.root]
  simp only [work, List.map_cons, List.map_append, List.sum_cons, List.sum_append, List.map_nil,
    List.sum_nil] at hold hhere hless ⊢
  omega

end

/-- The program does not run out of fuel. -/
def NeedsNoFuel {α : Type} (x : Optimizer α) : Prop := ∀ s, (outcome x s).1 ≠ .error .outOfFuel

section

variable {α β : Type}

theorem NeedsNoFuel.bind {x : Optimizer α} {f : α → Optimizer β} (hx : NeedsNoFuel x)
    (hf : ∀ a, NeedsNoFuel (f a)) : NeedsNoFuel (x >>= f) := by
  intro s h
  rw [outcome_bind] at h
  have hx := hx s
  generalize outcome x s = r at h hx
  obtain ⟨r, s'⟩ := r
  cases r with
  | ok a => exact hf a s' h
  | error e => exact hx (congrArg Except.error (Except.error.inj h))

theorem needsNoFuel_pure (a : α) : NeedsNoFuel (pure a : Optimizer α) := by
  intro s h
  cases h

theorem needsNoFuel_crash : NeedsNoFuel (crash : Optimizer α) := by
  intro s h
  cases h

theorem needsNoFuel_orCrash (o : Option α) : NeedsNoFuel (orCrash o) := by
  cases o with
  | none => exact needsNoFuel_crash
  | some a => exact needsNoFuel_pure a

theorem needsNoFuel_assert (p : Prop) [Decidable p] : NeedsNoFuel (assert p) := by
  unfold assert
  split
  · exact needsNoFuel_pure ()
  · exact needsNoFuel_crash

theorem needsNoFuel_get : NeedsNoFuel (get : Optimizer State) := by
  intro s h
  cases h

theorem needsNoFuel_modify (f : State → State) : NeedsNoFuel (modify f : Optimizer Unit) := by
  intro s h
  cases h

theorem needsNoFuel_getRoot : NeedsNoFuel getRoot :=
  .bind needsNoFuel_get fun _ => needsNoFuel_pure _

theorem needsNoFuel_newNode : NeedsNoFuel newNode := by
  intro s h
  cases h

theorem needsNoFuel_newName (stem : String) : NeedsNoFuel (newName stem) := by
  intro s h
  cases h

theorem needsNoFuel_badCast (node : RaNode) (toClass : NodeClass) :
    NeedsNoFuel (badCast node toClass : Optimizer α) :=
  .bind (needsNoFuel_modify _) fun _ => needsNoFuel_crash

end

section

variable {depJoin rightProjection i : Nat} {dep join : Join} {d a b : RaNode}

theorem needsNoFuel_splitDepJoin :
    NeedsNoFuel (splitDepJoin depJoin rightProjection dep d i join a b) := by
  refine .bind needsNoFuel_newNode fun _ => .bind needsNoFuel_newNode fun _ => ?_
  refine .bind needsNoFuel_newNode fun _ => .bind (needsNoFuel_newName _) fun _ => ?_
  refine .bind (needsNoFuel_newName _) fun _ => .bind (needsNoFuel_modify _) fun _ => ?_
  refine .bind needsNoFuel_getRoot fun _ => .bind (needsNoFuel_orCrash _) fun _ => ?_
  refine .bind (needsNoFuel_orCrash _) fun _ => .bind (needsNoFuel_orCrash _) fun _ => ?_
  refine .bind (needsNoFuel_orCrash _) fun _ => .bind (needsNoFuel_orCrash _) fun _ => ?_
  refine .bind needsNoFuel_getRoot fun _ => .bind (needsNoFuel_orCrash _) fun _ => ?_
  refine .bind (needsNoFuel_modify _) fun _ => .bind (needsNoFuel_assert _) fun _ => ?_
  exact .bind (needsNoFuel_modify _) fun _ => needsNoFuel_pure _

theorem needsNoFuel_pushDownDepJoin (depJoin rightProjection : Nat) :
    NeedsNoFuel (pushDownDepJoin depJoin rightProjection) := by
  refine .bind needsNoFuel_getRoot fun root => .bind (needsNoFuel_orCrash _) fun top => ?_
  refine .bind (needsNoFuel_assert _) fun _ => ?_
  split
  · refine .bind (needsNoFuel_orCrash _) fun move => ?_
    cases move with
    | replace t => exact .bind (needsNoFuel_modify _) fun _ => needsNoFuel_pure _
    | split i join a b => exact .bind needsNoFuel_splitDepJoin fun _ => needsNoFuel_pure _
    | badCast => exact needsNoFuel_badCast _ _
    | stay => exact needsNoFuel_pure _
  · exact needsNoFuel_crash

end

section

variable {rightProjection : Nat}

/-- The subquery at the right of the dependent join refers to the outer side. -/
def RefersOut (root : RaNode) (depJoin : Nat) : Prop :=
  ∃ i dep d r correlated, find? depJoin root = some (.join i dep d r) ∧
    intersectCorrelatedAttributes root d r = some correlated ∧ correlated ≠ []

/-- A dependent join that refers to the outer side and that no call takes further down. -/
structure Blocked (rightProjection : Nat) (root : RaNode) (depJoin : Nat) : Prop where
  inside : ∃ top, find? rightProjection root = some top ∧ (getNodeParent depJoin top).isSome = true
  refersOut : RefersOut root depJoin
  stays : Stays root depJoin

/-- What a round does that goes on. -/
private theorem loopRound_eq_inr {c c' : Config} (h : loopRound rightProjection c = .inr c') :
    ∃ depJoin queue, c.queue = depJoin :: queue ∧
      (c'.queue = queue ∧ c'.state = c.state ∨ ∃ next, RefersOut c.state.tree.root depJoin ∧
        outcome (pushDownDepJoin depJoin rightProjection) c.state = (.ok next, c'.state) ∧
          c' = ⟨depJoin :: (queue ++ next.toList), c.pushed, c'.state⟩) := by
  unfold loopRound at h
  split at h
  · cases h
  · next depJoin queue hqueue =>
    refine ⟨depJoin, queue, hqueue, ?_⟩
    split at h
    · next i dep d r hfind =>
      split at h
      · cases h
      · next correlated hcor =>
        split at h
        · cases h
          exact .inl ⟨rfl, rfl⟩
        · next hne =>
          rw [List.isEmpty_iff] at hne
          split at h
          · cases h
          · next next s hrun =>
            cases h
            exact .inr ⟨next, ⟨i, dep, d, r, correlated, hfind, hcor, hne⟩, hrun, rfl⟩
    · cases h

private theorem inside_of_pushDownDepJoin {depJoin : Nat} {next : Option Nat} {s s' : State}
    (h : outcome (pushDownDepJoin depJoin rightProjection) s = (.ok next, s')) :
    ∃ top, find? rightProjection s.tree.root = some top ∧
      (getNodeParent depJoin top).isSome = true := by
  unfold pushDownDepJoin at h
  obtain ⟨root, _, hroot, hrest⟩ := outcome_bind_eq_ok.mp h
  cases hroot
  simp only [outcome_bind_eq_ok, outcome_orCrash_eq_ok, outcome_assert_eq_ok] at hrest
  obtain ⟨top, _, ⟨htop, -⟩, _, _, ⟨hinside, -⟩, -⟩ := hrest
  exact ⟨top, htop, hinside⟩

/-- What a round does that goes on: it takes the dependent join in front out of the queue, leaves all
as it is, or takes the dependent join further down. -/
theorem loopRound_cases {c c' : Config} (hc : Queued c.queue c.state.tree)
    (h : loopRound rightProjection c = .inr c') :
    ∃ depJoin queue, c.queue = depJoin :: queue ∧
      ((c'.queue = queue ∧ c'.state = c.state) ∨
        (c' = c ∧ Blocked rightProjection c.state.tree.root depJoin) ∨
        ∃ new u u', c'.queue = depJoin :: (queue ++ new) ∧
          Exchange depJoin new c.state.tree c'.state.tree u u') := by
  obtain ⟨depJoin, queue, hqueue, htail | ⟨next, hrefers, hrun, hc'⟩⟩ := loopRound_eq_inr h
  · exact ⟨depJoin, queue, hqueue, .inl htail⟩
  · refine ⟨depJoin, queue, hqueue, .inr ?_⟩
    have hone : c.state.tree.root.ids.count depJoin = 1 :=
      hc.spread.once depJoin (hqueue ▸ List.mem_cons_self)
    rcases pushDownDepJoin_cases hrun hone hc.fresh with ⟨hstays, hnext, hstate⟩ | ⟨u, u', he⟩
    · refine .inl ⟨?_, inside_of_pushDownDepJoin hrun, hrefers, hstays⟩
      rw [hc', hnext, hstate, Option.toList_none, List.append_nil, ← hqueue]
    · exact .inr ⟨next.toList, u, u', congrArg Config.queue hc', he⟩

private theorem loopRound_progress {c c' : Config} (hc : Queued c.queue c.state.tree)
    (h : loopRound rightProjection c = .inr c') (hne : c' ≠ c) :
    Queued c'.queue c'.state.tree ∧
      work c'.state.tree.root c'.queue < work c.state.tree.root c.queue := by
  obtain ⟨depJoin, queue, hqueue, hcases⟩ := loopRound_cases hc h
  rw [hqueue] at hc ⊢
  rcases hcases with ⟨htail, hstate⟩ | ⟨hself, -⟩ | ⟨new, u, u', hqueue', he⟩
  · rw [htail, hstate]
    refine ⟨hc.tail, ?_⟩
    simp only [work, List.map_cons, List.sum_cons]
    omega
  · exact absurd hself hne
  · rw [hqueue']
    exact ⟨hc.exchange he, hc.work_lt he⟩

/-- The rounds of the loop make progress. -/
theorem progresses_loopRound (rightProjection : Nat) :
    Progresses (loopRound rightProjection) (fun c => Queued c.queue c.state.tree)
      fun c => work c.state.tree.root c.queue :=
  ⟨fun _ _ hc h hne => (loopRound_progress hc h hne).1,
    fun _ _ hc h hne => (loopRound_progress hc h hne).2⟩

private theorem outcome_pushDownDepJoin_of_blocked {depJoin : Nat} {s : State}
    (h : Blocked rightProjection s.tree.root depJoin) :
    outcome (pushDownDepJoin depJoin rightProjection) s = (.ok none, s) := by
  obtain ⟨top, htop, hinside⟩ := h.inside
  obtain ⟨i, dep, d, r, hfind, hmove⟩ := h.stays
  unfold pushDownDepJoin
  refine outcome_bind_eq_ok.mpr ⟨s.tree.root, s, rfl, ?_⟩
  simp only [outcome_bind_eq_ok, outcome_orCrash_eq_ok, outcome_assert_eq_ok]
  refine ⟨top, s, ⟨htop, rfl⟩, (), s, ⟨hinside, rfl⟩, ?_⟩
  rw [hfind]
  exact outcome_bind_eq_ok.mpr ⟨.stay, s, outcome_orCrash_eq_ok.mpr ⟨hmove, rfl⟩, rfl⟩

/-- A round leaves all as it is exactly when the dependent join in front is blocked. -/
theorem loopRound_eq_self_iff {c : Config} (hc : Queued c.queue c.state.tree) :
    loopRound rightProjection c = .inr c ↔
      ∃ depJoin ∈ c.queue.head?, Blocked rightProjection c.state.tree.root depJoin := by
  constructor
  · intro h
    obtain ⟨depJoin, queue, hqueue, hcases⟩ := loopRound_cases hc h
    rcases hcases with ⟨htail, -⟩ | ⟨-, hblocked⟩ | ⟨new, u, u', hqueue', he⟩
    · have hlength := congrArg List.length (hqueue.symm.trans htail)
      rw [List.length_cons] at hlength
      omega
    · exact ⟨depJoin, by rw [hqueue]; rfl, hblocked⟩
    · rw [hqueue] at hc
      have hlt := hc.work_lt he
      rw [← hqueue', hqueue] at hlt
      exact absurd hlt (Nat.lt_irrefl _)
  · rintro ⟨depJoin, hhead, hblocked⟩
    obtain ⟨queue, hqueue⟩ := List.head?_eq_some_iff.mp hhead
    obtain ⟨i, dep, d, r, correlated, hfind, hcor, hne⟩ := hblocked.refersOut
    have hempty : correlated.isEmpty = false := by
      rw [List.isEmpty_eq_false_iff]
      exact hne
    obtain ⟨_, pushed, s⟩ := c
    dsimp only at hqueue hfind hcor hblocked
    subst hqueue
    rw [loopRound]
    dsimp only
    rw [hfind]
    dsimp only
    rw [hcor]
    dsimp only
    rw [hempty, outcome_pushDownDepJoin_of_blocked hblocked]
    simp

/-- The loop is stuck when it comes to a blocked dependent join. -/
theorem stuck_loopRound_iff (c : Config) (hc : Queued c.queue c.state.tree) :
    Stuck (loopRound rightProjection) c ↔ ∃ c', Leads (loopRound rightProjection) c c' ∧
      ∃ depJoin ∈ c'.queue.head?, Blocked rightProjection c'.state.tree.root depJoin :=
  exists_congr fun _ => and_congr_right fun hleads =>
    loopRound_eq_self_iff (hleads.keeps (progresses_loopRound rightProjection).keeps_always hc)

private theorem loopRound_ne_outOfFuel {c : Config} {r : Except Fault (List Nat) × State}
    (h : loopRound rightProjection c = .inl r) : r.1 ≠ .error .outOfFuel := by
  unfold loopRound at h
  split at h
  · cases h
    exact fun h => by cases h
  · next depJoin queue _ =>
    split at h
    · split at h
      · cases h
        exact fun h => by cases h
      · split at h
        · cases h
        · split at h
          · next e s hrun =>
            cases h
            intro hfuel
            refine needsNoFuel_pushDownDepJoin depJoin rightProjection c.state ?_
            rw [hrun]
            exact congrArg Except.error (Except.error.inj hfuel)
          · cases h
    · cases h
      exact fun h => by cases h

/-- With enough fuel, the loop runs out of it exactly when a call leaves its dependent join where it
is. -/
theorem pushDownLoop_outOfFuel_iff (rightProjection : Nat) (c : Config)
    (hc : Queued c.queue c.state.tree) {fuel : Nat} (hfuel : work c.state.tree.root c.queue < fuel) :
    (outcome (pushDownLoop rightProjection fuel c.queue c.pushed) c.state).1 = .error .outOfFuel ↔
      Stuck (loopRound rightProjection) c := by
  have hrun := outcome_pushDownLoop rightProjection fuel c
  have hends := (progresses_loopRound rightProjection).iterate_isSome_iff hc hfuel
  cases hiterate : iterate (loopRound rightProjection) fuel c with
  | none =>
    rw [hiterate] at hrun hends
    exact iff_of_true hrun (by_contra fun hfree => by cases hends.mpr hfree)
  | some r =>
    rw [hiterate] at hrun hends
    refine iff_of_false ?_ (hends.mp rfl)
    rw [hrun]
    exact of_iterate_eq_some (P := fun r => r.1 ≠ .error .outOfFuel)
      (fun _ _ h => loopRound_ne_outOfFuel h) hiterate

end

end SqlOptimizer.Unnesting.DepJoinLoop
