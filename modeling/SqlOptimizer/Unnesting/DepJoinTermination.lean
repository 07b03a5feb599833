import SqlOptimizer.Unnesting.DepJoinSetup

/-!
When `decorrelate_subquery` ends. All that comes before and after its loop ends.
-/

set_option autoImplicit false
set_option relaxedAutoImplicit false

namespace SqlOptimizer.Unnesting.DepJoinTermination

open Algebra.RelationalAlgebra
open Tree.Frames
open Parse.PgQuery
open Logic.Iteration Logic.NumberedNames Logic.Triples
open Objects Attributes Markers PushDownDepJoin Decouple DecorrelateSubquery
open DepJoinSteps DepJoinLoop DepJoinSetup

section

variable {α β : Type}

theorem needsNoFuel_forM {g : α → Optimizer PUnit} (hg : ∀ a, NeedsNoFuel (g a)) (as : List α) :
    NeedsNoFuel (as.forM g) := by
  induction as with
  | nil => exact needsNoFuel_pure _
  | cons a as ih => exact .bind (hg a) fun _ => ih

theorem needsNoFuel_foldlM {g : β → α → Optimizer β} (hg : ∀ b a, NeedsNoFuel (g b a))
    (as : List α) (b : β) : NeedsNoFuel (as.foldlM g b) := by
  induction as generalizing b with
  | nil => exact needsNoFuel_pure _
  | cons a as ih =>
    rw [List.foldlM_cons]
    exact .bind (hg b a) ih

end

section

variable (marker join : Nat) (subqueryAlias : String)

theorem needsNoFuel_replaceMarker : NeedsNoFuel (replaceMarker marker subqueryAlias) := by
  refine .bind needsNoFuel_getRoot fun root => .bind (needsNoFuel_modify _) fun _ => ?_
  split
  · exact needsNoFuel_modify _
  · exact needsNoFuel_crash

theorem needsNoFuel_selectionAbove : NeedsNoFuel (selectionAbove join) := by
  refine .bind needsNoFuel_getRoot fun root => .bind (needsNoFuel_orCrash _) fun parent => ?_
  split
  · exact needsNoFuel_pure _
  · refine .bind needsNoFuel_newNode fun _ => .bind (needsNoFuel_orCrash _) fun _ => ?_
    exact .bind (needsNoFuel_modify _) fun _ => needsNoFuel_pure _

theorem needsNoFuel_openDepJoin (depJoin d : Nat) (body : RaNode) :
    NeedsNoFuel (openDepJoin join subqueryAlias depJoin d body) := by
  refine .bind (needsNoFuel_modify _) fun _ => .bind (needsNoFuel_selectionAbove join) fun _ => ?_
  refine .bind (needsNoFuel_orCrash _) fun _ => .bind needsNoFuel_getRoot fun _ => ?_
  refine .bind (needsNoFuel_orCrash _) fun _ => .bind (needsNoFuel_orCrash _) fun _ => ?_
  exact needsNoFuel_pure _

theorem needsNoFuel_openTable : NeedsNoFuel (openTable marker join subqueryAlias) := by
  refine .bind (needsNoFuel_replaceMarker marker subqueryAlias) fun _ => ?_
  refine .bind needsNoFuel_get fun s => ?_
  split
  · refine .bind (needsNoFuel_assert _) fun _ => .bind needsNoFuel_newNode fun _ => ?_
    refine .bind needsNoFuel_newNode fun _ => .bind (needsNoFuel_modify _) fun _ => ?_
    exact .bind (needsNoFuel_openDepJoin join subqueryAlias _ _ _) fun _ => needsNoFuel_pure _
  · exact .bind (needsNoFuel_assert _) fun _ => needsNoFuel_badCast _ _
  · exact needsNoFuel_crash

theorem needsNoFuel_addColumns (t : DerivedTable) (o : Opened) :
    NeedsNoFuel (addColumns subqueryAlias t o) := by
  refine .bind (needsNoFuel_modify _) fun _ => .bind (needsNoFuel_modify _) fun _ => ?_
  refine .bind ?_ fun _ => needsNoFuel_modify _
  unfold addColumnPredicates
  split
  · exact needsNoFuel_pure _
  · exact needsNoFuel_forM (fun _ => needsNoFuel_modify _) _
  · exact needsNoFuel_badCast _ _

theorem needsNoFuel_setUpTable : NeedsNoFuel (setUpTable marker join subqueryAlias) :=
  .bind (needsNoFuel_openTable marker join subqueryAlias) fun _ =>
    .bind (needsNoFuel_addColumns subqueryAlias _ _) fun _ => needsNoFuel_pure _

theorem needsNoFuel_dropDepJoin (depJoin i : Nat) (renames : RenameMap) :
    NeedsNoFuel (dropDepJoin depJoin i renames) := by
  refine .bind (needsNoFuel_modify _) fun _ => .bind needsNoFuel_getRoot fun _ => ?_
  refine .bind (needsNoFuel_orCrash _) fun _ => .bind (needsNoFuel_orCrash _) fun _ => ?_
  refine .bind (needsNoFuel_modify _) fun _ => .bind (needsNoFuel_orCrash _) fun _ => ?_
  refine needsNoFuel_forM (fun _ => .bind needsNoFuel_getRoot fun _ => ?_) _
  exact .bind (needsNoFuel_orCrash _) fun _ => needsNoFuel_modify _

theorem needsNoFuel_moveToCte (d : Nat) : NeedsNoFuel (moveToCte join d) := by
  refine .bind needsNoFuel_getRoot fun _ => .bind (needsNoFuel_orCrash _) fun _ => ?_
  refine .bind needsNoFuel_newNode fun _ => .bind (needsNoFuel_newName _) fun _ => ?_
  refine .bind needsNoFuel_newNode fun _ => .bind (needsNoFuel_modify _) fun _ => ?_
  refine .bind (needsNoFuel_modify _) fun _ => .bind needsNoFuel_getRoot fun _ => ?_
  refine .bind (needsNoFuel_orCrash _) fun _ => .bind (needsNoFuel_modify _) fun _ => ?_
  exact .bind (needsNoFuel_orCrash _) fun _ => needsNoFuel_modify _

theorem needsNoFuel_decoupleDepJoin (d rightProjection : Nat) (m : Bool × RenameMap)
    (depJoin : Nat) : NeedsNoFuel (decoupleDepJoin join d rightProjection m depJoin) := by
  refine .bind (needsNoFuel_modify _) fun _ => .bind needsNoFuel_getRoot fun _ => ?_
  refine .bind (needsNoFuel_orCrash _) fun _ => .bind (needsNoFuel_orCrash _) fun _ => ?_
  refine .bind (needsNoFuel_orCrash _) fun _ => .bind (needsNoFuel_orCrash _) fun _ => ?_
  refine .bind (needsNoFuel_orCrash _) fun decoupled => ?_
  obtain ⟨decoupled, renames⟩ := decoupled
  dsimp only
  split
  · exact .bind (needsNoFuel_dropDepJoin _ _ _) fun _ => needsNoFuel_pure _
  · split
    · exact needsNoFuel_pure _
    · exact .bind (needsNoFuel_moveToCte join d) fun _ => needsNoFuel_pure _

end

section

variable {fuel marker join : Nat} {s : State}

/-- What comes before the loop. -/
def beforeLoop (marker join : Nat) : Optimizer DerivedTable :=
  newName "t" >>= setUpTable marker join

/-- What comes after the loop. -/
def afterLoop (join : Nat) (t : DerivedTable) (depJoins : List Nat) : Optimizer Unit := do
  let _ ← depJoins.foldlM (decoupleDepJoin join t.d t.rightProjection) (false, [])

/-- A program followed by one that needs no fuel. -/
private theorem bind_outOfFuel_iff {α β : Type} {x : Optimizer α} {f : α → Optimizer β}
    (hf : ∀ a, NeedsNoFuel (f a)) (s : State) :
    (outcome (x >>= f) s).1 = .error .outOfFuel ↔ (outcome x s).1 = .error .outOfFuel := by
  rw [outcome_bind]
  generalize outcome x s = r
  obtain ⟨r, s'⟩ := r
  cases r with
  | ok a => exact iff_of_false (hf a s') fun h => by cases h
  | error e => exact ⟨fun h => congrArg Except.error (Except.error.inj h),
      fun h => congrArg Except.error (Except.error.inj h)⟩

theorem queued_beforeLoop {t : DerivedTable} {s₁ : State}
    (hrun : outcome (beforeLoop marker join) s = (.ok t, s₁))
    (hfresh : ∀ i ∈ s.tree.root.ids, i < s.tree.nextId) (hone : s.tree.root.ids.count join ≤ 1) :
    Queued [t.depJoin] s₁.tree ∧ work s₁.tree.root [t.depJoin] ≤ 2 * s.tree.root.ids.length + 1 ∧
      OverBody join s.tree.root t.depJoin s₁.tree.root := by
  obtain ⟨_, s₀, hname, hset⟩ := outcome_bind_eq_ok.mp hrun
  cases hname
  have hqueued := queued_setUpTable hset hfresh hone
  exact hqueued

/-- With enough fuel, a correlated scalar subquery uses it up exactly when the loop is stuck. -/
theorem outOfFuel_iff_stuck (hfresh : ∀ i ∈ s.tree.root.ids, i < s.tree.nextId)
    (hone : s.tree.root.ids.count join ≤ 1) (hfuel : 2 * s.tree.root.ids.length + 1 < fuel) :
    (outcome (decorrelateSubquery fuel marker join) s).1 = .error .outOfFuel ↔
      ∃ t s₁, outcome (beforeLoop marker join) s = (.ok t, s₁) ∧
        Stuck (loopRound t.rightProjection) ⟨[t.depJoin], [], s₁⟩ := by
  have hsplit : decorrelateSubquery fuel marker join = beforeLoop marker join >>= fun t =>
      pushDownLoop t.rightProjection fuel [t.depJoin] [] >>= afterLoop join t := by
    unfold decorrelateSubquery replaceSubquery beforeLoop
    rw [bind_assoc]
    rfl
  rw [hsplit, outcome_bind]
  cases hrun : outcome (beforeLoop marker join) s with
  | mk r s₁ =>
    cases r with
    | error e =>
      refine iff_of_false (fun h => ?_) ?_
      · have hfree : NeedsNoFuel (beforeLoop marker join) :=
          .bind (needsNoFuel_newName _) fun _ => needsNoFuel_setUpTable marker join _
        refine hfree s ?_
        rw [hrun]
        exact congrArg Except.error (Except.error.inj h)
      · rintro ⟨t, s₂, h, -⟩
        cases h
    | ok t =>
      obtain ⟨hqueued, hwork, -⟩ := queued_beforeLoop hrun hfresh hone
      have hafter (depJoins : List Nat) : NeedsNoFuel (afterLoop join t depJoins) :=
        .bind (needsNoFuel_foldlM (needsNoFuel_decoupleDepJoin join _ _) _ _)
          fun _ => needsNoFuel_pure _
      have hloop := pushDownLoop_outOfFuel_iff t.rightProjection ⟨[t.depJoin], [], s₁⟩ hqueued
        (Nat.lt_of_le_of_lt hwork hfuel)
      dsimp only at hloop ⊢
      rw [bind_outOfFuel_iff hafter, hloop]
      constructor
      · exact fun h => ⟨t, s₁, rfl, h⟩
      · rintro ⟨t', s₂, h, hstuck⟩
        cases h
        exact hstuck

end

/-- A dependent join gets past every node of the tree. -/
def Passable : RaNode → Prop
  | .hole => True
  | .leaf _ _ => True
  | .unary _ op c => passesUnary op = true ∧ Passable c
  | .join _ join l r => passesJoin join = true ∧ Passable l ∧ Passable r

instance decidablePassable : DecidablePred Passable
  | .hole => .isTrue trivial
  | .leaf _ _ => .isTrue trivial
  | .unary _ op c =>
      have : Decidable (Passable c) := decidablePassable c
      inferInstanceAs (Decidable (passesUnary op = true ∧ Passable c))
  | .join _ join l r =>
      have : Decidable (Passable l) := decidablePassable l
      have : Decidable (Passable r) := decidablePassable r
      inferInstanceAs (Decidable (passesJoin join = true ∧ Passable l ∧ Passable r))

/-- The dependent join gets past all that is below it on the right. -/
def PassableBelow (t : RaNode) (x : Nat) : Prop :=
  ∀ i dep d r, find? x t = some (.join i dep d r) → Passable r

section

variable {t t' r d root : RaNode} {x : Nat}

theorem Passable.of_sameNodes (h : Passable t) (hsame : SameNodes t t') : Passable t' := by
  induction hsame with
  | hole => trivial
  | leaf i op op' => trivial
  | unary i hop _ ih => exact ⟨hop h.1, ih h.2⟩
  | join i hjoin _ _ ihl ihr => exact ⟨hjoin h.1, ihl h.2.1, ihr h.2.2⟩

theorem Passable.of_plug {F : Frame} (h : Passable (F.plug r)) : Passable r := by
  cases F with
  | unary i op => exact h.2
  | left i join b => exact h.2.1
  | right i join a => exact h.2.2

theorem PassableBelow.of_sameNodes (h : PassableBelow t x) (hsame : SameNodes t t') :
    PassableBelow t' x := by
  intro i dep d r hfind
  obtain ⟨w, hw, hnode⟩ := hsame.of_find? hfind
  cases hnode with
  | join _ _ _ hright => exact (h _ _ _ _ hw).of_sameNodes hright

theorem PassableBelow.of_find? (h : PassableBelow t x) (hfind : find? x t' = find? x t) :
    PassableBelow t' x := by
  intro i dep d r hr
  exact h i dep d r (hfind ▸ hr)

private theorem belowJoin_ne_stay {depJoin i : Nat} {dep join : Join} {a b : RaNode}
    (h : passesJoin join = true) : belowJoin root depJoin dep d i join a b ≠ some .stay := by
  intro hstay
  rw [belowJoin] at hstay
  split at hstay
  · cases hstay
  · obtain ⟨onRight, -, hstay⟩ := Option.bind_eq_some_iff.mp hstay
    split at hstay
    · cases hstay
    · split at hstay
      · next hleft =>
        rw [passesJoin, hleft] at h
        cases h
      · obtain ⟨onLeft, -, hstay⟩ := Option.map_eq_some_iff.mp hstay
        split at hstay <;> cases hstay

/-- A dependent join over passable nodes stays where it is only at a leaf. -/
private theorem leaf_of_stay {depJoin : Nat} {dep : Join} (h : Passable r)
    (hstay : depJoinMove root depJoin dep d r = some .stay) : ∃ i op, r = .leaf i op := by
  have hunary {i : Nat} {op : UnaryOp} {c : RaNode}
      (h : belowUnary depJoin dep d i op c = some .stay) : False := by
    cases belowUnary_eq_some h
  cases r with
  | hole => cases hstay
  | leaf i op => exact ⟨i, op, rfl⟩
  | unary i op c =>
    cases op with
    | projection pr => exact (hunary hstay).elim
    | selection p => exact (hunary hstay).elim
    | groupBy args implicit =>
      cases d with
      | unary k dOp dc =>
        cases dOp with
        | projection dPr => exact (hunary hstay).elim
        | _ => cases hstay
      | _ => cases hstay
    | _ => cases h.1
  | join i join a b =>
    rw [depJoinMove] at hstay
    split at hstay
    · exact absurd hstay (belowJoin_ne_stay h.1)
    · exact absurd hstay (belowJoin_ne_stay h.1)
    · exact absurd hstay (belowJoin_ne_stay h.1)
    · next hcross hinner hleft =>
      have hpass := h.1
      simp only [passesJoin, Bool.or_eq_true, decide_eq_true_eq] at hpass
      exact absurd hpass (not_or.mpr ⟨hcross, hinner⟩)

/-- A leaf does not refer to the outer side. -/
theorem not_blocked_of_passableBelow {rightProjection : Nat} (h : PassableBelow root x) :
    ¬ Blocked rightProjection root x := by
  intro hblocked
  obtain ⟨i, dep, d, r, correlated, hfind, hcor, hne⟩ := hblocked.refersOut
  obtain ⟨i', dep', d', r', hfind', hmove⟩ := hblocked.stays
  cases hfind.symm.trans hfind'
  obtain ⟨k, op, rfl⟩ := leaf_of_stay (h _ _ _ _ hfind) hmove
  exact hne (Option.some.inj hcor).symm

end

section

variable {rightProjection fuel marker join : Nat} {s : State}

/-- The queued dependent joins get past all that is below them. -/
structure Unhindered (c : Config) : Prop where
  queued : Queued c.queue c.state.tree
  passable : ∀ x ∈ c.queue, PassableBelow c.state.tree.root x

theorem unhindered_loopRound {c c' : Config} (hc : Unhindered c)
    (h : loopRound rightProjection c = .inr c') : Unhindered c' := by
  refine ⟨(progresses_loopRound rightProjection).keeps_always c c' hc.queued h, ?_⟩
  obtain ⟨depJoin, queue, hqueue, hcases⟩ := loopRound_cases hc.queued h
  have hpassable := hc.passable
  have hqueued := hc.queued
  rw [hqueue] at hpassable hqueued
  rcases hcases with ⟨htail, hstate⟩ | ⟨hself, -⟩ | ⟨new, u, u', hqueue', he⟩
  · rw [htail, hstate]
    exact fun x hx => hpassable x (List.mem_cons_of_mem depJoin hx)
  · rw [hself]
    exact hc.passable
  · rw [hqueue']
    intro x hx
    refine PassableBelow.of_sameNodes ?_ he.root
    by_cases hold : x ∈ queue
    · exact (hpassable x (List.mem_cons_of_mem depJoin hold)).of_find?
        (hqueued.find?_exchange he hold)
    · have hnew : x ∈ depJoin :: new := by
        simp only [List.mem_cons, List.mem_append] at hx ⊢
        tauto
      refine PassableBelow.of_find? (t := u') (fun i dep d r hr => ?_) (hqueued.find?_new he hnew)
      obtain ⟨i', dep', d', F, rfl⟩ := he.within x hnew i dep d r hr
      exact (hpassable depJoin List.mem_cons_self _ _ _ _ he.found).of_plug

/-- With enough fuel, a correlated scalar subquery uses it up exactly when the loop comes to a
dependent join that refers to the outer side and that no call takes further down. -/
theorem decorrelateSubquery_outOfFuel_iff (hfresh : ∀ i ∈ s.tree.root.ids, i < s.tree.nextId)
    (hone : s.tree.root.ids.count join ≤ 1) (hfuel : 2 * s.tree.root.ids.length + 1 < fuel) :
    (outcome (decorrelateSubquery fuel marker join) s).1 = .error .outOfFuel ↔
      ∃ t s₁, outcome (beforeLoop marker join) s = (.ok t, s₁) ∧
        ∃ c, Leads (loopRound t.rightProjection) ⟨[t.depJoin], [], s₁⟩ c ∧
          ∃ depJoin ∈ c.queue.head?, Blocked t.rightProjection c.state.tree.root depJoin := by
  rw [outOfFuel_iff_stuck hfresh hone hfuel]
  refine exists_congr fun t => exists_congr fun s₁ => and_congr_right fun hrun => ?_
  exact stuck_loopRound_iff ⟨[t.depJoin], [], s₁⟩ (queued_beforeLoop hrun hfresh hone).1

end

private def equals (l r : List String) : PgNode := .aExpr .op "=" (.columnRef l) (.columnRef r)

/-- `select * from r where r.x = (select sum(u.b) from items where condition order by sorts)`. -/
def sumOver (items : List PgNode) (condition : PgNode) (sorts : List PgNode) : PgNode :=
  .selectStmt false [.resTarget "" (.columnRef ["*"])] [.rangeVar "r" none]
    (.aExpr .op "=" (.columnRef ["r", "x"]) <| .subLink .expr .nullptr <|
      .selectStmt false [.resTarget "" (.funcCall "sum" [.columnRef ["u", "b"]] false false)]
        items condition [] .nullptr sorts [])
    [] .nullptr [] []

/-- The sum over `u` with `u.c = r.a`. -/
def sortedSum (sorts : List PgNode) : PgNode :=
  sumOver [.rangeVar "u" none] (equals ["u", "c"] ["r", "a"]) sorts

/-- Without an `order by` the loop ends. The dependent join does not get past an Order_By. -/
theorem sortedSum_endsUnlessSorted :
    (∃ s, beforeExistsIn (sortedSum []) = some s ∧ ∀ fuel > 20,
      (outcome (decorrelateSubquery fuel 1 2) s).1 ≠ .error .outOfFuel) ∧
    ∃ s, beforeExistsIn (sortedSum [.sortBy (.columnRef ["u", "c"]) .default]) = some s ∧
      ∀ fuel > 20, (outcome (decorrelateSubquery fuel 1 2) s).1 = .error .outOfFuel := by
  have hany {s : State} (hfresh : ∀ i ∈ s.tree.root.ids, i < s.tree.nextId)
      (hone : s.tree.root.ids.count 2 ≤ 1) (hsize : 2 * s.tree.root.ids.length + 1 ≤ 20)
      (fuel : Nat) (hfuel : fuel > 20) :
      (outcome (decorrelateSubquery fuel 1 2) s).1 = .error .outOfFuel ↔
        (outcome (decorrelateSubquery 21 1 2) s).1 = .error .outOfFuel :=
    (decorrelateSubquery_outOfFuel_iff hfresh hone (by omega)).trans
      (decorrelateSubquery_outOfFuel_iff hfresh hone (by omega)).symm
  constructor
  · obtain ⟨s, hs, hfresh, hone, hsize, hends⟩ : ∃ s ∈ beforeExistsIn (sortedSum []),
        (∀ i ∈ s.tree.root.ids, i < s.tree.nextId) ∧ s.tree.root.ids.count 2 ≤ 1 ∧
          2 * s.tree.root.ids.length + 1 ≤ 20 ∧
          (outcome (decorrelateSubquery 21 1 2) s).1 = .ok () := by decide +kernel
    refine ⟨s, hs, fun fuel hfuel h => ?_⟩
    rw [hany hfresh hone hsize fuel hfuel, hends] at h
    cases h
  · obtain ⟨s, hs, hfresh, hone, hsize, hhangs⟩ : ∃ s ∈ beforeExistsIn
        (sortedSum [.sortBy (.columnRef ["u", "c"]) .default]),
        (∀ i ∈ s.tree.root.ids, i < s.tree.nextId) ∧ s.tree.root.ids.count 2 ≤ 1 ∧
          2 * s.tree.root.ids.length + 1 ≤ 20 ∧
          (outcome (decorrelateSubquery 21 1 2) s).1 = .error .outOfFuel := by decide +kernel
    exact ⟨s, hs, fun fuel hfuel => (hany hfresh hone hsize fuel hfuel).mpr hhangs⟩

section

variable {fuel marker join : Nat} {s : State}

/-- What is below the projection of a subquery. -/
def subqueryBody (join : Nat) (t : RaNode) : Option RaNode :=
  match find? join t with
  | some (.join _ _ _ (.projection _ _ body)) => some body
  | _ => none

private theorem find?_of_subqueryBody {t body : RaNode} (h : subqueryBody join t = some body) :
    ∃ k j l rp pr, find? join t = some (.join k j l (.projection rp pr body)) := by
  unfold subqueryBody at h
  split at h
  · next hfind =>
    cases h
    exact ⟨_, _, _, _, _, hfind⟩
  · cases h

/-- A correlated scalar subquery ends when a dependent join gets past every node of its body. -/
theorem decorrelateSubquery_ends (hfresh : ∀ i ∈ s.tree.root.ids, i < s.tree.nextId)
    (hone : s.tree.root.ids.count join ≤ 1)
    (hbody : ∃ body ∈ subqueryBody join s.tree.root, Passable body)
    (hfuel : 2 * s.tree.root.ids.length + 1 < fuel) :
    (outcome (decorrelateSubquery fuel marker join) s).1 ≠ .error .outOfFuel := by
  rw [Ne, outOfFuel_iff_stuck hfresh hone hfuel]
  rintro ⟨t, s₁, hrun, hstuck⟩
  obtain ⟨hqueued, -, dep, d, body', hover, hsame⟩ := queued_beforeLoop hrun hfresh hone
  obtain ⟨body, hbody, hpassable⟩ := hbody
  obtain ⟨k, j, l, rp, pr, hfind⟩ := find?_of_subqueryBody hbody
  have hstart : Unhindered ⟨[t.depJoin], [], s₁⟩ := by
    refine ⟨hqueued, fun x hx i dep' d' r hr => ?_⟩
    obtain rfl := List.mem_singleton.mp hx
    cases hover.symm.trans hr
    exact hpassable.of_sameNodes (hsame _ _ _ _ _ _ hfind)
  obtain ⟨c, hleads, depJoin, hhead, hblocked⟩ := (stuck_loopRound_iff _ hqueued).mp hstuck
  have hc := hleads.keeps (fun _ _ => unhindered_loopRound) hstart
  exact not_blocked_of_passableBelow (hc.passable depJoin (List.mem_of_head? hhead)) hblocked

end

/-- The dependent join is split over the cross product of `u` and `v`. -/
theorem sumOverProduct_ends : ∃ s, beforeExistsIn (sumOver [.rangeVar "u" none, .rangeVar "v" none]
      (.boolExpr .and [equals ["u", "c"] ["r", "a"], equals ["v", "d"] ["r", "e"]]) []) = some s ∧
    ∀ fuel > 30, (outcome (decorrelateSubquery fuel 1 2) s).1 ≠ .error .outOfFuel := by
  obtain ⟨s, hs, hfresh, hone, hbody, hsize⟩ : ∃ s ∈ beforeExistsIn
      (sumOver [.rangeVar "u" none, .rangeVar "v" none]
        (.boolExpr .and [equals ["u", "c"] ["r", "a"], equals ["v", "d"] ["r", "e"]]) []),
      (∀ i ∈ s.tree.root.ids, i < s.tree.nextId) ∧ s.tree.root.ids.count 2 ≤ 1 ∧
        (∃ body ∈ subqueryBody 2 s.tree.root, Passable body) ∧
          2 * s.tree.root.ids.length + 1 ≤ 30 := by decide +kernel
  exact ⟨s, hs, fun fuel hfuel => decorrelateSubquery_ends hfresh hone hbody (by omega)⟩

end SqlOptimizer.Unnesting.DepJoinTermination
