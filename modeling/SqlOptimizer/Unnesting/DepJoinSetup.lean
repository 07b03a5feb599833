import SqlOptimizer.Unnesting.DepJoinLoop

/-!
What `decorrelate_subquery` sets up before its loop: one dependent join over the body of the
subquery, with nodes of its own.
-/

set_option autoImplicit false
set_option relaxedAutoImplicit false

namespace SqlOptimizer.Unnesting.DepJoinSetup

open Algebra.RelationalAlgebra
open Tree.AlikeTrees Tree.Frames Tree.Walks
open Tree.PushDown (addPredicateToSelection)
open Logic.Triples
open Objects Attributes Markers PushDownDepJoin DecorrelateSubquery DepJoinSteps DepJoinLoop

section

variable {x sel join i : Nat} {t w : RaNode}

private theorem aboveJoin_of_notMem (h : join ∉ t.ids) : aboveJoin sel join t = t := by
  cases t with
  | join j jn l r =>
    rw [RaNode.ids, List.mem_cons, not_or] at h
    rw [aboveJoin, if_neg (Ne.symm h.1)]
  | _ => rfl

private theorem aboveJoin_cases (sel join : Nat) (t : RaNode) :
    aboveJoin sel join t = t ∨ aboveJoin sel join t = .selection sel .nullptr t := by
  unfold aboveJoin
  split
  · split
    · exact .inr rfl
    · exact .inl rfl
  · exact .inl rfl

private theorem find?_aboveJoin (hx : x ≠ sel) (t : RaNode) :
    find? x (aboveJoin sel join t) = find? x t := by
  rcases aboveJoin_cases sel join t with h | h
  · rw [h]
  · rw [h, find?, if_neg (Ne.symm hx)]

private theorem count_aboveJoin (hx : x ≠ sel) (t : RaNode) :
    (aboveJoin sel join t).ids.count x = t.ids.count x := by
  rcases aboveJoin_cases sel join t with h | h
  · rw [h]
  · rw [h, RaNode.ids, List.count_cons_of_ne (Ne.symm hx)]

/-- Below a tree without the join nothing is inserted. -/
private theorem update_aboveJoin_of_notMem (h : join ∉ t.ids) :
    update i (mapChildren (aboveJoin sel join)) t = t := by
  induction t with
  | hole => rfl
  | leaf j op =>
    rw [update]
    split <;> rfl
  | unary j op c ih =>
    rw [RaNode.ids, List.mem_cons, not_or] at h
    rw [update]
    split
    · rw [mapChildren, aboveJoin_of_notMem h.2]
    · rw [ih h.2]
  | join j jn l r ihl ihr =>
    simp only [RaNode.ids, List.mem_cons, List.mem_append, not_or] at h
    rw [update]
    split
    · rw [mapChildren, aboveJoin_of_notMem h.2.1, aboveJoin_of_notMem h.2.2]
    · rw [ihl h.2.1, ihr h.2.2]

private theorem count_update_aboveJoin (hx : x ≠ sel) (t : RaNode) :
    (update i (mapChildren (aboveJoin sel join)) t).ids.count x = t.ids.count x := by
  induction t with
  | hole => rfl
  | leaf j op =>
    rw [update]
    split <;> rfl
  | unary j op c ih =>
    rw [update]
    split
    · simp only [mapChildren, RaNode.ids, List.count_cons, count_aboveJoin hx]
    · simp only [RaNode.ids, List.count_cons, ih]
  | join j jn l r ihl ihr =>
    rw [update]
    split
    · simp only [mapChildren, RaNode.ids, List.count_cons, List.count_append, count_aboveJoin hx]
    · simp only [RaNode.ids, List.count_cons, List.count_append, ihl, ihr]

/-- A node without the join below it is found as before. -/
private theorem find?_update_aboveJoin (hx : x ≠ sel) (hw : ∀ w ∈ find? x t, join ∉ w.ids) :
    find? x (update i (mapChildren (aboveJoin sel join)) t) = find? x t := by
  induction t with
  | hole => rfl
  | leaf j op =>
    rw [update]
    split <;> rfl
  | unary j op c ih =>
    by_cases hj : j = x
    · have hid : (RaNode.unary j op c).id? = some x := congrArg some hj
      rw [update_aboveJoin_of_notMem (hw _ (find?_of_id? hid))]
    · rw [find?, if_neg hj] at hw ⊢
      rw [update]
      split
      · rw [mapChildren, find?, if_neg hj, find?_aboveJoin hx]
      · rw [find?, if_neg hj, ih hw]
  | join j jn l r ihl ihr =>
    by_cases hj : j = x
    · have hid : (RaNode.join j jn l r).id? = some x := congrArg some hj
      rw [update_aboveJoin_of_notMem (hw _ (find?_of_id? hid))]
    · rw [find?, if_neg hj] at hw ⊢
      rw [update]
      split
      · rw [mapChildren, find?, if_neg hj, find?_aboveJoin hx, find?_aboveJoin hx]
      · rw [find?, if_neg hj, ihl fun w h => hw w (by rw [h]; rfl)]
        cases hl : find? x l with
        | some w => rfl
        | none => rw [ihr fun w h => hw w (by rw [hl]; exact h)]

private theorem mem_ids_update_aboveJoin {k : Nat}
    (h : k ∈ (update i (mapChildren (aboveJoin sel join)) t).ids) : k ∈ t.ids ∨ k = sel := by
  by_cases hk : k = sel
  · exact .inr hk
  · rw [← List.count_pos_iff, count_update_aboveJoin hk, List.count_pos_iff] at h
    exact .inl h

end

section

variable (p : Expr) (columns : List AttributeRef)

theorem keepsNodes_setSelectionPredicate : KeepsNodes (setSelectionPredicate p) := by
  intro t
  cases t with
  | unary i op c => cases op <;> exact .unary i id (sameNodes_refl c)
  | _ => exact sameNodes_refl _

theorem keepsNodes_addPredicateToSelection : KeepsNodes (addPredicateToSelection p) := by
  intro t
  cases t with
  | unary i op c => cases op <;> exact .unary i id (sameNodes_refl c)
  | _ => exact sameNodes_refl _

theorem keepsNodes_addColumnsToD : KeepsNodes (addColumnsToD columns) := by
  intro t
  cases t with
  | unary i op c => cases op <;> exact .unary i id (sameNodes_refl c)
  | _ => exact sameNodes_refl _

theorem keepsNodes_addColumnsToRight (subqueryAlias : String) :
    KeepsNodes (addColumnsToRight subqueryAlias columns) := by
  intro t
  cases t with
  | unary i op c => cases op <;> exact .unary i id (sameNodes_refl c)
  | _ => exact sameNodes_refl _

theorem keepsNodes_mapNodeAttributes (f : String → String → String × String) :
    KeepsNodes (mapNodeAttributes f) := by
  intro t
  cases t with
  | unary i op c => cases op <;> exact .unary i id (sameNodes_refl c)
  | join i join l r => exact .join i id (sameNodes_refl l) (sameNodes_refl r)
  | _ => exact sameNodes_refl _

end

/-- The state has the nodes of the main tree where they were, and no address is given away. -/
structure NodesKept (s s' : State) : Prop where
  root : SameNodes s.tree.root s'.tree.root
  nextId : s'.tree.nextId = s.tree.nextId

section

variable {s s' s'' : State} {f : RaNode → RaNode}

theorem NodesKept.refl (s : State) : NodesKept s s := ⟨sameNodes_refl _, rfl⟩

theorem NodesKept.trans (h : NodesKept s s') (h' : NodesKept s' s'') : NodesKept s s'' :=
  ⟨sameNodes_trans h.root h'.root, h'.nextId.trans h.nextId⟩

theorem NodesKept.queued {queue : List Nat} (h : NodesKept s s') (hs : Queued queue s.tree) :
    Queued queue s'.tree :=
  ⟨hs.spread.of_alike h.root, by rw [h.root.ids_eq, h.nextId]; exact hs.fresh⟩

theorem nodesKept_modifyRoot (hf : KeepsNodes f) {i : Nat} {u : Unit}
    (h : outcome (modifyRoot (update i f)) s = (.ok u, s')) : NodesKept s s' := by
  cases h
  exact ⟨sameNodes_update hf i _, rfl⟩

/-- The marker goes out of a condition. -/
theorem nodesKept_replaceMarker {marker : Nat} {subqueryAlias : String} {u : Unit}
    (h : outcome (replaceMarker marker subqueryAlias) s = (.ok u, s')) : NodesKept s s' := by
  unfold replaceMarker at h
  obtain ⟨root, _, hroot, h⟩ := outcome_bind_eq_ok.mp h
  cases hroot
  obtain ⟨_, _, hlog, h⟩ := outcome_bind_eq_ok.mp h
  cases hlog
  split at h
  · have hafter := nodesKept_modifyRoot (keepsNodes_setSelectionPredicate _) h
    exact ⟨hafter.root, hafter.nextId⟩
  · cases h

theorem nodesKept_forM {α : Type} {g : α → Optimizer PUnit}
    (hg : ∀ a s s', outcome (g a) s = (.ok ⟨⟩, s') → NodesKept s s') {as : List α}
    (h : outcome (as.forM g) s = (.ok ⟨⟩, s')) : NodesKept s s' := by
  induction as generalizing s with
  | nil =>
    cases h
    exact .refl _
  | cons a as ih =>
    obtain ⟨_, s₁, ha, h⟩ := outcome_bind_eq_ok.mp h
    exact (hg a s s₁ ha).trans (ih h)

theorem nodesKept_addColumnPredicates {subqueryAlias : String} {columns : List AttributeRef}
    {above : RaNode} {u : Unit}
    (h : outcome (addColumnPredicates subqueryAlias columns above) s = (.ok u, s')) :
    NodesKept s s' := by
  unfold addColumnPredicates at h
  split at h
  · cases h
    exact .refl s
  · exact nodesKept_forM (fun a _ _ ha => nodesKept_modifyRoot (keepsNodes_addPredicateToSelection _) ha) h
  · exact absurd h outcome_badCast_ne_ok

/-- The columns of D and of the derived table, and the conditions on them. -/
theorem nodesKept_addColumns {subqueryAlias : String} {t : DerivedTable} {o : Opened} {u : Unit}
    (h : outcome (addColumns subqueryAlias t o) s = (.ok u, s')) : NodesKept s s' := by
  unfold addColumns at h
  obtain ⟨_, s₁, h₁, h⟩ := outcome_bind_eq_ok.mp h
  obtain ⟨_, s₂, h₂, h⟩ := outcome_bind_eq_ok.mp h
  obtain ⟨_, s₃, h₃, h⟩ := outcome_bind_eq_ok.mp h
  have hlast : NodesKept s₃ s' := by
    cases h
    exact ⟨sameNodes_updateAll (keepsNodes_mapNodeAttributes _) _ _, rfl⟩
  exact (((nodesKept_modifyRoot (keepsNodes_addColumnsToRight _ _) h₁).trans
    (nodesKept_modifyRoot (keepsNodes_addColumnsToD _) h₂)).trans
      (nodesKept_addColumnPredicates h₃)).trans hlast

end

section

variable {s s' : State} {join n : Nat} {subqueryAlias : String}

private theorem selectionAbove_eq_ok {above : RaNode}
    (h : outcome (selectionAbove join) s = (.ok above, s')) :
    (getNodeParent join s.tree.root).isSome = true ∧ (s' = s ∨ ∃ i,
      s'.tree.root = update i (mapChildren (aboveJoin s.tree.nextId join)) s.tree.root ∧
        s'.tree.nextId = s.tree.nextId + 1) := by
  unfold selectionAbove at h
  obtain ⟨root, _, hroot, hrest⟩ := outcome_bind_eq_ok.mp h
  cases hroot
  simp only [outcome_bind_eq_ok, outcome_orCrash_eq_ok] at hrest
  obtain ⟨parent, s₁, ⟨hparent, hs₁⟩, hrest⟩ := hrest
  subst hs₁
  refine ⟨Option.isSome_iff_exists.mpr ⟨parent, hparent⟩, ?_⟩
  split at hrest
  · cases hrest
    exact .inl rfl
  · simp only [outcome_bind_eq_ok, outcome_orCrash_eq_ok, outcome_newNode] at hrest
    obtain ⟨sel, _, hsel, i, s₂, ⟨-, hs₂⟩, _, _, hmodify, hrest⟩ := hrest
    cases hsel
    subst hs₂
    cases hmodify
    cases hrest
    exact .inr ⟨i, rfl, rfl⟩

variable {k rp : Nat} {j : Join} {l body : RaNode} {pr : Projection}

/-- The tree with the dependent join over the body of the subquery. -/
private theorem opened (subqueryAlias : String) {K : List Frame}
    (hfresh : ∀ i ∈ (plug K (.join join j l (.projection rp pr body))).ids, i < n)
    (hone : (RaNode.join join j l (.projection rp pr body)).ids.count join = 1) :
    let X := openSubquery subqueryAlias n (n + 1) (.join join j l (.projection rp pr body))
    let w := RaNode.join n { type := .dependentInnerLeft }
      (.projection (n + 1) { args := [], subqueryAlias := "d" } l) body
    find? n (plug K X) = some w ∧ (plug K X).ids.count n = 1 ∧
      (∀ i ∈ (plug K X).ids, i < n + 2) ∧ n ∉ w.ids.tail ∧ join ∉ w.ids := by
  intro X w
  have hlt : ∀ i ∈ (RaNode.join join j l (.projection rp pr body)).ids, i < n := fun i hi =>
    hfresh i (mem_ids_plug.mpr (.inr hi))
  simp only [RaNode.ids, List.mem_append, List.mem_cons, forall_eq_or_imp] at hlt
  obtain ⟨hjoin, hlt⟩ := hlt
  have hl : ∀ i ∈ l.ids, i < n := fun i hi => hlt i (.inl hi)
  have hrp : rp < n := hlt rp (.inr (.inl rfl))
  have hbody : ∀ i ∈ body.ids, i < n := fun i hi => hlt i (.inr (.inr hi))
  have hK : ∀ i ∈ contextIds K, i < n := fun i hi => hfresh i (mem_ids_plug.mpr (.inl hi))
  have hnot {is : List Nat} (h : ∀ i ∈ is, i < n) : n ∉ is := fun hmem =>
    Nat.lt_irrefl n (h n hmem)
  have hd : join ∉ l.ids ∧ join ∉ body.ids := by
    rw [RaNode.ids, List.count_cons_self, List.count_append, RaNode.ids] at hone
    have hle : body.ids.count join ≤ (rp :: body.ids).count join :=
      (List.sublist_cons_self rp body.ids).count_le join
    exact ⟨List.count_eq_zero.mp (by omega), List.count_eq_zero.mp (by omega)⟩
  have hX : X.ids = join :: (l.ids ++ (rp :: n :: (((n + 1) :: l.ids) ++ body.ids))) := rfl
  refine ⟨?_, ?_, fun i hi => ?_, ?_, ?_⟩
  · rw [find?_plug (hnot hK)]
    change find? n (RaNode.join join _ l (.projection rp _ w)) = some w
    rw [find?, if_neg (Nat.ne_of_lt hjoin), find?_eq_none (hnot hl), find?,
      if_neg (Nat.ne_of_lt hrp), find?_of_id? rfl]
    rfl
  · rw [(ids_plug K X).count_eq, List.count_append, hX, List.count_eq_zero.mpr (hnot hK)]
    simp only [List.count_cons, List.count_append, List.count_eq_zero.mpr (hnot hl),
      List.count_eq_zero.mpr (hnot hbody), beq_iff_eq]
    split_ifs <;> omega
  · rcases mem_ids_plug.mp hi with hi | hi
    · have := hK i hi
      omega
    · rw [hX] at hi
      simp only [List.mem_cons, List.mem_append] at hi
      rcases hi with rfl | hi | rfl | rfl | (rfl | hi) | hi
      · omega
      · have := hl i hi
        omega
      · omega
      · omega
      · omega
      · have := hl i hi
        omega
      · have := hbody i hi
        omega
  · change n ∉ ((n + 1) :: l.ids) ++ body.ids
    simp only [List.mem_append, List.mem_cons, not_or]
    exact ⟨⟨by omega, hnot hl⟩, hnot hbody⟩
  · change join ∉ n :: (((n + 1) :: l.ids) ++ body.ids)
    simp only [List.mem_append, List.mem_cons, not_or]
    exact ⟨by omega, ⟨by omega, hd.1⟩, hd.2⟩

/-- The queue with one dependent join. -/
private theorem queued_singleton {tree : RaTree} {dep : Join} {d r : RaNode}
    (hfind : find? n tree.root = some (.join n dep d r)) (hcount : tree.root.ids.count n = 1)
    (hfresh : ∀ i ∈ tree.root.ids, i < tree.nextId) (htail : n ∉ (RaNode.join n dep d r).ids.tail) :
    Queued [n] tree ∧ work tree.root [n] = 2 * r.ids.length + 1 := by
  refine ⟨⟨⟨List.nodup_singleton n, fun x hx => ?_, fun x hx u hu y hy => ?_⟩, hfresh⟩, ?_⟩
  · obtain rfl := List.mem_singleton.mp hx
    exact hcount
  · obtain rfl := List.mem_singleton.mp hx
    obtain rfl := List.mem_singleton.mp hy
    obtain rfl := Option.some.inj (hfind.symm.trans hu)
    exact htail
  · simp only [work, below, hfind, List.map_cons, List.map_nil, List.sum_cons, List.sum_nil,
      Nat.add_zero]

/-- The dependent join that steps 1 and 2 put over the body of a subquery. -/
theorem queued_openDepJoin {o : Opened}
    (h : outcome (openDepJoin join subqueryAlias n (n + 1) body) s = (.ok o, s'))
    (hfresh : ∀ i ∈ s.tree.root.ids, i < n) (hone : s.tree.root.ids.count join ≤ 1)
    (hnext : s.tree.nextId = n + 2)
    (hfind : findObject s.tree join = some (.join k j l (.projection rp pr body))) :
    Queued [n] s'.tree ∧ work s'.tree.root [n] ≤ 2 * s.tree.root.ids.length + 1 ∧
      find? join s.tree.root = some (.join k j l (.projection rp pr body)) ∧
      ∃ dep d, find? n s'.tree.root = some (.join n dep d body) := by
  unfold openDepJoin at h
  obtain ⟨_, _, hmodify, h⟩ := outcome_bind_eq_ok.mp h
  cases hmodify
  obtain ⟨above, s₂, habove, h⟩ := outcome_bind_eq_ok.mp h
  obtain rfl : s₂ = s' := by
    simp only [outcome_bind_eq_ok, outcome_orCrash_eq_ok] at h
    obtain ⟨_, _, ⟨-, rfl⟩, root, _, hroot, _, _, ⟨-, rfl⟩, _, _, ⟨-, rfl⟩, h⟩ := h
    cases hroot
    cases h
    rfl
  obtain ⟨hparent, hselection⟩ := selectionAbove_eq_ok habove
  dsimp only at hparent hselection
  have hmem : join ∈ s.tree.root.ids := by
    by_contra hnot
    rw [update_eq_self _ hnot, getNodeParent_eq_none hnot] at hparent
    cases hparent
  have hfound : find? join s.tree.root = some (.join k j l (.projection rp pr body)) := by
    rcases Option.or_eq_some_iff.mp hfind with hfound | ⟨hnone, -⟩
    · exact hfound
    · have hsome := find?_isSome_of_mem hmem
      rw [hnone] at hsome
      cases hsome
  obtain rfl : k = join := Option.some.inj (exists_plug_of_find? hfound).1
  have hcount : s.tree.root.ids.count k = 1 :=
    Nat.le_antisymm hone (List.count_pos_iff.mpr hmem)
  obtain ⟨K, hplug, hK, hhere⟩ := exists_plug_of_count hcount hfound
  have hlen : body.ids.length ≤ s.tree.root.ids.length := by
    rw [hplug, (ids_plug K _).length_eq]
    simp only [RaNode.ids, List.length_append, List.length_cons]
    omega
  rw [hplug] at hfresh hselection
  rw [update_plug hK, update_of_id? _ rfl] at hselection
  obtain ⟨hfind₁, hcount, hfresh, htail, hjoin⟩ := opened subqueryAlias hfresh hhere
  suffices hafter : ∃ dep d, find? n s₂.tree.root = some (.join n dep d body) ∧
      s₂.tree.root.ids.count n = 1 ∧ (∀ i ∈ s₂.tree.root.ids, i < s₂.tree.nextId) ∧
        n ∉ (RaNode.join n dep d body).ids.tail by
    obtain ⟨dep, d, hfind₂, hcount₂, hfresh₂, htail₂⟩ := hafter
    obtain ⟨hqueued, hwork⟩ := queued_singleton hfind₂ hcount₂ hfresh₂ htail₂
    exact ⟨hqueued, by omega, hfound, dep, d, hfind₂⟩
  refine ⟨_, _, ?_, ?_, ?_, htail⟩
  · rcases hselection with hstate | ⟨i, hroot, -⟩
    · rw [hstate]
      exact hfind₁
    · rw [hroot, find?_update_aboveJoin (by omega) fun w hw => ?_]
      · exact hfind₁
      · obtain rfl := Option.some.inj (hfind₁.symm.trans hw)
        exact hjoin
  · rcases hselection with hstate | ⟨i, hroot, -⟩
    · rw [hstate]
      exact hcount
    · rw [hroot, count_update_aboveJoin (by omega)]
      exact hcount
  · intro x hx
    rcases hselection with hstate | ⟨i, hroot, hid⟩
    · rw [hstate] at hx ⊢
      rw [hnext]
      exact hfresh x hx
    · rw [hroot] at hx
      rw [hid, hnext]
      rcases mem_ids_update_aboveJoin hx with hx | hx
      · have := hfresh x hx
        omega
      · omega

/-- In the second tree the dependent join stands over the body that the subquery has in the first
one. -/
def OverBody (join : Nat) (t : RaNode) (depJoin : Nat) (t' : RaNode) : Prop :=
  ∃ dep d body', find? depJoin t' = some (.join depJoin dep d body') ∧
    ∀ k j l rp pr body, find? join t = some (.join k j l (.projection rp pr body)) →
      SameNodes body body'

theorem OverBody.of_sameNodes {t t' t'' : RaNode} {depJoin : Nat} (h : OverBody join t depJoin t')
    (hsame : SameNodes t' t'') : OverBody join t depJoin t'' := by
  obtain ⟨dep, d, body', hover, hbody⟩ := h
  have hrel := hsame.find? depJoin
  rw [hover] at hrel
  generalize hfind : find? depJoin t'' = o at hrel
  cases hrel with
  | some hnode =>
    cases hnode with
    | join _ _ _ hright =>
      exact ⟨_, _, _, hfind, fun k j l rp pr body h =>
        sameNodes_trans (hbody k j l rp pr body h) hright⟩

/-- Steps 0 to 2 leave the loop with the dependent join over the body of the subquery. -/
theorem queued_setUpTable {marker : Nat} {t : DerivedTable}
    (h : outcome (setUpTable marker join subqueryAlias) s = (.ok t, s'))
    (hfresh : ∀ i ∈ s.tree.root.ids, i < s.tree.nextId) (hone : s.tree.root.ids.count join ≤ 1) :
    Queued [t.depJoin] s'.tree ∧ work s'.tree.root [t.depJoin] ≤ 2 * s.tree.root.ids.length + 1 ∧
      OverBody join s.tree.root t.depJoin s'.tree.root := by
  unfold setUpTable at h
  obtain ⟨⟨t', o⟩, s₁, hopen, h⟩ := outcome_bind_eq_ok.mp h
  obtain ⟨_, s₂, hcolumns, h⟩ := outcome_bind_eq_ok.mp h
  cases h
  have hcolumns := nodesKept_addColumns hcolumns
  suffices hopened : Queued [t.depJoin] s₁.tree ∧
      work s₁.tree.root [t.depJoin] ≤ 2 * s.tree.root.ids.length + 1 ∧
        OverBody join s.tree.root t.depJoin s₁.tree.root by
    obtain ⟨hqueued, hwork, hbody⟩ := hopened
    exact ⟨hcolumns.queued hqueued, work_of_sameNodes hcolumns.root _ ▸ hwork,
      hbody.of_sameNodes hcolumns.root⟩
  unfold openTable at hopen
  obtain ⟨_, s₃, hmarker, hopen⟩ := outcome_bind_eq_ok.mp hopen
  have hmarker := nodesKept_replaceMarker hmarker
  have hids := hmarker.root.ids_eq
  rw [← hids, ← hmarker.nextId] at hfresh
  rw [← hids] at hone ⊢
  obtain ⟨state, _, hstate, hopen⟩ := outcome_bind_eq_ok.mp hopen
  cases hstate
  split at hopen
  · next k j l rightProjection pr body hfind =>
    simp only [outcome_bind_eq_ok, outcome_assert_eq_ok, outcome_newNode] at hopen
    obtain ⟨_, s₄, ⟨-, hsame⟩, depJoin, _, hdepJoin, d, _, hd, _, _, hlog, hrest⟩ := hopen
    subst hsame
    cases hdepJoin
    cases hd
    cases hlog
    obtain ⟨o', s₅, hrun, hrest⟩ := hrest
    cases hrest
    obtain ⟨hqueued, hwork, hfound, dep, d, hover⟩ :=
      queued_openDepJoin hrun hfresh hone rfl hfind
    refine ⟨hqueued, hwork, dep, d, body, hover, fun k' j' l' rp' pr' body' hbody => ?_⟩
    obtain ⟨w, hw, hsame⟩ := hmarker.root.of_find? hfound
    cases hbody.symm.trans hw
    cases hsame with
    | join _ _ _ hright =>
      cases hright with
      | unary _ _ hsame => exact hsame
  · obtain ⟨_, s₄, -, hopen⟩ := outcome_bind_eq_ok.mp hopen
    exact absurd hopen outcome_badCast_ne_ok
  · cases hopen

end

end SqlOptimizer.Unnesting.DepJoinSetup
