import Mathlib.Algebra.GroupWithZero.Nat
import SqlOptimizer.Tree.AlikeTrees
import SqlOptimizer.Unnesting.DecorrelateSubquery

/-!
What one call of `push_down_dep_join` does to the nodes. The queued dependent joins stand beside
each other, and a call that does not leave its dependent join where it is takes from the nodes
below them.
-/

set_option autoImplicit false
set_option relaxedAutoImplicit false

namespace SqlOptimizer.Unnesting.DepJoinSteps

open Algebra.RelationalAlgebra
open Tree.AlikeTrees Tree.Frames Tree.Walks
open Logic.NumberedNames Logic.Triples
open Objects Attributes PushDownDepJoin DecorrelateSubquery

/-- The operators with one child that a dependent join changes places with. -/
def passesUnary : UnaryOp → Bool
  | .projection _ => true
  | .selection _ => true
  | .groupBy _ _ => true
  | _ => false

/-- The joins that a dependent join always gets past. -/
def passesJoin (join : Join) : Bool := join.type = .crossProduct || join.type = .inner

/-- The same nodes at the same places, and where a dependent join got past a node, it still does. -/
abbrev SameNodes : RaNode → RaNode → Prop :=
  Alike (fun op op' => passesUnary op = true → passesUnary op' = true)
    fun join join' => passesJoin join = true → passesJoin join' = true

/-- A change that keeps the nodes where they are. -/
def KeepsNodes (f : RaNode → RaNode) : Prop := ∀ t, SameNodes t (f t)

section

variable {f : RaNode → RaNode} {m : RenameMap}

theorem sameNodes_refl (t : RaNode) : SameNodes t t := .refl (fun _ => id) (fun _ => id) t

theorem sameNodes_trans {t t' t'' : RaNode} (h : SameNodes t t') (h' : SameNodes t' t'') :
    SameNodes t t'' :=
  .trans (fun _ _ _ hop hop' h => hop' (hop h)) (fun _ _ _ hjoin hjoin' h => hjoin' (hjoin h)) h h'

theorem sameNodes_update (hf : KeepsNodes f) (i : Nat) (t : RaNode) :
    SameNodes t (update i f t) :=
  .update (fun _ => id) (fun _ => id) hf i t

theorem sameNodes_updateAll (hf : KeepsNodes f) (is : List Nat) (t : RaNode) :
    SameNodes t (updateAll f is t) := by
  induction is generalizing t with
  | nil => exact sameNodes_refl t
  | cons i is ih => exact sameNodes_trans (sameNodes_update hf i t) (ih (update i f t))

theorem keepsNodes_renameNode (m : RenameMap) : KeepsNodes (renameNode m) := by
  intro t
  cases t with
  | unary i op c => cases op <;> exact .unary i id (sameNodes_refl c)
  | join i join l r => exact .join i id (sameNodes_refl l) (sameNodes_refl r)
  | _ => exact sameNodes_refl _

theorem keepsNodes_finishSplit {join : Join} (h : passesJoin join = true)
    (left right : Projection) : KeepsNodes (finishSplit join left right) := by
  intro t
  unfold finishSplit
  split
  · next i _ l _ x r _ y =>
    exact .join i (fun _ => h) (.unary l id (sameNodes_refl x)) (.unary r id (sameNodes_refl y))
  · exact sameNodes_refl _

theorem passesJoin_naturalJoin (join : Join) (predicates : List Expr) :
    passesJoin (naturalJoin join predicates) = true := by
  unfold naturalJoin
  split <;> rfl

theorem sameNodes_renameAttributes {stop : Option Nat} {it t t' : RaNode}
    (h : renameAttributes m stop it t = some t') : SameNodes t t' := by
  obtain ⟨is, -, rfl⟩ := Option.map_eq_some_iff.mp h
  exact sameNodes_updateAll (keepsNodes_renameNode m) is t

end

/-- The nodes below a dependent join on the side of the subquery. -/
def below (t : RaNode) (x : Nat) : Nat :=
  match find? x t with
  | some (.join _ _ _ r) => r.ids.length
  | _ => 0

/-- What is left to do for a queue. A dependent join that is split leaves two with one node less
below them. -/
def work (t : RaNode) (queue : List Nat) : Nat := (queue.map fun x => 2 * below t x + 1).sum

section

variable {t t' : RaNode} {x : Nat} {queue : List Nat}

theorem below_of_find? (h : find? x t = find? x t') : below t x = below t' x := by
  rw [below, below, h]

theorem below_of_sameNodes (h : SameNodes t t') (x : Nat) : below t' x = below t x := by
  have hrel := h.find? x
  unfold below
  generalize find? x t = o at hrel ⊢
  generalize find? x t' = o' at hrel ⊢
  cases hrel with
  | none => rfl
  | some hu =>
    cases hu with
    | join i hjoin hl hr => exact congrArg List.length hr.ids_eq
    | _ => rfl

theorem work_of_sameNodes (h : SameNodes t t') (queue : List Nat) :
    work t' queue = work t queue := by
  simp only [work, below_of_sameNodes h]

theorem work_congr (h : ∀ x ∈ queue, find? x t = find? x t') : work t queue = work t' queue := by
  rw [work, work, List.map_congr_left fun x hx => by rw [below_of_find? (h x hx)]]

end

section

variable {depJoin rightProjection i next : Nat} {dep join : Join} {d r a b t root : RaNode}
  {s s' : State}

/-- What a move puts into the place of the dependent join: the same nodes, with the dependent join
over a child of the node that was below it. -/
def MovesDown (depJoin : Nat) (dep : Join) (d r t : RaNode) : Prop :=
  t.ids.Perm (depJoin :: (d.ids ++ r.ids)) ∧
    (depJoin ∉ r.ids → ∃ (F : Frame) (c : RaNode), r = F.plug c ∧
      find? depJoin t = some (.join depJoin dep d c))

private theorem movesDown_unary (depJoin : Nat) (dep : Join) (d c : RaNode) (i : Nat)
    (op op' : UnaryOp) :
    MovesDown depJoin dep d (.unary i op c) (.unary i op' (.join depJoin dep d c)) := by
  refine ⟨?_, fun hnot => ⟨.unary i op, c, rfl, ?_⟩⟩
  · simp only [RaNode.ids]
    exact (List.Perm.swap _ _ _).trans (List.Perm.cons _ List.perm_middle.symm)
  · rw [RaNode.ids, List.mem_cons, not_or] at hnot
    rw [find?, if_neg (Ne.symm hnot.1), find?, if_pos rfl]

private theorem movesDown_left (depJoin : Nat) (dep : Join) (d a b : RaNode) (i : Nat)
    (join : Join) :
    MovesDown depJoin dep d (.join i join a b) (.join i join (.join depJoin dep d a) b) := by
  refine ⟨?_, fun hnot => ⟨.left i join b, a, rfl, ?_⟩⟩
  · simp only [RaNode.ids, List.cons_append, List.append_assoc]
    exact (List.Perm.swap _ _ _).trans (List.Perm.cons _ List.perm_middle.symm)
  · simp only [RaNode.ids, List.mem_cons, not_or] at hnot
    rw [find?, if_neg (Ne.symm hnot.1), find?, if_pos rfl]
    rfl

private theorem movesDown_right (depJoin : Nat) (dep : Join) (d a b : RaNode) (i : Nat)
    (join : Join) :
    MovesDown depJoin dep d (.join i join a b) (.join i join a (.join depJoin dep d b)) := by
  refine ⟨?_, fun hnot => ⟨.right i join a, b, rfl, ?_⟩⟩
  · simp only [RaNode.ids]
    refine (List.Perm.cons i List.perm_middle).trans ?_
    refine (List.Perm.swap _ _ _).trans (List.Perm.cons _ ?_)
    refine List.Perm.trans ?_ List.perm_middle.symm
    exact List.Perm.cons i (List.append_assoc _ _ _ ▸ List.append_assoc _ _ _ ▸
      List.perm_append_comm.append_right _)
  · simp only [RaNode.ids, List.mem_cons, List.mem_append, not_or] at hnot
    rw [find?, if_neg (Ne.symm hnot.1), find?_eq_none hnot.2.1, find?, if_pos rfl]
    rfl

private theorem movesDown_belowJoin
    (h : belowJoin root depJoin dep d i join a b = some (.replace t)) :
    MovesDown depJoin dep d (.join i join a b) t := by
  rw [belowJoin] at h
  split at h
  · cases h
  · obtain ⟨onRight, -, h⟩ := Option.bind_eq_some_iff.mp h
    split at h
    · cases h
      exact movesDown_left depJoin dep d a b i join
    · split at h
      · cases h
      · obtain ⟨onLeft, -, h⟩ := Option.map_eq_some_iff.mp h
        split at h
        · cases h
          exact movesDown_right depJoin dep d a b i join
        · cases h

/-- The dependent join changes places with the top of its right side. -/
theorem movesDown_of_depJoinMove (h : depJoinMove root depJoin dep d r = some (.replace t)) :
    MovesDown depJoin dep d r t := by
  have hunary {i : Nat} {op op' : UnaryOp} {c : RaNode}
      (h : belowUnary depJoin dep d i op' c = some (.replace t)) :
      MovesDown depJoin dep d (.unary i op c) t := by
    cases belowUnary_eq_some h
    exact movesDown_unary depJoin dep d c i op op'
  cases r with
  | hole => cases h
  | leaf j op => cases h
  | unary j op c =>
    cases op with
    | projection pr => exact hunary h
    | selection p => exact hunary h
    | groupBy args implicit =>
      cases d with
      | unary k dOp dc =>
        cases dOp with
        | projection dPr => exact hunary h
        | _ => cases h
      | _ => cases h
    | _ => cases h
  | join j join l r =>
    rw [depJoinMove] at h
    split at h
    · exact movesDown_belowJoin h
    · exact movesDown_belowJoin h
    · exact movesDown_belowJoin h
    · cases h

end

section

variable {depJoin depJoinRight leftPr rightPr i n : Nat} {dep join : Join} {d r a b t : RaNode}
  {left right : Projection}

private theorem notMem_of_count {x : Nat} (h : (RaNode.join x dep d r).ids.count x = 1) :
    x ∉ d.ids ∧ x ∉ r.ids := by
  rw [RaNode.ids, List.count_cons_self, List.count_append] at h
  exact ⟨List.count_eq_zero.mp (by omega), List.count_eq_zero.mp (by omega)⟩

private theorem spread_join {xs : List Nat} (h : depJoin ∉ d.ids) (hr : depJoin ∉ r.ids)
    (hxs : ∀ x ∈ xs, x ∉ d.ids ∧ x ∉ r.ids) :
    ∀ x ∈ depJoin :: xs, x ∉ (RaNode.join depJoin dep d r).ids.tail := by
  rw [RaNode.ids, List.tail_cons]
  simp only [List.mem_append, not_or, List.forall_mem_cons]
  exact ⟨⟨h, hr⟩, hxs⟩

private theorem spread_moved (h : MovesDown depJoin dep d r t) (hd : depJoin ∉ d.ids)
    (hr : depJoin ∉ r.ids) : Spread [depJoin] t := by
  obtain ⟨F, c, rfl, hfind⟩ := h.2 hr
  have hc : depJoin ∉ c.ids := fun hmem => hr (mem_ids_plug (K := [F]).mpr (.inr hmem))
  refine ⟨List.nodup_singleton _, fun x hx => ?_, fun x hx u hu y hy => ?_⟩
  · obtain rfl := List.mem_singleton.mp hx
    rw [h.1.count_eq, List.count_cons_self, List.count_append, List.count_eq_zero.mpr hd,
      List.count_eq_zero.mpr hr]
  · obtain rfl := List.mem_singleton.mp hx
    obtain rfl := Option.some.inj (hfind.symm.trans hu)
    exact spread_join hd hc (fun _ h => absurd h List.not_mem_nil) y hy

private theorem length_ids_lt (F : Frame) (c : RaNode) : c.ids.length < (F.plug c).ids.length := by
  cases F <;> simp only [Frame.plug, RaNode.ids, List.length_cons, List.length_append] <;> omega

private theorem work_moved (h : MovesDown depJoin dep d r t) (hr : depJoin ∉ r.ids) :
    work t [depJoin] < 2 * r.ids.length + 1 := by
  obtain ⟨F, c, rfl, hfind⟩ := h.2 hr
  have hlt := length_ids_lt F c
  simp only [work, below, hfind, List.map_cons, List.map_nil, List.sum_cons, List.sum_nil]
  omega

private theorem mem_ids_splitTree {j : Nat}
    (h : j ∈ (splitTree depJoin (n + 2) n (n + 1) dep d i join left right a b).ids) :
    j ∈ (RaNode.join depJoin dep d (.join i join a b)).ids ∨ n ≤ j ∧ j < n + 3 := by
  have hmem : j = n ∨ j = n + 1 ∨ j = n + 2 ∨
      j ∈ (RaNode.join depJoin dep d (.join i join a b)).ids := by
    simp only [splitTree, RaNode.ids, List.mem_cons, List.mem_append] at h ⊢
    tauto
  rcases hmem with rfl | rfl | rfl | hmem
  · exact .inr (by omega)
  · exact .inr (by omega)
  · exact .inr (by omega)
  · exact .inl hmem

private theorem find?_splitTree (left right : Projection) (hr : depJoin ∉ (RaNode.join i join a b).ids)
    (hlt : ∀ k ∈ (RaNode.join depJoin dep d (.join i join a b)).ids, k < n) :
    find? depJoin (splitTree depJoin (n + 2) n (n + 1) dep d i join left right a b) =
        some (.join depJoin dep d a) ∧
      find? (n + 2) (splitTree depJoin (n + 2) n (n + 1) dep d i join left right a b) =
        some (.join (n + 2) { type := .dependentInnerLeft } d b) := by
  simp only [RaNode.ids, List.mem_cons, List.mem_append, not_or] at hr
  simp only [RaNode.ids, List.forall_mem_cons, List.forall_mem_append] at hlt
  obtain ⟨hdepJoin, hdlt, hi, ha, -⟩ := hlt
  have hnot {l : List Nat} (h : ∀ k ∈ l, k < n) : n + 2 ∉ l := fun hmem => by
    have := h _ hmem
    omega
  have hleft : find? (n + 2) (.projection n left (.join depJoin dep d a)) = none := by
    rw [find?, if_neg (by omega), find?, if_neg (by omega), find?_eq_none (hnot hdlt),
      find?_eq_none (hnot ha)]
    rfl
  constructor
  · rw [splitTree, find?, if_neg (Ne.symm hr.1), find?, if_neg (by omega), find?_of_id? rfl]
    rfl
  · rw [splitTree, find?, if_neg (by omega), hleft, find?, if_neg (by omega), find?_of_id? rfl]
    rfl

/-- The two dependent joins that a dependent join is split into. -/
private theorem spread_splitTree (hd : depJoin ∉ d.ids) (hr : depJoin ∉ (RaNode.join i join a b).ids)
    (hlt : ∀ k ∈ (RaNode.join depJoin dep d (.join i join a b)).ids, k < n) :
    Spread [depJoin, n + 2] (splitTree depJoin (n + 2) n (n + 1) dep d i join left right a b) := by
  obtain ⟨hleft, hright⟩ := find?_splitTree left right hr hlt
  simp only [RaNode.ids, List.mem_cons, List.mem_append, not_or] at hr
  simp only [RaNode.ids, List.forall_mem_cons, List.forall_mem_append] at hlt
  obtain ⟨hdepJoin, hdlt, hi, ha, hb⟩ := hlt
  have hnot {l : List Nat} (h : ∀ k ∈ l, k < n) : n + 2 ∉ l := fun hmem => by
    have := h _ hmem
    omega
  refine ⟨?_, fun x hx => ?_, fun x hx u hu y hy => ?_⟩
  · simp only [List.nodup_cons, List.mem_singleton, List.not_mem_nil, not_false_iff, List.nodup_nil,
      and_true]
    omega
  · simp only [splitTree, RaNode.ids, List.count_cons, List.count_append]
    rcases List.mem_cons.mp hx with rfl | hx
    · rw [List.count_eq_zero.mpr hd, List.count_eq_zero.mpr hr.2.1, List.count_eq_zero.mpr hr.2.2]
      simp only [beq_iff_eq]
      split_ifs <;> omega
    · obtain rfl := List.mem_singleton.mp hx
      rw [List.count_eq_zero.mpr (hnot hdlt), List.count_eq_zero.mpr (hnot ha),
        List.count_eq_zero.mpr (hnot hb)]
      simp only [beq_iff_eq]
      split_ifs <;> omega
  · rcases List.mem_cons.mp hx with rfl | hx
    · obtain rfl := Option.some.inj (hleft.symm.trans hu)
      refine spread_join hd hr.2.1 (fun z hz => ?_) y hy
      obtain rfl := List.mem_singleton.mp hz
      exact ⟨hnot hdlt, hnot ha⟩
    · obtain rfl := List.mem_singleton.mp hx
      obtain rfl := Option.some.inj (hright.symm.trans hu)
      have hapart (z : Nat) (hz : z ∈ [depJoin]) : z ∉ d.ids ∧ z ∉ b.ids := by
        obtain rfl := List.mem_singleton.mp hz
        exact ⟨hd, hr.2.2⟩
      exact spread_join (hnot hdlt) (hnot hb) hapart y (by simpa [or_comm] using hy)

end

/-- What stands in the place of a dependent join after a call that does not leave it where it is;
`new` are the dependent joins that the call adds. -/
structure Exchange (x : Nat) (new : List Nat) (t t' : RaTree) (u u' : RaNode) : Prop where
  found : find? x t.root = some u
  replaced : replaceJoin u' u = u'
  root : SameNodes (update x (replaceJoin u') t.root) t'.root
  nextId : t.nextId ≤ t'.nextId
  fresh : ∀ y ∈ new, t.nextId ≤ y
  ids : ∀ i ∈ u'.ids, i < t'.nextId ∧ (i ∈ u.ids ∨ t.nextId ≤ i)
  spread : Spread (x :: new) u'
  less : work u' (x :: new) < work t.root [x]
  within : ∀ y ∈ x :: new, ∀ i dep d r, find? y u' = some (.join i dep d r) →
    ∃ i' dep' d' F, u = .join i' dep' d' (Frame.plug F r)

section

variable {depJoin rightProjection i : Nat} {dep join : Join} {d a b : RaNode} {s s' : State}

/-- Where the nodes are after a dependent join is split. -/
theorem root_splitDepJoin {next : Nat}
    (h : outcome (splitDepJoin depJoin rightProjection dep d i join a b) s = (.ok next, s')) :
    ∃ left right, next = s.tree.nextId + 2 ∧ s'.tree.nextId = s.tree.nextId + 3 ∧
      SameNodes (update depJoin (replaceJoin (splitTree depJoin (s.tree.nextId + 2) s.tree.nextId
        (s.tree.nextId + 1) dep d i join left right a b)) s.tree.root) s'.tree.root := by
  unfold splitDepJoin at h
  simp only [outcome_bind_eq_ok, outcome_orCrash_eq_ok, outcome_newNode, outcome_newName,
    outcome_assert_eq_ok] at h
  obtain ⟨_, _, h₁, h⟩ := h
  cases h₁
  obtain ⟨_, _, h₂, h⟩ := h
  cases h₂
  obtain ⟨_, _, h₃, h⟩ := h
  cases h₃
  obtain ⟨leftAlias, _, h₄, h⟩ := h
  cases h₄
  obtain ⟨rightAlias, _, h₅, h⟩ := h
  cases h₅
  obtain ⟨_, _, h₆, h⟩ := h
  cases h₆
  obtain ⟨root, _, h₇, h⟩ := h
  cases h₇
  obtain ⟨_, _, ⟨-, rfl⟩, _, _, ⟨-, rfl⟩, _, _, ⟨-, rfl⟩, _, _, ⟨-, rfl⟩, _, _, ⟨-, rfl⟩, h⟩ := h
  obtain ⟨root', _, h₈, h⟩ := h
  cases h₈
  obtain ⟨renamed, _, ⟨hrenamed, rfl⟩, h⟩ := h
  obtain ⟨_, _, h₉, h⟩ := h
  cases h₉
  obtain ⟨_, _, ⟨-, rfl⟩, h⟩ := h
  obtain ⟨_, _, h₁₀, h⟩ := h
  cases h₁₀
  cases h
  refine ⟨tempProjection (numbered "temp_" s.tree.counter) [],
    tempProjection (numbered "temp_" (s.tree.counter + 1)) [], rfl, rfl, ?_⟩
  exact sameNodes_trans (sameNodes_renameAttributes hrenamed)
    (sameNodes_update (keepsNodes_finishSplit (passesJoin_naturalJoin _ _) _ _) i _)

/-- `push_down_dep_join` leaves the dependent join where it is. -/
def Stays (root : RaNode) (depJoin : Nat) : Prop :=
  ∃ i dep d r, find? depJoin root = some (.join i dep d r) ∧
    depJoinMove root depJoin dep d r = some .stay

/-- A call leaves the dependent join where it is, or takes it further down. -/
theorem pushDownDepJoin_cases {next : Option Nat}
    (h : outcome (pushDownDepJoin depJoin rightProjection) s = (.ok next, s'))
    (hone : s.tree.root.ids.count depJoin = 1)
    (hfresh : ∀ i ∈ s.tree.root.ids, i < s.tree.nextId) :
    (Stays s.tree.root depJoin ∧ next = none ∧ s' = s) ∨
      ∃ u u', Exchange depJoin next.toList s.tree s'.tree u u' := by
  obtain ⟨k, dep, d, r, move, hfind, hmove, hrun⟩ := pushDownDepJoin_eq_ok h
  obtain rfl : k = depJoin := Option.some.inj (exists_plug_of_find? hfind).1
  obtain ⟨K, hroot, hK, hone⟩ := exists_plug_of_count hone hfind
  obtain ⟨hd, hr⟩ := notMem_of_count hone
  have hlt : ∀ i ∈ (RaNode.join k dep d r).ids, i < s.tree.nextId := fun i hi =>
    hfresh i (ids_subset_of_find? hfind hi)
  have hwork : work s.tree.root [k] = 2 * r.ids.length + 1 := by
    simp [work, below, hfind]
  cases move with
  | badCast => exact hrun.elim
  | stay => exact .inl ⟨⟨k, dep, d, r, hfind, hmove⟩, hrun⟩
  | replace t =>
    obtain ⟨rfl, hrun⟩ := hrun
    cases hrun
    have hmoved := movesDown_of_depJoinMove hmove
    obtain ⟨F, c, hframe, hbelow⟩ := hmoved.2 hr
    refine .inr ⟨_, t, hfind, rfl, sameNodes_refl _, Nat.le_refl _,
      fun _ h => absurd h List.not_mem_nil, fun i hi => ?_, spread_moved hmoved hd hr,
      hwork ▸ work_moved hmoved hr, fun y hy i dep' d' r' hr' => ?_⟩
    · have hold : i ∈ (RaNode.join k dep d r).ids := hmoved.1.mem_iff.mp hi
      exact ⟨hlt i hold, .inl hold⟩
    · obtain rfl := List.mem_singleton.mp hy
      cases hbelow.symm.trans hr'
      exact ⟨y, dep, d, F, by rw [hframe]⟩
  | split i join a b =>
    obtain ⟨n, rfl, hsplit⟩ := hrun
    obtain ⟨rfl, -⟩ := depJoinMove_eq_split hmove
    obtain ⟨left, right, rfl, hnext, hnodes⟩ := root_splitDepJoin hsplit
    obtain ⟨hleft, hright⟩ := find?_splitTree left right hr hlt
    refine .inr ⟨_, splitTree k (s.tree.nextId + 2) s.tree.nextId (s.tree.nextId + 1) dep d i join
      left right a b, hfind, rfl, hnodes, by omega, fun y hy => ?_, fun j hj => ?_,
      spread_splitTree hd hr hlt, ?_, fun y hy i' dep' d' r' hr' => ?_⟩
    · obtain rfl := List.mem_singleton.mp hy
      omega
    · rw [hnext]
      rcases mem_ids_splitTree hj with hj | hj
      · exact ⟨Nat.lt_of_lt_of_le (hlt j hj) (Nat.le_add_right _ 3), .inl hj⟩
      · exact ⟨by omega, .inr hj.1⟩
    · rw [hwork]
      simp only [work, below, hleft, hright, Option.toList_some, List.map_cons, List.map_nil,
        List.sum_cons, List.sum_nil, RaNode.ids, List.length_cons, List.length_append]
      omega
    · rcases List.mem_cons.mp hy with rfl | hy
      · cases hleft.symm.trans hr'
        exact ⟨y, dep, d, .left i join b, rfl⟩
      · obtain rfl := List.mem_singleton.mp hy
        cases hright.symm.trans hr'
        exact ⟨k, dep, d, .right i join a, rfl⟩

end

end SqlOptimizer.Unnesting.DepJoinSteps
