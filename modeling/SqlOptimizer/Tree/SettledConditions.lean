import SqlOptimizer.Tree.PushDownRun
import SqlOptimizer.Tree.Nodes

/-!
A second run of `push_down_predicates`. After the first run the conditions are settled: every
conjunct goes back to the Selection that it is taken from, and the Selection gets its conjuncts in
the order in which it had them.
-/

set_option autoImplicit false
set_option relaxedAutoImplicit false

namespace SqlOptimizer.Tree.SettledConditions

open Algebra.RelationalAlgebra
open Frames Walks Nodes PushDown PushDownRun
open Logic.Runs (Carries)

/-- The predicate of a Selection at which conjuncts have arrived one after the other. -/
def merged (cs : List Expr) : Expr := cs.foldl addPredicate .nullptr

/-- The node is a join that takes the conjunct into its own condition. -/
def takes (cp : Bool) (c : Expr) : RaNode → Bool
  | .join _ _ _ _ => cp && !predicateContainsSubquery c
  | _ => false

/-- A conjunct with these relations goes back to the Selection over `child` that it is taken
from. -/
def GoesBack (cp : Bool) (c : Expr) (rels : List String) (child : RaNode) : Prop :=
  hasRelationsDefined child rels = false ∨
    isSelection child = false ∧ descent rels child = [] ∧ takes cp c child = false

/-- The predicate of a Selection over `child` is what its conjuncts give, and these go back to
the Selection. -/
def Settled (cp : Bool) (p : Expr) (child : RaNode) : Prop :=
  ∃ cs, splitSelectionPredicates p = some cs ∧ merged cs = p ∧
    ∀ c ∈ cs, ∃ rels, getPredicateRelations c = some rels ∧ GoesBack cp c rels child

private theorem descent_core_eq_nil {rels : List String} {t : RaNode} (ht : isSelection t = false) :
    descent rels (core t) = [] ↔ descent rels t = [] := by
  cases t with
  | hole => rfl
  | leaf i op => rfl
  | unary i op c => cases op <;> simp_all [core, descent, isSelection]
  | join i j l r =>
    simp only [core, descent, hasRelationsDefined_core]
    split_ifs <;> simp

private theorem takes_core {cp : Bool} {c : Expr} {t : RaNode} (ht : isSelection t = false) :
    takes cp c (core t) = takes cp c t := by
  cases t with
  | unary i op c => cases op <;> simp_all [core, takes, isSelection]
  | _ => rfl

/-- What decides where a conjunct goes is the tree without its Selections. -/
theorem GoesBack.congr {cp : Bool} {c : Expr} {rels : List String} {x x' : RaNode}
    (h : GoesBack cp c rels x) (hcore : core x' = core x)
    (hsel : isSelection x = false → isSelection x' = false) : GoesBack cp c rels x' := by
  rcases h with h | ⟨hx, hdescent, htakes⟩
  · left
    rw [← hasRelationsDefined_core, hcore, hasRelationsDefined_core, h]
  · have hx' := hsel hx
    refine .inr ⟨hx', ?_, ?_⟩
    · rw [← descent_core_eq_nil hx', hcore, descent_core_eq_nil hx, hdescent]
    · rw [← takes_core hx', hcore, takes_core hx, htakes]

theorem Settled.congr {cp : Bool} {p : Expr} {x x' : RaNode} (h : Settled cp p x)
    (hcore : core x' = core x) (hsel : isSelection x = false → isSelection x' = false) :
    Settled cp p x' := by
  obtain ⟨cs, hsplit, hmerged, hback⟩ := h
  refine ⟨cs, hsplit, hmerged, fun c hc => ?_⟩
  obtain ⟨rels, hrels, hgo⟩ := hback c hc
  exact ⟨rels, hrels, hgo.congr hcore hsel⟩

/-- The search for the relations ends at a node of which no child defines them. -/
theorem descent_eq_nil_of_found {rels : List String} {t it : RaNode} (hfull : t.Full)
    (h : findNodeWhereRelationsDefined rels t = some it) : descent rels it = [] := by
  induction t with
  | hole => cases h
  | leaf i op =>
    simp only [findNodeWhereRelationsDefined, Option.ite_none_right_eq_some, Option.some.injEq] at h
    rw [← h.2]
    rfl
  | unary i op c ih =>
    simp only [findNodeWhereRelationsDefined, Option.ite_none_right_eq_some, Option.some.injEq] at h
    have hspec := findNode_spec rels (t := c) hfull
    cases hc : hasRelationsDefined c rels with
    | true =>
      obtain ⟨n, hn, -⟩ := hspec.1 hc
      rw [hn, Option.getD_some] at h
      exact ih hfull (h.2 ▸ hn)
    | false =>
      rw [hspec.2 hc, Option.getD_none] at h
      simp [← h.2, descent, hc]
  | join i j l r ihl ihr =>
    simp only [findNodeWhereRelationsDefined, Option.ite_none_right_eq_some, Option.some.injEq] at h
    cases hl : hasRelationsDefined l rels with
    | true =>
      obtain ⟨n, hn, -⟩ := (findNode_spec rels hfull.1).1 hl
      rw [hn, Option.some_or, Option.getD_some] at h
      exact ihl hfull.1 (h.2 ▸ hn)
    | false =>
      rw [(findNode_spec rels hfull.1).2 hl, Option.none_or] at h
      cases hr : hasRelationsDefined r rels with
      | true =>
        obtain ⟨n, hn, -⟩ := (findNode_spec rels hfull.2).1 hr
        rw [hn, Option.getD_some] at h
        exact ihr hfull.2 (h.2 ▸ hn)
      | false =>
        rw [(findNode_spec rels hfull.2).2 hr, Option.getD_none] at h
        simp [← h.2, descent, hl, hr]

/-- The frame is a Selection. -/
def isSelectionFrame : Frame → Bool
  | .unary _ (.selection _) => true
  | _ => false

/-- The tree with a conjunct attached: to a join, to the Selection over a node, or to a new
Selection there. -/
inductive Placed (cp : Bool) (t : RaTree) (c : Expr) (rels : List String) : RaTree → Prop
  | join (K : List Frame) (j : Nat) (join : Join) (l r : RaNode)
      (root : t.root = plug K (.join j join l r)) :
      Placed cp t c rels { t with root := plug K (addPredicateToJoin c (.join j join l r)) }
  | selection (K : List Frame) (j : Nat) (q : Expr) (it : RaNode)
      (root : t.root = plug K (.selection j q it)) (back : GoesBack cp c rels it) :
      Placed cp t c rels { t with root := plug K (.selection j (addPredicate q c) it) }
  | newSelection (f : Frame) (K : List Frame) (it : RaNode) (root : t.root = plug (f :: K) it)
      (frame : isSelectionFrame f = false) (back : GoesBack cp c rels it) :
      Placed cp t c rels
        { t with root := plug (f :: K) (.selection t.nextId c it), nextId := t.nextId + 1 }

private theorem placed_above {cp : Bool} {t : RaTree} (ht : Distinct t.root) {f : Frame}
    {K : List Frame} {it : RaNode} (hroot : t.root = plug (f :: K) it) (hfull : it.Full) {c : Expr}
    {rels : List String} (hback : GoesBack cp c rels it) {pos : Position}
    (hpos : positionAbove t.root it = some pos) : Placed cp t c rels (attach c t pos) := by
  obtain ⟨i, hi⟩ := exists_id?_of_full hfull
  have hd : Distinct (plug (f :: K) it) := hroot ▸ ht
  have hparent : getNodeParent i t.root = some (f.plug it, f.index) := by
    rw [hroot]
    exact getNodeParent_plug hd hi
  rw [positionAbove, hi, Option.bind_some, hparent, Option.bind_some] at hpos
  by_cases hf : ∃ j q, f = .unary j (.selection q)
  · obtain ⟨j, q, rfl⟩ := hf
    obtain rfl := Option.some.inj hpos
    have hattach : attach c t (.selection j) =
        { t with root := plug K (.selection j (addPredicate q c) it) } := by
      have hid : (RaNode.selection j q it).id? = some j := rfl
      have hplug : Distinct (plug K (.selection j q it)) := hd
      have hroot' : t.root = plug K (.selection j q it) := hroot
      rw [attach, hroot', update_plug_of_id? hplug hid]
      rfl
    exact hattach ▸ .selection K j q it hroot hback
  · have hframe : isSelectionFrame f = false := by
      cases f with
      | unary j op => cases op <;> simp_all [isSelectionFrame]
      | _ => rfl
    have hpos' : pos = .newSelection f.id f.index it := by
      cases f with
      | unary j op => cases op <;> simp_all [Frame.plug, Frame.id, RaNode.id?]
      | left j join r => exact (Option.some.inj hpos).symm
      | right j join l => exact (Option.some.inj hpos).symm
    have hhole : it ≠ .hole := by
      rintro rfl
      exact hfull
    have hattach : attach c t pos =
        { t with root := plug (f :: K) (.selection t.nextId c it), nextId := t.nextId + 1 } := by
      rw [hpos', attach, hroot, plug_cons]
      rw [plug_cons] at hd
      rw [update_plug_of_id? hd (f.id?_plug it), setChild_plug f hhole]
      rfl
    exact hattach ▸ .newSelection f K it hroot hframe hback

/-- Where a step of the second loop attaches its conjunct. -/
theorem placed {cp : Bool} {t : RaTree} (ht : WellFormed t) {i : Nat} {p : Expr} {child : RaNode}
    (hfind : find? i t.root = some (.selection i p child)) {c : Expr} {rels : List String}
    {t' : RaTree} (hstep : step cp t (.place i c rels) = some t') : Placed cp t c rels t' := by
  obtain ⟨-, K, hroot⟩ := exists_plug_of_find? hfind
  have hd : Distinct (plug K (.selection i p child)) := hroot ▸ ht.distinct
  have hfull : child.Full := (full_plug.mp (hroot ▸ ht.full : (plug K (.selection i p child)).Full)).2
  simp only [step, stepPosition, hfind, position, Option.map_eq_some_iff] at hstep
  obtain ⟨pos, hpos, rfl⟩ := hstep
  cases hdef : hasRelationsDefined child rels with
  | false =>
    rw [(findNode_spec rels hfull).2 hdef] at hpos
    obtain rfl := Option.some.inj hpos
    have hattach : attach c t (.selection i) =
        { t with root := plug K (.selection i (addPredicate p c) child) } := by
      have hid : (RaNode.selection i p child).id? = some i := rfl
      rw [attach, hroot, update_plug_of_id? hd hid]
      rfl
    exact hattach ▸ .selection K i p child hroot (.inl hdef)
  | true =>
    obtain ⟨it, hit, hchild, hfull', hsel, -, -⟩ := (findNode_spec rels hfull).1 hdef
    have hend := descent_eq_nil_of_found hfull hit
    rw [hit] at hpos
    have hroot' : t.root = plug (descent rels child ++ .unary i (.selection p) :: K) it := by
      rw [plug_append, ← hchild, hroot]
      rfl
    obtain ⟨f, L, hfL⟩ : ∃ f L, descent rels child ++ .unary i (.selection p) :: K = f :: L :=
      List.exists_cons_of_ne_nil (by simp)
    rw [hfL] at hroot'
    have habove (htakes : takes cp c it = false) (h : positionAbove t.root it = some pos) :
        Placed cp t c rels (attach c t pos) :=
      placed_above ht.distinct hroot' hfull' (.inr ⟨hsel, hend, htakes⟩) h
    cases it with
    | join j join l r =>
      simp only [insertPosition] at hpos
      split at hpos
      · obtain rfl := Option.some.inj hpos
        have hattach : attach c t (.join j) =
            { t with root := plug (f :: L) (addPredicateToJoin c (.join j join l r)) } := by
          have hid : (RaNode.join j join l r).id? = some j := rfl
          have hplug : Distinct (plug (f :: L) (.join j join l r)) := hroot' ▸ ht.distinct
          rw [attach, hroot', update_plug_of_id? hplug hid]
        exact hattach ▸ .join (f :: L) j join l r hroot'
      · next htakes => exact habove (Bool.eq_false_iff.mpr htakes) hpos
    | hole => exact hfull'.elim
    | leaf j op => exact habove rfl hpos
    | unary j op child => exact habove rfl hpos

private theorem isSelection_plug_of {x x' : RaNode}
    (hsel : isSelection x = false → isSelection x' = false) (D : List Frame)
    (h : isSelection (plug D x) = false) : isSelection (plug D x') = false := by
  cases D with
  | nil => exact hsel h
  | cons f D => rw [isSelection_plug (List.cons_ne_nil f D) x' x, h]

/-- A property of the Selections that is kept above a place of the tree and at the place is kept in
the tree. -/
theorem forall_selections_plug {P : Nat × Expr × RaNode → Prop} {x x' : RaNode}
    (habove : ∀ i p D, P (i, p, plug D x) → P (i, p, plug D x'))
    (hx : (∀ s ∈ getAllSelections x, P s) → ∀ s ∈ getAllSelections x', P s) (K : List Frame)
    (h : ∀ s ∈ getAllSelections (plug K x), P s) : ∀ s ∈ getAllSelections (plug K x'), P s := by
  induction K generalizing x x' with
  | nil => exact hx h
  | cons f K ih =>
    refine ih (fun i p D => habove i p (f :: D)) ?_ h
    intro h
    cases f with
    | unary i op =>
      cases op with
      | selection p =>
        simp only [Frame.plug, getAllSelections, List.forall_mem_cons] at h ⊢
        exact ⟨habove i p [] h.1, hx h.2⟩
      | _ => exact hx h
    | left i join r =>
      simp only [Frame.plug, getAllSelections, List.forall_mem_append] at h ⊢
      exact ⟨hx h.1, h.2⟩
    | right i join l =>
      simp only [Frame.plug, getAllSelections, List.forall_mem_append] at h ⊢
      exact ⟨h.1, hx h.2⟩

private theorem splitAll_append {es es' cs cs' : List Expr} (h : splitAll es = some cs)
    (h' : splitAll es' = some cs') : splitAll (es ++ es') = some (cs ++ cs') := by
  induction es generalizing cs with
  | nil =>
    cases h
    exact h'
  | cons e es ih =>
    simp only [splitAll, Option.bind_eq_some_iff, Option.map_eq_some_iff] at h
    obtain ⟨l, hl, r, hr, rfl⟩ := h
    simp [splitAll, hl, ih hr]

/-- The conjuncts of a predicate are not split any further. -/
theorem split_of_mem_split {p : Expr} {cs : List Expr} (h : splitSelectionPredicates p = some cs) :
    ∀ c ∈ cs, splitSelectionPredicates c = some [c] := by
  induction p using Expr.ind generalizing cs with
  | boolPredicate op args ih =>
    cases op with
    | and =>
      rw [splitSelectionPredicates] at h
      induction args generalizing cs with
      | nil =>
        cases h
        simp
      | cons e es ihs =>
        rw [List.forall_mem_cons] at ih
        simp only [splitAll, Option.bind_eq_some_iff, Option.map_eq_some_iff] at h
        obtain ⟨l, hl, r, hr, rfl⟩ := h
        exact List.forall_mem_append.mpr ⟨ih.1 hl, ihs ih.2 hr⟩
    | _ =>
      cases h
      simp [splitSelectionPredicates]
  | _ =>
    cases h
    try simp [splitSelectionPredicates]

/-- A Selection at which a conjunct arrives stays settled. -/
theorem Settled.addPredicate {cp : Bool} {q c : Expr} {it : RaNode} {rels : List String}
    (h : Settled cp q it ∨ q = .nullptr) (hc : splitSelectionPredicates c = some [c])
    (hrels : getPredicateRelations c = some rels) (hback : GoesBack cp c rels it) :
    Settled cp (addPredicate q c) it := by
  rcases h with ⟨cs, hsplit, hmerged, hcs⟩ | rfl
  · have hall : ∀ e ∈ cs ++ [c], ∃ rels, getPredicateRelations e = some rels ∧
        GoesBack cp e rels it := by
      simp only [List.forall_mem_append, List.forall_mem_singleton]
      exact ⟨hcs, rels, hrels, hback⟩
    have hmerged' : merged (cs ++ [c]) = PushDown.addPredicate q c := by
      rw [merged, List.foldl_append, ← merged, hmerged]
      rfl
    have hadded (hsplit' : splitSelectionPredicates (PushDown.addPredicate q c) = some (cs ++ [c])) :
        Settled cp (PushDown.addPredicate q c) it := ⟨cs ++ [c], hsplit', hmerged', hall⟩
    cases q with
    | nullptr => cases hsplit
    | boolPredicate op args =>
      cases op with
      | and => exact hadded (splitAll_append hsplit (by simp [splitAll, hc]))
      | _ =>
        cases hsplit
        exact hadded (by simp [PushDown.addPredicate, splitSelectionPredicates, splitAll, hc])
    | predicate l r op =>
      cases hsplit
      exact hadded (by simp [PushDown.addPredicate, splitSelectionPredicates, splitAll, hc])
    | nullTest arg type =>
      cases hsplit
      exact hadded (by simp [PushDown.addPredicate, splitSelectionPredicates, splitAll, hc])
    | _ => exact ⟨cs, hsplit, hmerged, hcs⟩
  · refine ⟨[c], hc, rfl, ?_⟩
    simp only [List.forall_mem_singleton]
    exact ⟨rels, hrels, hback⟩

/-- Every Selection is settled, or it is empty and still to be processed; the conjuncts that are
to come are not split any further. -/
structure SettledSoFar (cp : Bool) (pending : List Step) (t : RaTree) : Prop where
  selections : ∀ s ∈ getAllSelections t.root,
    Settled cp s.2.1 s.2.2 ∨ s.2.1 = .nullptr ∧ .removeIfEmpty s.1 ∈ pending
  conjuncts : ∀ i c rels, .place i c rels ∈ pending →
    splitSelectionPredicates c = some [c] ∧ getPredicateRelations c = some rels

private theorem settled_or_congr {cp : Bool} {i : Nat} {p : Expr} {pending : List Step}
    {x x' : RaNode} (hcore : core x' = core x)
    (hsel : isSelection x = false → isSelection x' = false) (D : List Frame)
    (h : Settled cp p (plug D x) ∨ p = .nullptr ∧ .removeIfEmpty i ∈ pending) :
    Settled cp p (plug D x') ∨ p = .nullptr ∧ .removeIfEmpty i ∈ pending :=
  h.imp_left fun h => h.congr (core_plug hcore D) (isSelection_plug_of hsel D)

/-- A conjunct that is attached leaves the Selections settled. -/
private theorem settledSoFar_placed {cp : Bool} {pending : List Step} {t t' : RaTree} {i : Nat}
    {c : Expr} {rels : List String} (h : SettledSoFar cp (.place i c rels :: pending) t)
    (hplaced : Placed cp t c rels t') : SettledSoFar cp pending t' := by
  obtain ⟨hc, hrels⟩ := h.conjuncts i c rels List.mem_cons_self
  refine ⟨?_, fun j c' rels' hmem => h.conjuncts j c' rels' (List.mem_cons_of_mem _ hmem)⟩
  have hselections : ∀ s ∈ getAllSelections t.root,
      Settled cp s.2.1 s.2.2 ∨ s.2.1 = .nullptr ∧ .removeIfEmpty s.1 ∈ pending := by
    intro s hs
    refine (h.selections s hs).imp_right fun hnull => ⟨hnull.1, ?_⟩
    exact (List.mem_cons.mp hnull.2).resolve_left (by simp)
  cases hplaced with
  | join K j join l r hroot =>
    rw [hroot] at hselections
    refine forall_selections_plug ?_ ?_ K hselections
    · exact fun j p D => settled_or_congr (by simp [core, addPredicateToJoin]) (fun _ => rfl) D
    · exact id
  | selection K j q it hroot hback =>
    rw [hroot] at hselections
    refine forall_selections_plug ?_ ?_ K hselections
    · intro k p D
      have hself : isSelection (.selection j q it) = false →
          isSelection (.selection j (addPredicate q c) it) = false := id
      have hcore : core (.selection j (addPredicate q c) it) = core (.selection j q it) := rfl
      exact settled_or_congr hcore hself D
    · simp only [getAllSelections, List.forall_mem_cons]
      intro hit
      exact ⟨.inl (.addPredicate (hit.1.imp_right And.left) hc hrels hback), hit.2⟩
  | newSelection f K it hroot hframe hback =>
    rw [hroot] at hselections
    have hnew : Settled cp c it := ⟨[c], hc, rfl, by simpa using ⟨rels, hrels, hback⟩⟩
    have hcore : core (f.plug (.selection t.nextId c it)) = core (f.plug it) :=
      core_plug (show core (.selection t.nextId c it) = core it from rfl) [f]
    refine forall_selections_plug (x := f.plug it) ?_ ?_ K hselections
    · refine fun j p D => settled_or_congr hcore (fun h => ?_) D
      rw [← h]
      exact isSelection_plug (K := [f]) (by simp) _ _
    · intro hit
      cases f with
      | unary j op =>
        cases op with
        | selection p => cases hframe
        | _ => exact List.forall_mem_cons.mpr ⟨.inl hnew, hit⟩
      | left j join r =>
        simp only [Frame.plug, getAllSelections, List.forall_mem_append, List.forall_mem_cons] at hit ⊢
        exact ⟨⟨.inl hnew, hit.1⟩, hit.2⟩
      | right j join l =>
        simp only [Frame.plug, getAllSelections, List.forall_mem_append, List.forall_mem_cons] at hit ⊢
        exact ⟨hit.1, .inl hnew, hit.2⟩

private theorem selection_mem_nodes {t : RaNode} {s : Nat × Expr × RaNode}
    (hs : s ∈ getAllSelections t) : RaNode.selection s.1 s.2.1 s.2.2 ∈ nodes t := by
  induction t with
  | hole => cases hs
  | leaf i op => cases hs
  | unary i op c ih =>
    cases op with
    | selection p =>
      rcases List.mem_cons.mp hs with rfl | hs
      · exact List.mem_cons_self
      · exact List.mem_cons_of_mem _ (ih hs)
    | _ => exact List.mem_cons_of_mem _ (ih hs)
  | join i j l r ihl ihr =>
    apply List.mem_cons_of_mem
    exact List.mem_append.mpr ((List.mem_append.mp hs).imp ihl ihr)

/-- The removal of an emptied Selection leaves the others settled. -/
private theorem settledSoFar_removeIfEmpty {cp : Bool} {pending : List Step} {t t' : RaTree}
    {i : Nat} {p : Expr} {child : RaNode} (ht : WellFormed t)
    (h : SettledSoFar cp (.removeIfEmpty i :: pending) t)
    (hfind : find? i t.root = some (.selection i p child))
    (hstep : step cp t (.removeIfEmpty i) = some t') : SettledSoFar cp pending t' := by
  refine ⟨?_, fun j c rels hmem => h.conjuncts j c rels (List.mem_cons_of_mem _ hmem)⟩
  -- a Selection with another address is processed later
  have hlater {s : Nat × Expr × RaNode} (hs : s ∈ getAllSelections t.root) (hne : s.1 ≠ i) :
      Settled cp s.2.1 s.2.2 ∨ s.2.1 = .nullptr ∧ .removeIfEmpty s.1 ∈ pending := by
    refine (h.selections s hs).imp_right fun hnull => ⟨hnull.1, ?_⟩
    exact (List.mem_cons.mp hnull.2).resolve_left (by simp [hne])
  have hself {s : Nat × Expr × RaNode} (hs : s ∈ getAllSelections t.root) (hi : s.1 = i) :
      s = (i, p, child) := by
    obtain ⟨K, hK⟩ := exists_plug_of_mem_nodes (selection_mem_nodes hs)
    have hd : Distinct (plug K (.selection s.1 s.2.1 s.2.2)) := hK ▸ ht.distinct
    have hfind' := find?_plug_of_id? hd rfl
    rw [← hK, hi, hfind] at hfind'
    obtain ⟨j, q, x⟩ := s
    simp_all
  obtain ⟨t'', hstep', hcases⟩ := step_removeIfEmpty cp ht hfind
  obtain rfl : t'' = t' := Option.some.inj (hstep'.symm.trans hstep)
  rcases hcases with ⟨hp, rfl⟩ | ⟨rfl, f, K, hroot, rfl⟩
  · intro s hs
    by_cases hi : s.1 = i
    · left
      refine (h.selections s hs).resolve_right fun hnull => hp ?_
      rw [hself hs hi] at hnull
      exact hnull.1
    · exact hlater hs hi
  · have hd : Distinct (plug (f :: K) (.selection i .nullptr child)) := hroot ▸ ht.distinct
    have hkept : ∀ s ∈ getAllSelections (plug (f :: K) (.selection i .nullptr child)), s.1 ≠ i →
        Settled cp s.2.1 s.2.2 ∨ s.2.1 = .nullptr ∧ .removeIfEmpty s.1 ∈ pending :=
      fun s hs => hlater (hroot ▸ hs)
    have hsub : ∀ s ∈ getAllSelections (plug (f :: K) child), s.1 ≠ i := by
      intro s hs hi
      have hmem := (getAllSelections_ids_sublist _).subset (List.mem_map_of_mem hs)
      rw [hi, mem_ids_plug] at hmem
      refine hmem.elim (hd.not_mem_context List.mem_cons_self) ?_
      exact (List.nodup_cons.mp (distinct_plug.mp hd).2.1).1
    have hcore : core child = core (.selection i .nullptr child) := rfl
    have hsel : isSelection (.selection i .nullptr child) = false → isSelection child = false :=
      fun h => by cases h
    have hall := forall_selections_plug
      (fun _ _ D hD hne => settled_or_congr hcore hsel D (hD hne))
      (fun hs => (List.forall_mem_cons.mp hs).2) (f :: K) hkept
    exact fun s hs => hall s hs (hsub s hs)

/-- The invariants of a first run. -/
theorem settledSoFar_carries (cp : Bool) (original : RaNode) :
    Carries (step cp) fun ss t => RunInvariant original ss t ∧ SettledSoFar cp ss t := by
  rintro s ss t ⟨hI, hJ⟩
  obtain ⟨p, child, hfind, -⟩ := hI.next
  obtain ⟨t', hstep, hI'⟩ := runInvariant_carries cp original s ss t hI
  refine ⟨t', hstep, hI', ?_⟩
  cases s with
  | place i c rels => exact settledSoFar_placed hJ (placed hI.wellFormed hfind hstep)
  | removeIfEmpty i => exact settledSoFar_removeIfEmpty hI.wellFormed hJ hfind hstep

theorem getAllSelections_detachPredicates (t : RaNode) :
    getAllSelections (detachPredicates t) =
      (getAllSelections t).map fun s => (s.1, .nullptr, detachPredicates s.2.2) := by
  induction t with
  | hole => rfl
  | leaf i op => rfl
  | unary i op c ih => cases op <;> simp [detachPredicates, getAllSelections, ih]
  | join i j l r ihl ihr => simp [detachPredicates, getAllSelections, ihl, ihr]

private theorem selectionSteps_eq_some {i : Nat} {p : Expr} {ss : List Step}
    (h : selectionSteps i p = some ss) : ∃ cs places, splitSelectionPredicates p = some cs ∧
      List.Forall₂ (fun c s => (getPredicateRelations c).map (Step.place i c) = some s) cs places ∧
      ss = places ++ [.removeIfEmpty i] := by
  simp only [selectionSteps, Option.bind_eq_some_iff, Option.map_eq_some_iff,
    Logic.Runs.mapM_eq_some_iff] at h
  obtain ⟨cs, hcs, places, hplaces, rfl⟩ := h
  refine ⟨cs, places, hcs, ?_, rfl⟩
  simpa only [Option.map_eq_some_iff] using hplaces

/-- When the second loop starts all Selections are empty. -/
theorem settledSoFar_detached (cp : Bool) {t : RaTree} {ss : List Step}
    (hss : steps t.root = some ss) : SettledSoFar cp ss (detached t) := by
  obtain ⟨sss, rfl, h⟩ := steps_eq_some_iff.mp hss
  refine ⟨?_, ?_⟩
  · rw [detached, getAllSelections_detachPredicates, List.forall_mem_map]
    refine fun s hs => .inr ⟨rfl, ?_⟩
    clear hss
    generalize getAllSelections t.root = sels at h hs
    induction h with
    | nil => cases hs
    | cons hsel _ ih =>
      rw [List.flatten_cons, List.mem_append]
      rcases List.mem_cons.mp hs with rfl | hs
      · obtain ⟨_, _, -, -, rfl⟩ := selectionSteps_eq_some hsel
        exact .inl (by simp)
      · exact .inr (ih hs)
  · intro i c rels hmem
    clear hss
    generalize getAllSelections t.root = sels at h
    induction h with
    | nil => cases hmem
    | cons hsel _ ih =>
      rw [List.flatten_cons, List.mem_append] at hmem
      refine hmem.elim (fun hmem => ?_) ih
      obtain ⟨cs, places, hsplit, hplaces, rfl⟩ := selectionSteps_eq_some hsel
      have hplace := (List.mem_append.mp hmem).resolve_right (by simp)
      rw [← Logic.Runs.mapM_eq_some_iff] at hplaces
      obtain ⟨c', hc', hmap⟩ := Logic.Runs.exists_of_mem_mapM hplaces hplace
      obtain ⟨rels', hrels, heq⟩ := Option.map_eq_some_iff.mp hmap
      cases heq
      exact ⟨split_of_mem_split hsplit c hc', hrels⟩

/-- After a run all Selections are settled. -/
theorem settled_of_pushDownPredicates {cp : Bool} {t t' : RaTree} (ht : WellFormed t)
    (hrun : pushDownPredicates cp t = some t') :
    WellFormed t' ∧ ∀ s ∈ getAllSelections t'.root, Settled cp s.2.1 s.2.2 := by
  simp only [pushDownPredicates, Option.bind_eq_some_iff] at hrun
  obtain ⟨ss, hss, hfold⟩ := hrun
  obtain ⟨t'', hfold', hI, hJ⟩ := (settledSoFar_carries cp t.root).exists_run
    ⟨runInvariant_detached ht hss, settledSoFar_detached cp hss⟩
  obtain rfl : t'' = t' := Option.some.inj (hfold'.symm.trans hfold)
  refine ⟨hI.wellFormed, fun s hs => (hJ.selections s hs).resolve_right ?_⟩
  exact fun h => List.not_mem_nil h.2

/-- A conjunct that goes back joins the Selection that it is taken from. -/
private theorem step_goesBack {cp : Bool} {t : RaTree} {K : List Frame} {i : Nat} {q c : Expr}
    {child : RaNode} {rels : List String} (hd : Distinct (plug K (.selection i q child)))
    (hfull : child.Full) (hroot : t.root = plug K (.selection i q child))
    (h : GoesBack cp c rels child) :
    step cp t (.place i c rels) =
      some { t with root := plug K (.selection i (addPredicate q c) child) } := by
  have hfind : find? i t.root = some (.selection i q child) := by
    rw [hroot]
    exact find?_plug_of_id? hd rfl
  have hattach : attach c t (.selection i) =
      { t with root := plug K (.selection i (addPredicate q c) child) } := by
    have hid : (RaNode.selection i q child).id? = some i := rfl
    rw [attach, hroot, update_plug_of_id? hd hid]
    rfl
  have hposition : position cp t.root i child c rels = some (.selection i) := by
    rw [position]
    cases hdef : hasRelationsDefined child rels with
    | false => rw [(findNode_spec rels hfull).2 hdef]
    | true =>
      obtain ⟨hsel, hdescent, htakes⟩ := h.resolve_left (by simp [hdef])
      obtain ⟨it, hit, hchild, -, -, -, -⟩ := (findNode_spec rels hfull).1 hdef
      rw [hdescent, plug_nil] at hchild
      subst hchild
      obtain ⟨j, hj⟩ := exists_id?_of_full hfull
      have habove : positionAbove t.root child = some (.selection i) := by
        have hplug : Distinct (plug (.unary i (.selection q) :: K) child) := hd
        have hparent := getNodeParent_plug hplug hj
        have hroot' : t.root = plug (.unary i (.selection q) :: K) child := hroot
        rw [positionAbove, hj, Option.bind_some, hroot', hparent]
        rfl
      rw [hit]
      cases child with
      | join j join l r =>
        have hnot : (cp && !predicateContainsSubquery c) = false := htakes
        simp [insertPosition, hnot, habove]
      | _ => exact habove
  simp [step, stepPosition, hfind, hposition, hattach]

/-- The conjuncts of one Selection go back to it. -/
private theorem selection_restored {cp : Bool} {t : RaTree} {K : List Frame} {i : Nat} {p : Expr}
    {child : RaNode} (hd : Distinct (plug K (.selection i .nullptr child))) (hfull : child.Full)
    (hroot : t.root = plug K (.selection i .nullptr child)) (h : Settled cp p child) :
    ∃ ss, selectionSteps i p = some ss ∧
      ss.foldlM (step cp) t = some { t with root := plug K (.selection i p child) } := by
  obtain ⟨cs, hsplit, hmerged, hback⟩ := h
  -- the conjuncts arrive one after the other
  have hfold : ∀ q, Distinct (plug K (.selection i q child)) → ∀ t : RaTree,
      t.root = plug K (.selection i q child) →
      ∃ places, cs.mapM (fun c => (getPredicateRelations c).map (Step.place i c)) = some places ∧
        places.foldlM (step cp) t =
          some { t with root := plug K (.selection i (cs.foldl addPredicate q) child) } := by
    clear hsplit hmerged
    induction cs with
    | nil =>
      intro q _ t hroot
      exact ⟨[], rfl, by rw [List.foldl_nil, ← hroot]; rfl⟩
    | cons c cs ih =>
      intro q hq t hroot
      rw [List.forall_mem_cons] at hback
      obtain ⟨⟨rels, hrels, hgo⟩, hback⟩ := hback
      have hstep := step_goesBack hq hfull hroot hgo
      have hq' : Distinct (plug K (.selection i (addPredicate q c) child)) := by
        rw [distinct_plug] at hq ⊢
        exact hq
      obtain ⟨places, hplaces, hrest⟩ := ih hback (addPredicate q c) hq'
        { t with root := plug K (.selection i (addPredicate q c) child) } rfl
      refine ⟨.place i c rels :: places, by simp [hrels, hplaces], ?_⟩
      rw [List.foldlM_cons, hstep, Option.bind_eq_bind, Option.bind_some, hrest]
      rfl
  obtain ⟨places, hplaces, hrest⟩ := hfold .nullptr hd t hroot
  refine ⟨places ++ [.removeIfEmpty i], by simp [selectionSteps, hsplit, hplaces], ?_⟩
  have hp : p ≠ .nullptr := by
    rintro rfl
    cases hsplit
  have hd' : Distinct (plug K (.selection i p child)) := by
    rw [distinct_plug] at hd ⊢
    exact hd
  have hfind : find? i (plug K (.selection i p child)) = some (.selection i p child) :=
    find?_plug_of_id? hd' rfl
  have hmerged' : cs.foldl addPredicate .nullptr = p := hmerged
  rw [List.foldlM_append, hrest, hmerged', Option.bind_eq_bind, Option.bind_some]
  simp only [List.foldlM_cons, List.foldlM_nil, step, hfind]
  cases p <;> first | rfl | exact absurd rfl hp

/-- The loop over the Selections of a subtree gives each its conjuncts back. -/
private theorem subtree_restored {cp : Bool} {x : RaNode} (hfull : x.Full)
    (hx : ∀ s ∈ getAllSelections x, Settled cp s.2.1 s.2.2) :
    ∀ (K : List Frame) (t : RaTree), Distinct (plug K (detachPredicates x)) →
      t.root = plug K (detachPredicates x) →
      ∃ sss, (getAllSelections x).mapM (fun s => selectionSteps s.1 s.2.1) = some sss ∧
        sss.flatten.foldlM (step cp) t = some { t with root := plug K x } := by
  induction x with
  | hole => exact hfull.elim
  | leaf i op =>
    intro K t _ hroot
    exact ⟨[], rfl, by rw [show plug K (.leaf i op) = t.root from hroot.symm]; rfl⟩
  | unary i op c ih =>
    intro K t hd hroot
    cases op with
    | selection p =>
      simp only [getAllSelections, List.forall_mem_cons] at hx
      have hdetached : Settled cp p (detachPredicates c) := by
        refine hx.1.congr (core_detachPredicates c) fun hsel => ?_
        cases c with
        | unary j op' c' => cases op' <;> first | rfl | cases hsel
        | _ => rfl
      obtain ⟨ss, hss, hself⟩ :=
        selection_restored hd (full_detachPredicates.mpr hfull) hroot hdetached
      have hd' : Distinct (plug (.unary i (.selection p) :: K) (detachPredicates c)) := by
        rw [plug_cons, distinct_plug]
        rw [detachPredicates, distinct_plug] at hd
        exact hd
      obtain ⟨sss, hsss, hbelow⟩ := ih hfull hx.2 (.unary i (.selection p) :: K)
        { t with root := plug K (.selection i p (detachPredicates c)) } hd' rfl
      refine ⟨ss :: sss, by simp [getAllSelections, hss, hsss], ?_⟩
      rw [List.flatten_cons, List.foldlM_append, hself, Option.bind_eq_bind, Option.bind_some,
        hbelow]
      rfl
    | root => exact ih hfull hx (.unary i .root :: K) t hd hroot
    | projection pr => exact ih hfull hx (.unary i (.projection pr) :: K) t hd hroot
    | orderBy args dirs => exact ih hfull hx (.unary i (.orderBy args dirs) :: K) t hd hroot
    | groupBy args implicit => exact ih hfull hx (.unary i (.groupBy args implicit) :: K) t hd hroot
    | having p => exact ih hfull hx (.unary i (.having p) :: K) t hd hroot
  | join i j l r ihl ihr =>
    intro K t hd hroot
    simp only [getAllSelections, List.forall_mem_append] at hx
    obtain ⟨ls, hls, hleft⟩ := ihl hfull.1 hx.1 (.left i j (detachPredicates r) :: K) t hd hroot
    have hd' : Distinct (plug (.right i j l :: K) (detachPredicates r)) := by
      rw [plug_cons, distinct_plug]
      rw [detachPredicates, distinct_plug] at hd
      simpa [Frame.plug, Distinct, RaNode.ids, ids_detachPredicates] using hd
    obtain ⟨rs, hrs, hright⟩ := ihr hfull.2 hx.2 (.right i j l :: K)
      { t with root := plug (.left i j (detachPredicates r) :: K) l } hd' rfl
    refine ⟨ls ++ rs, by simp [getAllSelections, List.mapM_append, hls, hrs], ?_⟩
    rw [List.flatten_append, List.foldlM_append, hleft, Option.bind_eq_bind, Option.bind_some,
      hright]
    rfl

/-- A second run of `push_down_predicates` changes nothing: the nodes, their positions and the
order of the conjuncts stay. -/
theorem pushDownPredicates_idempotent (cp : Bool) {t t' : RaTree} (ht : WellFormed t)
    (hrun : pushDownPredicates cp t = some t') : pushDownPredicates cp t' = some t' := by
  obtain ⟨ht', hsettled⟩ := settled_of_pushDownPredicates ht hrun
  obtain ⟨sss, hsss, hfold⟩ := subtree_restored ht'.full hsettled [] (detached t')
    ht'.detached.distinct rfl
  have hsteps : steps t'.root = some sss.flatten := by rw [steps, hsss]; rfl
  rw [pushDownPredicates, hsteps, Option.bind_some, hfold]
  rfl

/-- `select * from r, s where r.a=1 and r.b=s.b and r.c=2`. -/
def threeConditions : RaTree where
  root :=
    .projection 0 { args := [.selectExpression (.attribute "*" "") ""] }
      (.selection 1
        (.boolPredicate .and
          [.predicate (.attribute "a" "r") (.constant "1" .int) "=",
            .predicate (.attribute "b" "r") (.attribute "b" "s") "=",
            .predicate (.attribute "c" "r") (.constant "2" .int) "="])
        (.join 2 { type := .crossProduct } (.relation 3 "r" "") (.relation 4 "s" "")))
  nextId := 5

/-- Two conjuncts go to a new Selection over `r`, the third becomes the join condition. -/
def threeConditionsPushed : RaTree where
  root :=
    .projection 0 { args := [.selectExpression (.attribute "*" "") ""] }
      (.join 2
        { type := .inner, predicate := .predicate (.attribute "b" "r") (.attribute "b" "s") "=" }
        (.selection 5
          (.boolPredicate .and
            [.predicate (.attribute "a" "r") (.constant "1" .int) "=",
              .predicate (.attribute "c" "r") (.constant "2" .int) "="])
          (.relation 3 "r" ""))
        (.relation 4 "s" ""))
  nextId := 6

theorem threeConditions_pushed_once_and_twice :
    pushDownPredicates true threeConditions = some threeConditionsPushed ∧
      pushDownPredicates true threeConditionsPushed = some threeConditionsPushed := by
  have hrun : pushDownPredicates true threeConditions = some threeConditionsPushed := rfl
  have hwellFormed : WellFormed threeConditions := by
    refine ⟨?_, ?_, ?_, rfl⟩
    · unfold Distinct
      decide
    · exact ⟨trivial, trivial⟩
    · decide
  exact ⟨hrun, pushDownPredicates_idempotent true hwellFormed hrun⟩

end SqlOptimizer.Tree.SettledConditions
