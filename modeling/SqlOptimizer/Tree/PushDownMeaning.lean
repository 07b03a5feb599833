import SqlOptimizer.Semantics.Equivalence
import SqlOptimizer.Tree.PushDownConditions

/-!
The rows of a tree under `push_down_predicates`. Between two steps the tree means the
same as the original one, if the conjuncts that are still to be placed are put back at
their Selections; a step keeps this meaning when its conjunct may pass every operator
between the Selection and the node that receives it.
-/

set_option autoImplicit false
set_option relaxedAutoImplicit false

namespace SqlOptimizer.Tree.PushDownMeaning

open Algebra.RelationalAlgebra
open Logic.NestedLoops Logic.ThreeValued
open Frames Walks PushDown PushDownRun PushDownConditions
open Semantics.Evaluation Semantics.References Semantics.RowShape Semantics.Equivalence
open Logic.Runs (AtEveryStep Carries)

/-- The tree with conjuncts put back at its Selections. -/
def restore (pend : Nat → List Expr) : RaNode → RaNode
  | .hole => .hole
  | .leaf i op => .leaf i op
  | .unary i (.selection p) c =>
      .selection i (.boolPredicate .and (p :: pend i)) (restore pend c)
  | .unary i op c => .unary i op (restore pend c)
  | .join i join l r => .join i join (restore pend l) (restore pend r)

def restoreFrame (pend : Nat → List Expr) : Frame → Frame
  | .unary i (.selection p) => .unary i (.selection (.boolPredicate .and (p :: pend i)))
  | .unary i op => .unary i op
  | .left i join r => .left i join (restore pend r)
  | .right i join l => .right i join (restore pend l)

theorem restore_plug (pend : Nat → List Expr) (K : List Frame) (t : RaNode) :
    restore pend (plug K t) = plug (K.map (restoreFrame pend)) (restore pend t) := by
  induction K generalizing t with
  | nil => rfl
  | cons f K ih =>
    rw [plug_cons, ih, List.map_cons, plug_cons]
    cases f with
    | unary i op => cases op <;> rfl
    | left i join r => rfl
    | right i join l => rfl

theorem restore_congr {pend pend' : Nat → List Expr} {t : RaNode}
    (h : ∀ i ∈ t.ids, pend i = pend' i) : restore pend t = restore pend' t := by
  induction t with
  | hole => rfl
  | leaf i op => rfl
  | unary i op c ih =>
    rw [RaNode.ids, List.forall_mem_cons] at h
    cases op <;> simp [restore, ih h.2, h.1]
  | join i join l r ihl ihr =>
    simp only [RaNode.ids, List.forall_mem_cons, List.forall_mem_append] at h
    simp [restore, ihl h.2.1, ihr h.2.2]

theorem map_restoreFrame_congr {pend pend' : Nat → List Expr} {K : List Frame}
    (h : ∀ i ∈ contextIds K, pend i = pend' i) :
    K.map (restoreFrame pend) = K.map (restoreFrame pend') := by
  refine List.map_congr_left fun f hf => ?_
  have hids : ∀ i ∈ f.ids, pend i = pend' i := fun i hi =>
    h i (List.mem_flatMap.mpr ⟨f, hf, hi⟩)
  cases f with
  | unary i op =>
    have hi := hids i (by simp [Frame.ids])
    cases op <;> simp [restoreFrame, hi]
  | left i join r =>
    simp [restoreFrame, restore_congr fun j hj => hids j (List.mem_cons_of_mem i hj)]
  | right i join l =>
    simp [restoreFrame, restore_congr fun j hj => hids j (List.mem_cons_of_mem i hj)]

variable {V : Type} (db : Database V)

theorem nullRow_restore (pend : Nat → List Expr) (t : RaNode) :
    nullRow db (restore pend t) = nullRow db t := by
  induction t with
  | hole => rfl
  | leaf i op => rfl
  | unary i op c ih => cases op <;> simp [restore, nullRow, ih]
  | join i join l r ihl ihr => simp only [restore, nullRow, ihl, ihr]

theorem transparent_restoreFrame {rs : List Reference} {f : Frame} (pend : Nat → List Expr)
    (h : Transparent db rs f) : Transparent db rs (restoreFrame pend f) := by
  cases f with
  | unary i op => cases op <;> exact h
  | left i join r => simpa only [Transparent, restoreFrame, siblingRow, nullRow_restore, lets] using h
  | right i join l =>
    simpa only [Transparent, restoreFrame, siblingRow, nullRow_restore, lets] using h

variable [DecidableEq V] (I : Interpretation V)

theorem truth_and (c : Context V) (args : List Expr) :
    truth I c (.boolPredicate .and args) = .conj (args.map (truth I c)) := by
  simp only [truth, meaning, Meaning.ofTruth, meanings_eq_map, List.map_map]
  rfl

variable {db I} {x y : RaNode}

/-- Selections with equally strong conditions. -/
theorem selection_congr {p q : Expr} (i j : Nat)
    (h : ∀ s : Row V, truth I ⟨s, []⟩ p = .tt ↔ truth I ⟨s, []⟩ q = .tt) :
    Equivalent db I (.selection i p x) (.selection j q x) := by
  refine ⟨fun env => ?_, rfl⟩
  simp only [evaluate]
  exact List.filter_congr fun t _ => by simp only [satisfies, h]

/-- A Selection whose condition says what two Selections say. -/
theorem selection_split {p q r : Expr} (i j k : Nat)
    (h : ∀ s : Row V, truth I ⟨s, []⟩ r = .tt ↔
      truth I ⟨s, []⟩ p = .tt ∧ truth I ⟨s, []⟩ q = .tt) :
    Equivalent db I (.selection i r x) (.selection j p (.selection k q x)) := by
  refine ⟨fun env => ?_, rfl⟩
  simp only [evaluate, List.filter_filter]
  refine List.filter_congr fun t _ => ?_
  simp only [satisfies, ← Bool.decide_and, h]

theorem selection_true {p : Expr} (i : Nat) (h : ∀ s : Row V, truth I ⟨s, []⟩ p = .tt) :
    Equivalent db I (.selection i p x) x := by
  refine ⟨fun env => ?_, rfl⟩
  simp [evaluate, satisfies, h]

/-- What `add_predicate_to_selection` and `add_predicate_to_join` do to a condition. -/
theorem truth_addPredicate {present c : Expr} (h : absorbs present = true) (s : Row V) :
    truth I ⟨s, []⟩ (addPredicate present c) = .tt ↔
      truth I ⟨s, []⟩ present = .tt ∧ truth I ⟨s, []⟩ c = .tt := by
  cases present with
  | nullptr =>
    have hnull : truth I ⟨s, []⟩ .nullptr = .tt := rfl
    simp [addPredicate, hnull]
  | boolPredicate op args =>
    cases op <;> simp [addPredicate, truth_and, Truth.inf_eq_tt]
  | predicate l r op => simp [addPredicate, truth_and, Truth.inf_eq_tt]
  | nullTest e type => simp [addPredicate, truth_and, Truth.inf_eq_tt]
  | _ => cases h

/-- A conjunct added to the condition of an inner join. -/
private theorem innerJoin_addPredicate {i k : Nat} {join : Join} {c : Expr} {l r : RaNode}
    (habs : absorbs join.predicate = true) (halias : join.aliasName = "") (hm : join.marker = 0)
    (htype : join.type = .crossProduct ∨ join.type = .inner) :
    Equivalent db I (.selection k c (.join i join l r))
      (.join i { join with
        type := if join.type = .crossProduct then .inner else join.type
        predicate := addPredicate join.predicate c } l r) := by
  have hmap (j : Join) (h : j.aliasName = "") (ts : List (Tuple V)) :
      ts.map (renameTuple j) = ts := by
    rw [show renameTuple (V := V) j = id from funext (renameTuple_eq_self h), List.map_id]
  have hon (env : Row V) : satisfies I env (addPredicate join.predicate c) =
      fun t => satisfies I env join.predicate t && satisfies I env c t := by
    funext t
    simp only [satisfies, truth_addPredicate habs, Bool.decide_and]
  refine ⟨fun env => ?_, ?_⟩
  · have hm' : ¬ join.marker ≠ 0 := by simp [hm]
    simp only [evaluate, if_neg hm', hmap, halias, hon]
    rcases htype with htype | htype
    · simp only [htype, if_true]
      exact filter_innerJoin _ _
    · simp only [htype, reduceCtorEq, if_false]
      exact filter_innerJoin _ _
  · rcases htype with htype | htype <;> simp [nullRow, htype, renameJoin, halias]

/-- An attached conjunct filters the rows of the subtree that it is attached to. -/
theorem attachment_equivalent {n : Nat} {c present : Expr} {before after : RaNode}
    (h : Attachment n c before after present) (habs : absorbs present = true)
    (hjoin : ∀ k join l r, after = .join k join l r → isPlainJoin join = true)
    {pend : Nat → List Expr} (hn : pend n = []) (k : Nat) :
    Equivalent db I (.selection k c (restore pend before)) (restore pend after) := by
  cases h with
  | join i join l r =>
    have hplain := hjoin i _ l r rfl
    simp only [isPlainJoin, decide_eq_true_eq] at hplain
    refine innerJoin_addPredicate habs hplain.1 hplain.2.1 ?_
    by_cases hcross : join.type = .crossProduct
    · exact .inl hcross
    · simpa [hcross] using hplain.2.2
  | selection i p child =>
    refine (selection_split i k i fun s => ?_).symm
    simp only [truth_and, List.map_cons, Truth.conj_cons, Truth.inf_eq_tt,
      truth_addPredicate habs]
    tauto
  | newSelection x hx =>
    refine selection_congr k n fun s => ?_
    simp [truth_and, hn]

/-- A step keeps the meaning of the tree: the receiving node absorbs the conjunct, every
operator on the way down to it lets the conjunct pass, and a join that receives it is an
inner join. -/
def Harmless (cpToJoin : Bool) (db : Database V) (t : RaTree) : Step → Prop
  | .place i c rels =>
      ∀ pos p child, stepPosition cpToJoin t i c rels = some pos →
        find? i t.root = some (.selection i p child) →
          absorbs (pos.present t.root) = true ∧
          ((findNodeWhereRelationsDefined rels child).isSome →
            ∀ f ∈ descent rels child, Transparent db (references c) f) ∧
          ∀ k join l r, find? (pos.receiver t.nextId) (attach c t pos).root =
            some (.join k join l r) → isPlainJoin join = true
  | .removeIfEmpty _ => True

/-- The conjuncts of a Selection that are still to be placed. -/
def pendingAt (pending : List Step) (i : Nat) : List Expr :=
  pending.filterMap fun
    | .place j c _ => if j = i then some c else none
    | .removeIfEmpty _ => none

/-- The tree with the pending conjuncts put back means the same as the original one. -/
def MeansOriginal (db : Database V) (I : Interpretation V) (original : RaNode)
    (pending : List Step) (t : RaTree) : Prop :=
  Equivalent db I (restore (pendingAt pending) t.root) original

theorem pendingAt_eq_nil {pending : List Step} {i : Nat}
    (h : ∀ s ∈ pending, Step.selection s ≠ i) : pendingAt pending i = [] := by
  rw [pendingAt, List.filterMap_eq_nil_iff]
  intro s hs
  cases s with
  | place j c rels => simpa [Step.selection] using h _ hs
  | removeIfEmpty j => rfl

/-- One step with a conjunct. -/
private theorem meaning_place {cp : Bool} {original : RaNode} {t t' : RaTree} {i : Nat}
    {c : Expr} {rels : List String} {ss : List Step}
    (hI : RunInvariant original (.place i c rels :: ss) t)
    (hharmless : Harmless cp db t (.place i c rels))
    (hstep : step cp t (.place i c rels) = some t') :
    Equivalent db I (restore (pendingAt (.place i c rels :: ss)) t.root)
      (restore (pendingAt ss) t'.root) := by
  obtain ⟨p, child, hfind, -⟩ := hI.next
  have hfind' : find? i t.root = some (.selection i p child) := hfind
  obtain ⟨pos, outer, inner, before, after, hpos, hroot, hatt, -, hreached⟩ :=
    stepPosition_spec cp hI.wellFormed hfind' c rels
  obtain ⟨habs, hdescent, hjoin⟩ := hharmless pos p child hpos hfind'
  rw [step, hpos, Option.map_some, Option.some.injEq] at hstep
  subst hstep
  have hi : i < t.nextId := coreAt_lt_nextId hI.wellFormed (hI.cores _ List.mem_cons_self).choose_spec.1
  have hfresh : pendingAt ss t.nextId = [] := by
    refine pendingAt_eq_nil fun s hs => ?_
    obtain ⟨k, hk, -⟩ := hI.cores s (List.mem_cons_of_mem _ hs)
    exact (coreAt_lt_nextId hI.wellFormed hk).ne
  have hself : pendingAt (.place i c rels :: ss) i = c :: pendingAt ss i := by
    simp [pendingAt]
  have hother (j : Nat) (hj : j ≠ i) : pendingAt (.place i c rels :: ss) j = pendingAt ss j := by
    simp [pendingAt, hj.symm]
  have hd : Distinct (plug outer (.selection i p child)) := hroot ▸ hI.wellFormed.distinct
  have hd' : Distinct (plug inner after) := hatt.root_eq' ▸ (hatt.wellFormed hI.wellFormed).distinct
  have houter : outer.map (restoreFrame (pendingAt (.place i c rels :: ss))) =
      outer.map (restoreFrame (pendingAt ss)) :=
    map_restoreFrame_congr fun j hj => hother j (by
      rintro rfl
      exact hd.not_mem_context (id?_mem_ids rfl) hj)
  have hchild : restore (pendingAt (.place i c rels :: ss)) child =
      restore (pendingAt ss) child :=
    restore_congr fun j hj => hother j (by
      rintro rfl
      exact (List.nodup_cons.mp (distinct_plug.mp hd).2.1).1 hj)
  -- the conjunct leaves the restored condition of its Selection and becomes its own one
  have hsplit : Equivalent db I
      (restore (pendingAt (.place i c rels :: ss)) (.selection i p child))
      (.selection i (.boolPredicate .and (p :: pendingAt ss i))
        (.selection i c (restore (pendingAt ss) child))) := by
    rw [restore, hself, hchild]
    refine selection_split i i i fun s => ?_
    simp only [truth_and, List.map_cons, Truth.conj_cons, Truth.inf_eq_tt]
    tauto
  have hattach (k : Nat) : Equivalent db I (.selection k c (restore (pendingAt ss) before))
      (restore (pendingAt ss) after) := by
    refine attachment_equivalent hatt.attachment habs (fun k join l r hafter => ?_) hfresh k
    refine hjoin k join l r ?_
    rw [hatt.root_eq', find?_plug_of_id? hd' hatt.receiver, hafter]
  rw [hatt.root_eq', hroot, restore_plug, restore_plug, houter]
  rcases hreached with ⟨rfl, rfl⟩ | ⟨D, rfl, rfl, hsome, hD⟩
  · exact ((hsplit.trans (selection_comm i i)).trans (hattach i)).plug _
  · rw [List.map_append, plug_append, List.map_cons, plug_cons]
    refine Equivalent.plug (hsplit.trans ?_) _
    refine Equivalent.frame ?_ (.unary i (.selection (.boolPredicate .and (p :: pendingAt ss i))))
    rw [restore_plug]
    refine (selection_plug (fun f hf => ?_) i).trans ((hattach i).plug _)
    obtain ⟨g, hg, rfl⟩ := List.mem_map.mp hf
    exact transparent_restoreFrame db _ (hdescent hsome g (hD g hg))

/-- The removal of an emptied Selection. -/
private theorem meaning_remove {cp : Bool} {original : RaNode} {t t' : RaTree} {i : Nat}
    {ss : List Step} (hI : RunInvariant original (.removeIfEmpty i :: ss) t)
    (hstep : step cp t (.removeIfEmpty i) = some t') :
    Equivalent db I (restore (pendingAt (.removeIfEmpty i :: ss)) t.root)
      (restore (pendingAt ss) t'.root) := by
  obtain ⟨p, child, hfind, -⟩ := hI.next
  obtain ⟨t'', hstep', ht''⟩ := step_removeIfEmpty cp hI.wellFormed hfind
  obtain rfl : t'' = t' := Option.some.inj (hstep'.symm.trans hstep)
  have hpend : pendingAt (.removeIfEmpty i :: ss) = pendingAt ss := rfl
  rcases ht'' with ⟨-, rfl⟩ | ⟨rfl, f, K, hroot, rfl⟩
  · rw [hpend]
    exact .refl _
  · rw [hpend, hroot, restore_plug, restore_plug]
    refine Equivalent.plug ?_ _
    rw [restore]
    refine selection_true _ fun s => ?_
    have hnil : pendingAt ss (Step.removeIfEmpty i).selection = [] := pendingAt_eq_nil hI.noReuse.1
    rw [truth_and, hnil]
    rfl

/-- A harmless step keeps the meaning. -/
theorem meansOriginal_step {cp : Bool} {original : RaNode} {s : Step} {ss : List Step}
    {t t' : RaTree} (hI : RunInvariant original (s :: ss) t)
    (hmeans : MeansOriginal db I original (s :: ss) t) (h : Harmless cp db t s)
    (hstep : step cp t s = some t') : MeansOriginal db I original ss t' := by
  cases s with
  | place i c rels => exact (meaning_place hI h hstep).symm.trans hmeans
  | removeIfEmpty i => exact (meaning_remove hI hstep).symm.trans hmeans

/-- A condition says what its conjuncts say. -/
theorem truth_conjuncts {p : Expr} (h : IsCondition p) (s : Row V) :
    truth I ⟨s, []⟩ p = .conj ((conjuncts p).map (truth I ⟨s, []⟩)) := by
  induction h with
  | and args _ ih =>
    rw [truth_and, conjuncts]
    clear * - ih
    induction args with
    | nil => rfl
    | cons a args iha =>
      rw [List.forall_mem_cons] at ih
      rw [List.map_cons, Truth.conj_cons, allConjuncts, List.map_append, Truth.conj_append, ih.1,
        iha ih.2]
  | _ => simp [conjuncts]

/-- With all conjuncts back at their Selections the detached tree means the same. -/
theorem restore_detachPredicates {t : RaNode} {pend : Nat → List Expr}
    (h : ∀ s ∈ getAllSelections t, pend s.1 = conjuncts s.2.1 ∧ IsCondition s.2.1) :
    Equivalent db I (restore pend (detachPredicates t)) t := by
  induction t with
  | hole => exact .refl _
  | leaf i op => exact .refl _
  | unary i op c ih =>
    cases op with
    | selection p =>
      rw [getAllSelections, List.forall_mem_cons] at h
      obtain ⟨⟨hpend, hcond⟩, hrest⟩ := h
      refine Equivalent.trans ?_ ((ih hrest).frame (.unary i (.selection p)))
      refine selection_congr i i fun s => ?_
      have hnull : truth I ⟨s, []⟩ .nullptr = .tt := rfl
      rw [truth_and, List.map_cons, hnull, Truth.conj_cons, Truth.tt_inf, hpend,
        truth_conjuncts hcond]
    | _ => exact (ih h).frame (.unary i _)
  | join i join l r ihl ihr =>
    rw [getAllSelections, List.forall_mem_append] at h
    exact ((ihl h.1).frame (.left i join _)).trans ((ihr h.2).frame (.right i join l))

/-- With nothing left to place, the tree means what it says. -/
theorem restore_nil (t : RaNode) : Equivalent db I (restore (fun _ => []) t) t := by
  induction t with
  | hole => exact .refl _
  | leaf i op => exact .refl _
  | unary i op c ih =>
    cases op with
    | selection p =>
      refine Equivalent.trans ?_ (ih.frame (.unary i (.selection p)))
      refine selection_congr i i fun s => ?_
      simp [truth_and]
    | _ => exact ih.frame (.unary i _)
  | join i join l r ihl ihr =>
    exact (ihl.frame (.left i join _)).trans (ihr.frame (.right i join l))

theorem pendingAt_append (ss ss' : List Step) (i : Nat) :
    pendingAt (ss ++ ss') i = pendingAt ss i ++ pendingAt ss' i := List.filterMap_append

/-- The steps for one Selection place its conjuncts. -/
private theorem pendingAt_selectionSteps {i : Nat} {p : Expr} {ss : List Step}
    (hp : IsCondition p) (h : selectionSteps i p = some ss) (j : Nat) :
    pendingAt ss j = if j = i then conjuncts p else [] := by
  simp only [selectionSteps, hp.conjuncts_eq.1, Option.bind_some, Option.map_eq_some_iff] at h
  obtain ⟨places, hplaces, rfl⟩ := h
  have hplace : pendingAt places j = if j = i then conjuncts p else [] := by
    rw [Logic.Runs.mapM_eq_some_iff] at hplaces
    generalize conjuncts p = cs at hplaces
    induction hplaces with
    | nil => simp [pendingAt]
    | @cons c s cs places hc _ ih =>
      obtain ⟨rels, -, rfl⟩ := Option.map_eq_some_iff.mp hc
      simp only [pendingAt, List.filterMap_cons] at ih ⊢
      by_cases hj : j = i
      · simp only [hj, if_true] at ih ⊢
        rw [ih]
      · simp only [hj, Ne.symm hj, if_false] at ih ⊢
        exact ih
  rw [pendingAt_append, hplace]
  simp [pendingAt]

/-- The steps for a Selection of the tree are those for its conjuncts. -/
private theorem pendingAt_steps {sels : List (Nat × Expr × RaNode)} {sss : List (List Step)}
    (hcond : ∀ s ∈ sels, IsCondition s.2.1) (hnodup : (sels.map Prod.fst).Nodup)
    (h : List.Forall₂ (fun s ss => selectionSteps s.1 s.2.1 = some ss) sels sss) :
    (∀ s ∈ sels, pendingAt sss.flatten s.1 = conjuncts s.2.1) ∧
      ∀ j, j ∉ sels.map Prod.fst → pendingAt sss.flatten j = [] := by
  induction h with
  | nil => exact ⟨by simp, fun _ _ => rfl⟩
  | @cons sel ss sels sss hsel _ ih =>
    rw [List.forall_mem_cons] at hcond
    rw [List.map_cons, List.nodup_cons] at hnodup
    obtain ⟨hmem, hnot⟩ := ih hcond.2 hnodup.2
    have hhead (j : Nat) := pendingAt_selectionSteps hcond.1 hsel j
    simp only [List.flatten_cons, pendingAt_append, hhead]
    refine ⟨?_, fun j hj => ?_⟩
    · rw [List.forall_mem_cons]
      refine ⟨by simp [hnot _ hnodup.1], fun s hs => ?_⟩
      have hne : s.1 ≠ sel.1 := by
        intro heq
        exact hnodup.1 (heq ▸ List.mem_map_of_mem hs)
      simp [hne, hmem s hs]
    · rw [List.map_cons, List.mem_cons, not_or] at hj
      simp [hj.1, hnot j hj.2]

/-- Push-down by harmless steps yields a tree with the same rows. -/
theorem pushDownPredicates_equivalent (cp : Bool) {t : RaTree} (ht : WellFormed t)
    (hcond : ∀ s ∈ getAllSelections t.root, IsCondition s.2.1) {ss : List Step}
    (hss : steps t.root = some ss)
    (h : AtEveryStep (step cp) (Harmless cp db) ss (detached t)) :
    ∃ t', pushDownPredicates cp t = some t' ∧ Equivalent db I t'.root t.root := by
  obtain ⟨sss, hflat, hsels⟩ := steps_eq_some_iff.mp hss
  have hstart : MeansOriginal db I t.root ss (detached t) := by
    refine restore_detachPredicates fun s hs => ⟨?_, hcond s hs⟩
    rw [hflat]
    exact (pendingAt_steps hcond
      ((getAllSelections_ids_sublist t.root).nodup ht.distinct) hsels).1 s hs
  obtain ⟨t', hrun, -, hend⟩ := (runInvariant_carries cp t.root).exists_run_of_atEveryStep
    (J := MeansOriginal db I t.root)
    (fun _ _ _ _ hI hJ hP hs => meansOriginal_step hI hJ hP hs)
    (runInvariant_detached ht hss) hstart h
  exact ⟨t', by simp [pushDownPredicates, hss, hrun], (restore_nil t'.root).symm.trans hend⟩

end SqlOptimizer.Tree.PushDownMeaning
