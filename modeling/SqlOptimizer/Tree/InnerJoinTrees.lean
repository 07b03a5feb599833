import SqlOptimizer.Tree.PushDownMeaning

/-!
`push_down_predicates` on trees of relations, inner joins and Selections in which every
attribute names one relation: no step changes the rows.
-/

set_option autoImplicit false
set_option relaxedAutoImplicit false

namespace SqlOptimizer.Tree.InnerJoinTrees

open Algebra.RelationalAlgebra
open Frames Walks PushDown PushDownRun PushDownConditions PushDownMeaning
open Semantics.Evaluation Semantics.References Semantics.Equivalence
open Logic.Runs (AtEveryStep Carries)

/-- The qualifier is the name or the alias of the relation. -/
def names (q : String) (relation : String × String) : Bool := q = relation.1 ∨ q = relation.2

/-- The qualifier names exactly one of the relations. -/
def NamesOne (relations : List (String × String)) (q : String) : Prop :=
  q ≠ "" ∧ relations.countP (names q) = 1

/-- Attributes, constants, binary expressions and function calls. -/
inductive IsOperand (ok : String → Prop) : Expr → Prop
  | attr (name a : String) : ok a → IsOperand ok (.attribute name a)
  | constant (data : String) (type : DataType) : IsOperand ok (.constant data type)
  | expression (l r : Expr) (op : String) : IsOperand ok l → IsOperand ok r →
      IsOperand ok (.expression l r op)
  | funcCall (f : String) (args : List Expr) (g d : Bool) : (∀ e ∈ args, IsOperand ok e) →
      IsOperand ok (.funcCall f args g d)

/-- Comparisons, joined by AND, OR and NOT. -/
inductive IsComparisons (ok : String → Prop) : Expr → Prop
  | bool (op : BoolOperator) (args : List Expr) : (∀ e ∈ args, IsComparisons ok e) →
      IsComparisons ok (.boolPredicate op args)
  | predicate (l r : Expr) (op : String) : IsOperand ok l → IsOperand ok r →
      IsComparisons ok (.predicate l r op)

/-- Relations, cross products, inner joins and Selections. -/
def JoinTree (P : Expr → Prop) : RaNode → Prop
  | .relation _ _ _ => True
  | .selection _ p c => P p ∧ JoinTree P c
  | .join _ join l r =>
      isPlainJoin join = true ∧ (join.predicate = .nullptr ∨ P join.predicate) ∧
        JoinTree P l ∧ JoinTree P r
  | _ => False

section

variable {ok : String → Prop}

/-- The collected relations are qualifiers with the property, and every reference is an
attribute qualified by one of them. -/
def Collects (ok : String → Prop) (collected : Option (List String)) (rs : List Reference) :
    Prop :=
  ∃ qs, collected = some qs ∧ (∀ q ∈ qs, ok q) ∧ ∀ r ∈ rs, ∃ n, ∃ q ∈ qs, r = .column n q

private theorem collects_nil : Collects ok (some []) [] := ⟨[], rfl, by simp, by simp⟩

private theorem Collects.append {l r : Option (List String)} {ls rs : List Reference}
    (hl : Collects ok l ls) (hr : Collects ok r rs) :
    Collects ok (l.bind fun l => r.map fun r => l ++ r) (ls ++ rs) := by
  obtain ⟨lq, rfl, hlok, hlref⟩ := hl
  obtain ⟨rq, rfl, hrok, hrref⟩ := hr
  refine ⟨lq ++ rq, rfl, ?_, fun x hx => ?_⟩
  · rw [List.forall_mem_append]
    exact ⟨hlok, hrok⟩
  · rcases List.mem_append.mp hx with hx | hx
    · obtain ⟨n, q, hq, rfl⟩ := hlref x hx
      exact ⟨n, q, List.mem_append_left _ hq, rfl⟩
    · obtain ⟨n, q, hq, rfl⟩ := hrref x hx
      exact ⟨n, q, List.mem_append_right _ hq, rfl⟩

/-- `get_expression_relations` finds the qualifiers of all attributes of an operand. -/
theorem IsOperand.collects {e : Expr} (hok : ∀ q, ok q → q ≠ "") (h : IsOperand ok e) :
    Collects ok (getExpressionRelations e) (references e) := by
  induction h with
  | attr name a ha =>
    refine ⟨[a], by simp [getExpressionRelations, getRelationFromAttribute, hok a ha],
      by simpa using ha, fun r hr => ⟨name, a, List.mem_cons_self, ?_⟩⟩
    simpa [references] using hr
  | constant data type => exact collects_nil
  | expression l r op _ _ ihl ihr => exact ihl.append ihr
  | funcCall f args g d _ ih =>
    rw [getExpressionRelations, references]
    clear * - ih
    induction args with
    | nil => exact collects_nil
    | cons e es iht =>
      rw [List.forall_mem_cons] at ih
      exact ih.1.append (iht ih.2)

/-- The same for conditions. -/
theorem IsComparisons.collects {e : Expr} (hok : ∀ q, ok q → q ≠ "") (h : IsComparisons ok e) :
    Collects ok (getPredicateRelations e) (references e) := by
  induction h with
  | bool op args _ ih =>
    rw [getPredicateRelations, references]
    clear * - ih
    induction args with
    | nil => exact collects_nil
    | cons e es iht =>
      rw [List.forall_mem_cons] at ih
      exact ih.1.append (iht ih.2)
  | predicate l r op hl hr => exact (hl.collects hok).append (hr.collects hok)

theorem IsComparisons.isCondition {e : Expr} (h : IsComparisons ok e) : IsCondition e := by
  induction h with
  | bool op args _ ih =>
    cases op with
    | and => exact .and args ih
    | or => exact .or args
    | not => exact .not args
  | predicate l r op _ _ => exact .predicate l r op

theorem IsComparisons.of_mem_conjuncts {e c : Expr} (h : IsComparisons ok e)
    (hc : c ∈ conjuncts e) : IsComparisons ok c := by
  induction h with
  | bool op args hargs ih =>
    cases op with
    | and =>
      rw [conjuncts] at hc
      clear hargs
      induction args with
      | nil => cases hc
      | cons e es iht =>
        rw [List.forall_mem_cons] at ih
        rcases List.mem_append.mp hc with hc | hc
        · exact ih.1 hc
        · exact iht ih.2 hc
    | or =>
      cases List.mem_singleton.mp hc
      exact .bool .or args hargs
    | not =>
      cases List.mem_singleton.mp hc
      exact .bool .not args hargs
  | predicate l r op hl hr =>
    cases List.mem_singleton.mp hc
    exact .predicate l r op hl hr

/-- Between two steps a predicate may be missing. -/
def IsPresentOrNull (ok : String → Prop) (p : Expr) : Prop := p = .nullptr ∨ IsComparisons ok p

theorem IsPresentOrNull.absorbs {p : Expr} (h : IsPresentOrNull ok p) : absorbs p = true := by
  rcases h with rfl | h
  · rfl
  · cases h <;> rfl

theorem IsPresentOrNull.addPredicate {p c : Expr} (h : IsPresentOrNull ok p)
    (hc : IsComparisons ok c) : IsComparisons ok (addPredicate p c) := by
  rcases h with rfl | h
  · exact hc
  · cases h with
    | bool op args hargs =>
      have hpair {e : Expr} (he : IsComparisons ok e) :
          IsComparisons ok (.boolPredicate .and [e, c]) := .bool .and _ (by simp [he, hc])
      cases op with
      | and =>
        refine .bool .and _ ?_
        rw [List.forall_mem_append]
        exact ⟨hargs, by simpa using hc⟩
      | or => exact hpair (.bool .or args hargs)
      | not => exact hpair (.bool .not args hargs)
    | predicate l r op hl hr => exact .bool .and _ (by simp [IsComparisons.predicate l r op hl hr, hc])

end

/-- A frame of a join tree. -/
def JoinFrame (P : Expr → Prop) : Frame → Prop
  | .unary _ (.selection p) => P p
  | .unary _ _ => False
  | .left _ join r =>
      isPlainJoin join = true ∧ (join.predicate = .nullptr ∨ P join.predicate) ∧ JoinTree P r
  | .right _ join l =>
      isPlainJoin join = true ∧ (join.predicate = .nullptr ∨ P join.predicate) ∧ JoinTree P l

theorem joinTree_plug {P : Expr → Prop} {K : List Frame} {t : RaNode} :
    JoinTree P (plug K t) ↔ (∀ f ∈ K, JoinFrame P f) ∧ JoinTree P t := by
  induction K generalizing t with
  | nil => simp
  | cons f K ih =>
    rw [plug_cons, ih, List.forall_mem_cons]
    cases f with
    | unary i op => cases op <;> simp only [Frame.plug, JoinFrame, JoinTree] <;> tauto
    | left i join r => simp only [Frame.plug, JoinFrame, JoinTree]; tauto
    | right i join l => simp only [Frame.plug, JoinFrame, JoinTree]; tauto

section

variable {P : Expr → Prop}

/-- A qualifier that names no relation of a join tree is not offered by its rows. -/
theorem JoinTree.not_offers {V : Type} (db : Database V) {t : RaNode} (ht : JoinTree P t)
    {n q : String} (hq : q ≠ "") (h : (getRelationsAliases t).countP (names q) = 0) :
    ¬ Offers (nullRow db t) (.column n q) := by
  induction t with
  | hole => exact ht.elim
  | leaf i op =>
    cases op with
    | relation name a =>
      simp only [getRelationsAliases, List.countP_eq_zero, List.mem_singleton, names,
        decide_eq_true_eq, forall_eq, not_or] at h
      have hne : qualifier name a ≠ q := by
        unfold qualifier
        split
        · exact Ne.symm h.2
        · exact Ne.symm h.1
      simp [nullRow, Offers, resolve, hq, hne]
    | _ => exact ht.elim
  | unary i op c ih =>
    cases op with
    | selection p => exact ih ht.2 h
    | _ => exact ht.elim
  | join i join l r ihl ihr =>
    obtain ⟨hplain, -, hl, hr⟩ := ht
    simp only [isPlainJoin, decide_eq_true_eq] at hplain
    obtain ⟨halias, hm, htype⟩ := hplain
    have hlr : nullRow db (.join i join l r) = nullRow db l ++ nullRow db r := by
      rcases htype with htype | htype <;> simp [nullRow, renameJoin, halias, hm, htype]
    have hrels : getRelationsAliases (.join i join l r) =
        getRelationsAliases l ++ getRelationsAliases r := by
      simp [getRelationsAliases, halias, hm]
    rw [hrels, List.countP_append] at h
    rw [hlr, offers_append, not_or]
    exact ⟨ihl hl (by omega), ihr hr (by omega)⟩

/-- On its way down in a join tree a conjunct passes inner joins and Selections only, and
the other inputs of these joins offer none of its attributes. -/
theorem JoinTree.transparent {V : Type} (db : Database V) {t : RaNode} (ht : JoinTree P t)
    {rels : List String} {rs : List Reference} (hdef : hasRelationsDefined t rels = true)
    (hone : ∀ q ∈ rels, q ≠ "" ∧ (getRelationsAliases t).countP (names q) ≤ 1)
    (hrs : ∀ r ∈ rs, ∃ n, ∃ q ∈ rels, r = .column n q) :
    ∀ f ∈ descent rels t, Transparent db rs f := by
  have hpos {s : RaNode} (h : hasRelationsDefined s rels = true) :
      ∀ q ∈ rels, 0 < (getRelationsAliases s).countP (names q) := by
    intro q hq
    rw [List.countP_pos_iff]
    simpa [hasRelationsDefined, names] using List.all_eq_true.mp h q hq
  induction t with
  | hole => exact ht.elim
  | leaf i op => simp [descent]
  | unary i op c ih =>
    cases op with
    | selection p =>
      rw [hasRelationsDefined_selection] at hdef
      rw [descent, if_pos hdef, List.forall_mem_append]
      exact ⟨ih ht.2 hdef hone, by simp [Transparent, lets, siblingRow, Offers]⟩
    | _ => exact ht.elim
  | join i join l r ihl ihr =>
    obtain ⟨hplain, -, hl, hr⟩ := ht
    have hplain' := hplain
    simp only [isPlainJoin, decide_eq_true_eq] at hplain'
    obtain ⟨halias, hm, htype⟩ := hplain'
    have hrels : getRelationsAliases (.join i join l r) =
        getRelationsAliases l ++ getRelationsAliases r := by
      simp [getRelationsAliases, halias, hm]
    simp only [hrels, List.countP_append] at hone
    rw [descent]
    cases hdl : hasRelationsDefined l rels with
    | true =>
      rw [if_pos rfl, List.forall_mem_append]
      refine ⟨ihl hl hdl fun q hq => ⟨(hone q hq).1, ?_⟩, ?_⟩
      · have hle := (hone q hq).2
        omega
      · simp only [List.mem_singleton, forall_eq, Transparent, siblingRow, hm, ne_eq,
          not_true_eq_false, if_false]
        refine ⟨by rcases htype with htype | htype <;> simp [lets, halias, htype], fun x hx => ?_⟩
        obtain ⟨n, q, hq, rfl⟩ := hrs x hx
        have hle := hone q hq
        have hlpos := hpos hdl q hq
        exact hr.not_offers db hle.1 (by omega)
    | false =>
      cases hdr : hasRelationsDefined r rels with
      | true =>
        simp only [Bool.false_eq_true, if_false, if_true]
        rw [List.forall_mem_append]
        refine ⟨ihr hr hdr fun q hq => ⟨(hone q hq).1, ?_⟩, ?_⟩
        · have hle := (hone q hq).2
          omega
        · simp only [List.mem_singleton, forall_eq, Transparent, siblingRow, lets]
          refine ⟨hplain, fun x hx => ?_⟩
          obtain ⟨n, q, hq, rfl⟩ := hrs x hx
          have hle := hone q hq
          have hrpos := hpos hdr q hq
          exact hl.not_offers db hle.1 (by omega)
      | false => simp

theorem countP_plug (K : List Frame) {t : RaNode} (q : String)
    (h : JoinTree P (plug K t)) :
    (getRelationsAliases t).countP (names q) ≤ (getRelationsAliases (plug K t)).countP (names q) := by
  induction K generalizing t with
  | nil => exact le_rfl
  | cons f K ih =>
    refine le_trans ?_ (ih h)
    have hf := (joinTree_plug.mp h).1 f List.mem_cons_self
    cases f with
    | unary i op =>
      cases op with
      | selection p => exact le_rfl
      | _ => exact hf.elim
    | left i join r =>
      simp only [JoinFrame, isPlainJoin, decide_eq_true_eq] at hf
      simp [Frame.plug, getRelationsAliases, hf.1.1, hf.1.2.1]
    | right i join l =>
      simp only [JoinFrame, isPlainJoin, decide_eq_true_eq] at hf
      simp [Frame.plug, getRelationsAliases, hf.1.1, hf.1.2.1]

end

/-- A position below the top operator lies in the tree below it. -/
private theorem exists_frames {K : List Frame} {s x : RaNode} {i : Nat} {op : UnaryOp}
    (h : plug K s = .unary i op x) (hK : K ≠ []) :
    ∃ K', K = K' ++ [.unary i op] ∧ x = plug K' s := by
  obtain ⟨K', f, rfl⟩ := (List.eq_nil_or_concat K).resolve_left hK
  rw [List.concat_eq_append, plug_append, plug_cons, plug_nil] at h
  cases f with
  | unary j op' =>
    cases h
    exact ⟨K', List.concat_eq_append, rfl⟩
  | left j join r => cases h
  | right j join l => cases h

/-- Between two steps: a join tree over the same relations, below the same operator. -/
structure JoinInvariant (ok : String → Prop) (top : Nat) (op : UnaryOp)
    (relations : List (String × String)) (pending : List Step) (t : RaTree) : Prop where
  shape : ∃ x, t.root = .unary top op x ∧ JoinTree (IsPresentOrNull ok) x ∧
    getRelationsAliases x = relations
  conjuncts : ∀ i c rels, .place i c rels ∈ pending →
    IsComparisons ok c ∧ getPredicateRelations c = some rels

section

variable {ok : String → Prop} {top : Nat} {op : UnaryOp} {relations : List (String × String)}
  {original : RaNode} {cp : Bool}

private theorem JoinTree.attachment {n : Nat} {c present : Expr} {before after : RaNode}
    (h : Attachment n c before after present) (hc : IsComparisons ok c)
    (ht : JoinTree (IsPresentOrNull ok) before) :
    absorbs present = true ∧ JoinTree (IsPresentOrNull ok) after := by
  cases h with
  | join i join l r =>
    obtain ⟨hplain, hpred, hl, hr⟩ := ht
    have hpresent : IsPresentOrNull ok join.predicate := hpred.elim .inl id
    refine ⟨hpresent.absorbs, ?_, .inr (.inr (hpresent.addPredicate hc)), hl, hr⟩
    simp only [isPlainJoin, decide_eq_true_eq] at hplain ⊢
    refine ⟨hplain.1, hplain.2.1, .inr ?_⟩
    rcases hplain.2.2 with h | h <;> simp [h]
  | selection i p child => exact ⟨ht.1.absorbs, .inr (ht.1.addPredicate hc), ht.2⟩
  | newSelection x hx => exact ⟨rfl, .inr hc, ht⟩

/-- What the invariant says about the subtree that a step changes. -/
private theorem JoinInvariant.attached {pending : List Step} {t : RaTree} {c : Expr}
    {pos : Position} {inner : List Frame} {before after : RaNode}
    (hJ : JoinInvariant ok top op relations pending t) (hop : ∀ p, op ≠ .selection p)
    (hatt : AttachedAt t c pos inner before after) (hc : IsComparisons ok c) :
    absorbs (pos.present t.root) = true ∧
      ∃ K x', inner = K ++ [.unary top op] ∧ x' = plug K after ∧
        (attach c t pos).root = .unary top op x' ∧ JoinTree (IsPresentOrNull ok) x' ∧
        getRelationsAliases x' = relations := by
  obtain ⟨x, hx, htree, hrels⟩ := hJ.shape
  have hinner : inner ≠ [] := by
    rintro rfl
    have hbefore : before = .unary top op x := by
      rw [← hx, hatt.root_eq]
      rfl
    have hids := hatt.top rfl
    have hattach := hatt.attachment
    generalize Position.present t.root pos = present at hattach
    cases hattach with
    | join i join l r => cases hbefore
    | selection i p child =>
      cases hbefore
      exact hop present rfl
    | newSelection x' hx' => simp [RaNode.ids] at hids
  obtain ⟨K, rfl, rfl⟩ := exists_frames (hatt.root_eq.symm.trans hx) hinner
  obtain ⟨hframes, hbefore⟩ := joinTree_plug.mp htree
  obtain ⟨habs, hafter⟩ := JoinTree.attachment hatt.attachment hc hbefore
  refine ⟨habs, K, plug K after, rfl, rfl, ?_, joinTree_plug.mpr ⟨hframes, hafter⟩, ?_⟩
  · rw [hatt.root_eq', plug_append]
    rfl
  · rw [← getRelationsAliases_core, core_plug hatt.attachment.core_eq, getRelationsAliases_core,
      hrels]

/-- In a join tree every step is harmless. -/
private theorem harmless_of_invariants {V : Type} (db : Database V) (hop : ∀ p, op ≠ .selection p)
    (hok : ∀ q, ok q → q ≠ "" ∧ relations.countP (names q) ≤ 1) {s : Step} {ss : List Step}
    {t : RaTree} (hI : RunInvariant original (s :: ss) t)
    (hJ : JoinInvariant ok top op relations (s :: ss) t) : Harmless cp db t s := by
  cases s with
  | removeIfEmpty i => trivial
  | place i c rels =>
    intro pos p child hpos hfind
    obtain ⟨hc, hrels⟩ := hJ.conjuncts i c rels List.mem_cons_self
    obtain ⟨pos', outer, inner, before, after, hpos', hroot, hatt, -, -⟩ :=
      stepPosition_spec cp hI.wellFormed hfind c rels
    obtain rfl : pos' = pos := Option.some.inj (hpos'.symm.trans hpos)
    obtain ⟨habs, K, x', hinner, hx', hroot', htree', -⟩ := hJ.attached hop hatt hc
    refine ⟨habs, fun hsome => ?_, fun k join l r hfind' => ?_⟩
    · obtain ⟨x, hx, htree, hrelations⟩ := hJ.shape
      have houter : outer ≠ [] := by
        rintro rfl
        have heq : RaNode.selection i p child = .unary top op x := hroot.symm.trans hx
        cases heq
        exact hop p rfl
      obtain ⟨K', rfl, rfl⟩ := exists_frames (hroot.symm.trans hx) houter
      have hchild := (joinTree_plug.mp htree).2
      have hdef : hasRelationsDefined child rels = true := by
        by_contra hdef
        have hplug : (plug (K' ++ [.unary top op]) (.selection i p child)).Full :=
          hroot ▸ hI.wellFormed.full
        have hfull : child.Full := (full_plug.mp hplug).2
        rw [(findNode_spec rels hfull).2 (by simpa using hdef)] at hsome
        cases hsome
      obtain ⟨qs, hqs, hqok, href⟩ := hc.collects fun q hq => (hok q hq).1
      obtain rfl : qs = rels := Option.some.inj (hqs.symm.trans hrels)
      refine hchild.2.transparent db hdef (fun q hq => ?_) href
      have hle := countP_plug K' q htree
      rw [hrelations] at hle
      obtain ⟨hne, hone⟩ := hok q (hqok q hq)
      exact ⟨hne, le_trans hle hone⟩
    · have hd' : Distinct (plug inner after) :=
        hatt.root_eq' ▸ (hatt.wellFormed hI.wellFormed).distinct
      rw [hatt.root_eq', find?_plug_of_id? hd' hatt.receiver, Option.some.injEq] at hfind'
      subst hfind'
      rw [hx'] at htree'
      exact (joinTree_plug.mp htree').2.1

/-- The invariant is kept by every step. -/
private theorem joinInvariant_step (hop : ∀ p, op ≠ .selection p) {s : Step} {ss : List Step}
    {t t' : RaTree} (hI : RunInvariant original (s :: ss) t)
    (hJ : JoinInvariant ok top op relations (s :: ss) t) (hstep : step cp t s = some t') :
    JoinInvariant ok top op relations ss t' := by
  refine ⟨?_, fun i c rels hmem => hJ.conjuncts i c rels (List.mem_cons_of_mem _ hmem)⟩
  obtain ⟨p, child, hfind, -⟩ := hI.next
  cases s with
  | place i c rels =>
    have hfind' : find? i t.root = some (.selection i p child) := hfind
    obtain ⟨pos, outer, inner, before, after, hpos, -, hatt, -, -⟩ :=
      stepPosition_spec cp hI.wellFormed hfind' c rels
    rw [step, hpos, Option.map_some, Option.some.injEq] at hstep
    subst hstep
    obtain ⟨-, K, x', -, -, hroot', htree', hrels'⟩ :=
      hJ.attached hop hatt (hJ.conjuncts i c rels List.mem_cons_self).1
    exact ⟨x', hroot', htree', hrels'⟩
  | removeIfEmpty i =>
    obtain ⟨t'', hstep', ht''⟩ := step_removeIfEmpty cp hI.wellFormed hfind
    obtain rfl : t'' = t' := Option.some.inj (hstep'.symm.trans hstep)
    obtain ⟨x, hx, htree, hrels⟩ := hJ.shape
    rcases ht'' with ⟨-, rfl⟩ | ⟨-, f, K, hroot, rfl⟩
    · exact ⟨x, hx, htree, hrels⟩
    · obtain ⟨K', hK', rfl⟩ := exists_frames (hroot.symm.trans hx) (List.cons_ne_nil f K)
      obtain ⟨hframes, hsel⟩ := joinTree_plug.mp htree
      refine ⟨plug K' child, ?_, joinTree_plug.mpr ⟨hframes, hsel.2⟩, ?_⟩
      · simp only [hK', plug_append]
        rfl
      · have hcore : core child = core (.selection (Step.removeIfEmpty i).selection p child) := rfl
        rw [← getRelationsAliases_core, core_plug hcore, getRelationsAliases_core, hrels]

/-- The steps place conjuncts of the Selections, with the relations they mention. -/
private theorem mem_steps_conjuncts {sels : List (Nat × Expr × RaNode)} {sss : List (List Step)}
    (hcond : ∀ s ∈ sels, IsCondition s.2.1)
    (h : List.Forall₂ (fun s ss => selectionSteps s.1 s.2.1 = some ss) sels sss)
    {i : Nat} {c : Expr} {rels : List String} (hmem : .place i c rels ∈ sss.flatten) :
    (∃ s ∈ sels, c ∈ conjuncts s.2.1) ∧ getPredicateRelations c = some rels := by
  induction h with
  | nil => cases hmem
  | @cons sel ss sels sss hsel _ ih =>
    rw [List.forall_mem_cons] at hcond
    rw [List.flatten_cons, List.mem_append] at hmem
    rcases hmem with hmem | hmem
    · simp only [selectionSteps, hcond.1.conjuncts_eq.1, Option.bind_some,
        Option.map_eq_some_iff] at hsel
      obtain ⟨places, hplaces, rfl⟩ := hsel
      simp only [List.mem_append, List.mem_singleton, reduceCtorEq, or_false] at hmem
      obtain ⟨c', hc', hplace⟩ := Logic.Runs.exists_of_mem_mapM hplaces hmem
      obtain ⟨rels', hrels, heq⟩ := Option.map_eq_some_iff.mp hplace
      cases heq
      exact ⟨⟨sel, List.mem_cons_self, hc'⟩, hrels⟩
    · obtain ⟨⟨s, hs, hc⟩, hrels⟩ := ih hcond.2 hmem
      exact ⟨⟨s, List.mem_cons_of_mem _ hs, hc⟩, hrels⟩

private theorem JoinTree.selections {t : RaNode} (ht : JoinTree (IsComparisons ok) t) :
    ∀ s ∈ getAllSelections t, IsComparisons ok s.2.1 := by
  induction t with
  | hole => exact ht.elim
  | leaf i op => simp [getAllSelections]
  | unary i op c ih =>
    cases op with
    | selection p =>
      rw [getAllSelections, List.forall_mem_cons]
      exact ⟨ht.1, ih ht.2⟩
    | _ => exact ht.elim
  | join i join l r ihl ihr =>
    rw [getAllSelections, List.forall_mem_append]
    exact ⟨ihl ht.2.2.1, ihr ht.2.2.2⟩

private theorem JoinTree.detached {t : RaNode} (ht : JoinTree (IsComparisons ok) t) :
    JoinTree (IsPresentOrNull ok) (detachPredicates t) := by
  induction t with
  | hole => exact ht.elim
  | leaf i op => cases op <;> trivial
  | unary i op c ih =>
    cases op with
    | selection p => exact ⟨.inl rfl, ih ht.2⟩
    | _ => exact ht.elim
  | join i join l r ihl ihr =>
    exact ⟨ht.1, ht.2.1.imp_right .inr, ihl ht.2.2.1, ihr ht.2.2.2⟩

end

/-- Push-down, with or without turning cross products into joins, keeps the rows of a
tree of relations, inner joins and Selections in every environment, when each attribute
is qualified by a name of exactly one relation of the tree or of an enclosing query. -/
theorem pushDownPredicates_evaluate (cp : Bool) {t : RaTree} (ht : WellFormed t) {top : Nat}
    {op : UnaryOp} {x : RaNode} (hroot : t.root = .unary top op x)
    {enclosing : List (String × String)}
    (hx : JoinTree (IsComparisons (NamesOne (getRelationsAliases x ++ enclosing))) x) :
    ∃ t', pushDownPredicates cp t = some t' ∧
      ∀ (V : Type) [DecidableEq V] (db : Database V) (I : Interpretation V) (env : Row V),
        evaluate db I t'.root env = evaluate db I t.root env := by
  have hop (p : Expr) : op ≠ .selection p := by
    rintro rfl
    have hrooted := ht.rooted
    rw [hroot] at hrooted
    cases hrooted
  have hok (q : String) (hq : NamesOne (getRelationsAliases x ++ enclosing) q) :
      q ≠ "" ∧ (getRelationsAliases x).countP (names q) ≤ 1 := by
    have hone := hq.2
    rw [List.countP_append] at hone
    exact ⟨hq.1, by omega⟩
  have hselections : getAllSelections t.root = getAllSelections x := by
    rw [hroot]
    cases op with
    | selection p => exact absurd rfl (hop p)
    | _ => rfl
  have hcomparisons := hselections ▸ hx.selections
  have hcond : ∀ s ∈ getAllSelections t.root, IsCondition s.2.1 :=
    fun s hs => (hcomparisons s hs).isCondition
  obtain ⟨ss, hss⟩ : ∃ ss, steps t.root = some ss := by
    refine (steps_isSome_iff hcond).mpr fun s hs c hc => ?_
    obtain ⟨qs, hqs, -⟩ :=
      ((hcomparisons s hs).of_mem_conjuncts hc).collects fun q hq => (hok q hq).1
    rw [hqs, Option.isSome_some]
  obtain ⟨sss, hflat, hsels⟩ := steps_eq_some_iff.mp hss
  have hstart : JoinInvariant (NamesOne (getRelationsAliases x ++ enclosing)) top op
      (getRelationsAliases x) ss (detached t) := by
    refine ⟨⟨detachPredicates x, ?_, hx.detached, ?_⟩, fun i c rels hmem => ?_⟩
    · rw [detached, hroot]
      cases op with
      | selection p => exact absurd rfl (hop p)
      | _ => rfl
    · rw [← getRelationsAliases_core, core_detachPredicates, getRelationsAliases_core]
    · obtain ⟨⟨s, hs, hc⟩, hrels⟩ := mem_steps_conjuncts hcond hsels (hflat ▸ hmem)
      exact ⟨(hcomparisons s hs).of_mem_conjuncts hc, hrels⟩
  have hrun := runInvariant_detached ht hss
  obtain ⟨t', ht', -⟩ := (runInvariant_carries cp t.root).exists_run hrun
  refine ⟨t', by simp [pushDownPredicates, hss, ht'], fun V _ db I env => ?_⟩
  have hharmless : AtEveryStep (step cp) (Harmless cp db) ss (detached t) :=
    (runInvariant_carries cp t.root).atEveryStep_of
      (fun _ _ _ hI hJ => harmless_of_invariants db hop hok hI hJ)
      (fun _ _ _ _ hI hJ hs => joinInvariant_step hop hI hJ hs) hrun hstart
  obtain ⟨t'', ht'', hequiv⟩ := pushDownPredicates_equivalent cp ht hcond hss hharmless (I := I)
  have heq : some t'' = some t' := by
    rw [← ht'', pushDownPredicates, hss]
    exact ht'
  obtain rfl := Option.some.inj heq
  exact hequiv.rows env

/-- `select * from a, b where a.k=b.k and a.v=o.v`, inside a query over `o`. -/
def correlatedJoin : RaTree where
  root := .projection 1 { args := [.selectExpression (.attribute "*" "") ""] }
    (.selection 2
      (.boolPredicate .and
        [.predicate (.attribute "k" "a") (.attribute "k" "b") "=",
          .predicate (.attribute "v" "a") (.attribute "v" "o") "="])
      (.join 3 { type := .crossProduct } (.relation 4 "a" "") (.relation 5 "b" "")))
  nextId := 6

/-- The cross product of the correlated query becomes a join, with the same rows. -/
theorem correlatedJoin_evaluate :
    ∃ t', pushDownPredicates true correlatedJoin = some t' ∧
      ∀ (V : Type) [DecidableEq V] (db : Database V) (I : Interpretation V) (env : Row V),
        evaluate db I t'.root env = evaluate db I correlatedJoin.root env := by
  have hone : ∀ q ∈ ["a", "b", "o"], NamesOne ([("a", ""), ("b", "")] ++ [("o", "")]) q := by
    intro q hq
    simp only [List.mem_cons, List.not_mem_nil, or_false] at hq
    rcases hq with rfl | rfl | rfl <;> exact ⟨by decide, by decide⟩
  have hcondition : IsComparisons (NamesOne ([("a", ""), ("b", "")] ++ [("o", "")]))
      (.boolPredicate .and
        [.predicate (.attribute "k" "a") (.attribute "k" "b") "=",
          .predicate (.attribute "v" "a") (.attribute "v" "o") "="]) := by
    refine .bool .and _ ?_
    simp only [List.forall_mem_cons, List.not_mem_nil, false_implies, implies_true, and_true]
    exact ⟨.predicate _ _ _ (.attr _ _ (hone _ (by simp))) (.attr _ _ (hone _ (by simp))),
      .predicate _ _ _ (.attr _ _ (hone _ (by simp))) (.attr _ _ (hone _ (by simp)))⟩
  refine pushDownPredicates_evaluate true ⟨?_, ⟨trivial, trivial⟩, ?_, rfl⟩ rfl
    ⟨hcondition, rfl, .inl rfl, trivial, trivial⟩
  · simp only [Distinct, correlatedJoin, RaNode.ids]
    decide
  · simp only [correlatedJoin, RaNode.ids]
    decide

end SqlOptimizer.Tree.InnerJoinTrees
