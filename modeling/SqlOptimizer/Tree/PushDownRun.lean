import SqlOptimizer.Tree.PushDown
import SqlOptimizer.Logic.Runs

/-!
The state of `push_down_predicates` between two steps. The steps only touch Selections
and join predicates, so the rest of the tree, its `core`, stays as it was and every
Selection that is still to be processed keeps the core below it.
-/

set_option autoImplicit false
set_option relaxedAutoImplicit false

namespace SqlOptimizer.Tree.PushDownRun

open Algebra.RelationalAlgebra
open Frames Walks PushDown

/-- The tree without its Selections and without the conditions of its joins. -/
def core : RaNode → RaNode
  | .hole => .hole
  | .leaf i op => .leaf i op
  | .unary _ (.selection _) c => core c
  | .unary i op c => .unary i op (core c)
  | .join i join l r =>
      .join i { type := .crossProduct, aliasName := join.aliasName, marker := join.marker }
        (core l) (core r)

/-- The core below a Selection. -/
def coreAt (s : Nat) : RaNode → Option RaNode
  | .hole => none
  | .leaf _ _ => none
  | .unary i (.selection _) c => if i = s then some (core c) else coreAt s c
  | .unary _ _ c => coreAt s c
  | .join _ _ l r => (coreAt s l).or (coreAt s r)

theorem coreAt_eq_none {t : RaNode} {s : Nat} (h : s ∉ t.ids) : coreAt s t = none := by
  induction t with
  | hole => rfl
  | leaf i op => rfl
  | unary i op c ih =>
    have hc := ih (List.not_mem_of_not_mem_cons h)
    have hi : i ≠ s := Ne.symm (List.ne_of_not_mem_cons h)
    cases op <;> simp [coreAt, hc, hi]
  | join i j l r ihl ihr =>
    have hlr := List.not_mem_of_not_mem_cons h
    rw [List.mem_append, not_or] at hlr
    rw [coreAt, ihl hlr.1, ihr hlr.2]
    rfl

theorem mem_ids_of_coreAt {t k : RaNode} {s : Nat} (h : coreAt s t = some k) : s ∈ t.ids := by
  by_contra hs
  rw [coreAt_eq_none hs] at h
  cases h

/-- A Selection whose core is known is found by its address. -/
theorem find?_of_coreAt {t k : RaNode} {s : Nat} (hd : Distinct t) (h : coreAt s t = some k) :
    ∃ p c, find? s t = some (.selection s p c) ∧ core c = k := by
  induction t with
  | hole => cases h
  | leaf i op => cases h
  | unary i op c ih =>
    have hc : Distinct c := (List.nodup_cons.mp hd).2
    have hne (hs : coreAt s c = some k) : i ≠ s := by
      rintro rfl
      exact (List.nodup_cons.mp hd).1 (mem_ids_of_coreAt hs)
    cases op with
    | selection p =>
      rw [coreAt] at h
      split at h
      · next hi =>
        subst hi
        exact ⟨p, c, by simp [find?], Option.some.inj h⟩
      · next hi => simpa [find?, hi] using ih hc h
    | _ => simpa [find?, hne h] using ih hc h
  | join i j l r ihl ihr =>
    have hnd := List.nodup_cons.mp hd
    have hlr := List.nodup_append'.mp hnd.2
    rw [coreAt, Option.or_eq_some_iff] at h
    have hi : i ≠ s := by
      rintro rfl
      refine hnd.1 (List.mem_append.mpr ?_)
      exact h.imp mem_ids_of_coreAt fun h => mem_ids_of_coreAt h.2
    rcases h with h | ⟨-, h⟩
    · obtain ⟨p, c, hf, hk⟩ := ihl hlr.1 h
      exact ⟨p, c, by simp [find?, hi, hf], hk⟩
    · obtain ⟨p, c, hf, hk⟩ := ihr hlr.2.1 h
      have hl : s ∉ l.ids := fun hs => hlr.2.2 hs (mem_ids_of_coreAt h)
      exact ⟨p, c, by simp [find?, hi, hf, find?_eq_none hl], hk⟩

/-- A change that keeps the core and the cores below the Selections in one place keeps
them in the whole tree. -/
theorem core_plug {x x' : RaNode} (h : core x' = core x) (K : List Frame) :
    core (plug K x') = core (plug K x) := by
  induction K generalizing x x' with
  | nil => exact h
  | cons f K ih =>
    refine ih ?_
    cases f with
    | unary i op => cases op <;> simp [Frame.plug, core, h]
    | left i j r => simp [Frame.plug, core, h]
    | right i j l => simp [Frame.plug, core, h]

theorem coreAt_plug {x x' : RaNode} {s : Nat} (h : core x' = core x)
    (hs : coreAt s x' = coreAt s x) (K : List Frame) :
    coreAt s (plug K x') = coreAt s (plug K x) := by
  induction K generalizing x x' with
  | nil => exact hs
  | cons f K ih =>
    refine ih (core_plug h [f]) ?_
    cases f with
    | unary i op => cases op <;> simp [Frame.plug, coreAt, h, hs]
    | left i j r => simp [Frame.plug, coreAt, hs]
    | right i j l => simp [Frame.plug, coreAt, hs]

@[simp] theorem getRelationsAliases_core (t : RaNode) :
    getRelationsAliases (core t) = getRelationsAliases t := by
  induction t with
  | hole => rfl
  | leaf i op => rfl
  | unary i op c ih => cases op <;> simp [core, getRelationsAliases, ih]
  | join i j l r ihl ihr => simp [core, getRelationsAliases, ihl, ihr]

@[simp] theorem hasRelationsDefined_core (t : RaNode) (rels : List String) :
    hasRelationsDefined (core t) rels = hasRelationsDefined t rels := by
  simp [hasRelationsDefined]

theorem hasRelationsDefined_selection (i : Nat) (p : Expr) (c : RaNode) (rels : List String) :
    hasRelationsDefined (.selection i p c) rels = hasRelationsDefined c rels := by
  simp [hasRelationsDefined, getRelationsAliases]

/-- The projection of a FROM subquery. -/
def isDerivedTable : UnaryOp → Bool
  | .projection pr => pr.subqueryAlias ≠ ""
  | _ => false

/-- `find_node_where_relations_defined` enters a FROM subquery on its way down. -/
def entersDerivedTable (rels : List String) : RaNode → Bool
  | .hole => false
  | .leaf _ _ => false
  | .unary i op c =>
      hasRelationsDefined (.unary i op c) rels &&
        if isDerivedTable op then hasRelationsDefined c rels else entersDerivedTable rels c
  | .join i j l r =>
      hasRelationsDefined (.join i j l r) rels &&
        if hasRelationsDefined l rels then entersDerivedTable rels l
        else entersDerivedTable rels r

theorem entersDerivedTable_eq_false {rels : List String} {t : RaNode}
    (h : hasRelationsDefined t rels = false) : entersDerivedTable rels t = false := by
  cases t <;> simp_all [entersDerivedTable]

@[simp] theorem entersDerivedTable_core (rels : List String) (t : RaNode) :
    entersDerivedTable rels (core t) = entersDerivedTable rels t := by
  induction t with
  | hole => rfl
  | leaf i op => rfl
  | unary i op c ih =>
    have hself := hasRelationsDefined_core (.unary i op c) rels
    cases op with
    | selection p =>
      rw [core, ih, entersDerivedTable, hasRelationsDefined_selection]
      cases hc : hasRelationsDefined c rels with
      | true => simp [isDerivedTable]
      | false => simp [entersDerivedTable_eq_false hc]
    | _ =>
      simp only [core] at hself
      simp only [core, entersDerivedTable, hself, hasRelationsDefined_core, ih]
  | join i j l r ihl ihr =>
    have hself := hasRelationsDefined_core (.join i j l r) rels
    rw [core] at hself
    simp only [core, entersDerivedTable, hself, hasRelationsDefined_core, ihl, ihr]

/-- The derived table around a position, the innermost one. -/
def enclosingTable (K : List Frame) : Option Nat :=
  K.findSome? fun
    | .unary i op => if isDerivedTable op then some i else none
    | _ => none

theorem enclosingTable_append (K L : List Frame) :
    enclosingTable (K ++ L) = (enclosingTable K).or (enclosingTable L) := by
  simp [enclosingTable]

theorem enclosingTable_mem {K : List Frame} {i : Nat} (h : enclosingTable K = some i) :
    i ∈ contextIds K := by
  obtain ⟨f, hf, hi⟩ := List.exists_of_findSome?_eq_some h
  refine List.mem_flatMap.mpr ⟨f, hf, ?_⟩
  cases f with
  | unary j op =>
    simp only [Option.ite_none_right_eq_some, Option.some.injEq] at hi
    simp [Frame.ids, hi.2]
  | left j join r => cases hi
  | right j join l => cases hi

def isSelection : RaNode → Bool
  | .selection _ _ _ => true
  | _ => false

/-- The frames that `find_node_where_relations_defined` passes on its way down, the
innermost first. -/
def descent (rels : List String) : RaNode → List Frame
  | .hole => []
  | .leaf _ _ => []
  | .unary i op c => if hasRelationsDefined c rels then descent rels c ++ [.unary i op] else []
  | .join i j l r =>
      if hasRelationsDefined l rels then descent rels l ++ [.left i j r]
      else if hasRelationsDefined r rels then descent rels r ++ [.right i j l]
      else []

/-- The node at which the relations are defined: its position below the start, and
whether a derived table lies between. -/
theorem findNode_spec (rels : List String) {t : RaNode} (hfull : t.Full) :
    (hasRelationsDefined t rels = true →
      ∃ it, findNodeWhereRelationsDefined rels t = some it ∧ t = plug (descent rels t) it ∧
        it.Full ∧ isSelection it = false ∧ hasRelationsDefined it rels = true ∧
        ((enclosingTable (descent rels t)).isSome = entersDerivedTable rels t)) ∧
    (hasRelationsDefined t rels = false → findNodeWhereRelationsDefined rels t = none) := by
  induction t with
  | hole => exact hfull.elim
  | leaf i op =>
    refine ⟨fun h => ⟨_, by rw [findNodeWhereRelationsDefined, if_pos h], rfl, hfull, rfl, h, rfl⟩,
      fun h => by simp [findNodeWhereRelationsDefined, h]⟩
  | unary i op c ih =>
    refine ⟨fun h => ?_, fun h => by simp [findNodeWhereRelationsDefined, h]⟩
    rw [findNodeWhereRelationsDefined, if_pos h, descent]
    cases hc : hasRelationsDefined c rels with
    | true =>
      obtain ⟨it, hit, hplug, hfull', hsel, hdef, henc⟩ := (ih hfull).1 hc
      refine ⟨it, by simp [hit], ?_, hfull', hsel, hdef, ?_⟩
      · rw [if_pos rfl, plug_append, ← hplug]
        rfl
      · rw [if_pos rfl, enclosingTable_append, Option.isSome_or, henc, entersDerivedTable, h, hc]
        cases hop : isDerivedTable op <;> simp [enclosingTable, hop]
    | false =>
      refine ⟨.unary i op c, by simp [(ih hfull).2 hc], rfl, hfull, ?_, h, ?_⟩
      · cases op with
        | selection p =>
          rw [hasRelationsDefined_selection, hc] at h
          cases h
        | _ => rfl
      · rw [entersDerivedTable, h, hc, entersDerivedTable_eq_false hc]
        simp [enclosingTable]
  | join i j l r ihl ihr =>
    refine ⟨fun h => ?_, fun h => by simp [findNodeWhereRelationsDefined, h]⟩
    rw [findNodeWhereRelationsDefined, if_pos h, descent]
    cases hl : hasRelationsDefined l rels with
    | true =>
      obtain ⟨it, hit, hplug, hfull', hsel, hdef, henc⟩ := (ihl hfull.1).1 hl
      refine ⟨it, by simp [hit], ?_, hfull', hsel, hdef, ?_⟩
      · rw [if_pos rfl, plug_append, ← hplug]
        rfl
      · rw [if_pos rfl, enclosingTable_append, Option.isSome_or, henc, entersDerivedTable, h, hl]
        simp [enclosingTable]
    | false =>
      rw [(ihl hfull.1).2 hl, entersDerivedTable, h, hl]
      cases hr : hasRelationsDefined r rels with
      | true =>
        obtain ⟨it, hit, hplug, hfull', hsel, hdef, henc⟩ := (ihr hfull.2).1 hr
        refine ⟨it, by simp [hit], ?_, hfull', hsel, hdef, ?_⟩
        · simp only [Bool.false_eq_true, if_false, if_true, plug_append, ← hplug]
          rfl
        · simp only [Bool.false_eq_true, if_false, if_true, enclosingTable_append,
            Option.isSome_or, henc]
          simp [enclosingTable]
      | false =>
        refine ⟨.join i j l r, by simp [(ihr hfull.2).2 hr], rfl, hfull, rfl, h, ?_⟩
        simp [enclosingTable, entersDerivedTable_eq_false hr]

/-- The trees that `push_down_predicates` works on: no node is missing or shared, and
the root is no Selection. -/
structure WellFormed (t : RaTree) : Prop where
  distinct : Distinct t.root
  full : t.root.Full
  fresh : ∀ i ∈ t.root.ids, i < t.nextId
  rooted : isSelection t.root = false

/-- `x'` is the subtree `x` with a conjunct attached to a node whose condition was
`present`. -/
inductive Attachment (nextId : Nat) (predicate : Expr) : RaNode → RaNode → Expr → Prop
  | join (i : Nat) (join : Join) (l r : RaNode) :
      Attachment nextId predicate (.join i join l r)
        (addPredicateToJoin predicate (.join i join l r)) join.predicate
  | selection (i : Nat) (p : Expr) (c : RaNode) :
      Attachment nextId predicate (.selection i p c) (.selection i (addPredicate p predicate) c) p
  | newSelection (x : RaNode) (hx : x.Full) :
      Attachment nextId predicate x (.selection nextId predicate x) .nullptr

namespace Attachment

variable {nextId : Nat} {predicate present : Expr} {x x' : RaNode}

theorem core_eq (h : Attachment nextId predicate x x' present) : core x' = core x := by
  cases h <;> simp [core, addPredicateToJoin]

theorem coreAt_eq (h : Attachment nextId predicate x x' present) {s : Nat} (hs : s < nextId) :
    coreAt s x' = coreAt s x := by
  cases h with
  | join i join l r => rfl
  | selection i p c => rfl
  | newSelection x hx => simp [coreAt, Nat.ne_of_gt hs]

theorem full (h : Attachment nextId predicate x x' present) (hx : x.Full) : x'.Full := by
  cases h <;> exact hx

theorem ids_eq (h : Attachment nextId predicate x x' present) :
    x'.ids = x.ids ∨ x'.ids = nextId :: x.ids := by
  cases h with
  | join i join l r => exact .inl rfl
  | selection i p c => exact .inl rfl
  | newSelection x hx => exact .inr rfl

theorem isSelection_eq (h : Attachment nextId predicate x x' present)
    (hx : x'.ids = x.ids) : isSelection x' = isSelection x := by
  cases h with
  | join i join l r => rfl
  | selection i p c => rfl
  | newSelection x _ => simp [RaNode.ids] at hx

end Attachment

/-- Attaching the conjunct at `pos` changes the subtree `before` below `inner` to
`after`. -/
structure AttachedAt (t : RaTree) (predicate : Expr) (pos : Position) (inner : List Frame)
    (before after : RaNode) : Prop where
  root_eq : t.root = plug inner before
  root_eq' : (attach predicate t pos).root = plug inner after
  attachment : Attachment t.nextId predicate before after (Position.present t.root pos)
  receiver : after.id? = some (Position.receiver t.nextId pos)
  top : inner = [] → after.ids = before.ids
  nextId_eq : (attach predicate t pos).nextId =
    if after.ids = before.ids then t.nextId else t.nextId + 1

private theorem enclosingTable_eq_iff {K D : List Frame} {i : Nat} {p : Expr} {it : RaNode}
    (h : Distinct (plug K (.selection i p (plug D it)))) :
    enclosingTable (D ++ .unary i (.selection p) :: K) = enclosingTable K ↔
      (enclosingTable D).isSome = false := by
  have hsel : enclosingTable (.unary i (.selection p) :: K) = enclosingTable K := rfl
  rw [enclosingTable_append, hsel]
  cases hD : enclosingTable D with
  | none => simp
  | some d =>
    simp only [Option.some_or, Option.isSome_some, Bool.true_eq_false, iff_false]
    intro heq
    refine h.not_mem_context ?_ (enclosingTable_mem heq.symm)
    exact List.mem_cons_of_mem _ (mem_ids_plug.mpr (.inl (enclosingTable_mem hD)))

private theorem attachedAt_join {t : RaTree} {K : List Frame} {i : Nat} {join : Join}
    {l r : RaNode} (ht : Distinct t.root) (hroot : t.root = plug K (.join i join l r)) (c : Expr) :
    AttachedAt t c (.join i) K (.join i join l r) (addPredicateToJoin c (.join i join l r)) := by
  have hid : (RaNode.join i join l r).id? = some i := rfl
  have hd : Distinct (plug K (.join i join l r)) := hroot ▸ ht
  refine ⟨hroot, ?_, ?_, rfl, fun _ => rfl, by simp [attach, addPredicateToJoin, RaNode.ids]⟩
  · simp only [attach, hroot]
    exact update_plug_of_id? hd hid _
  · have hpresent : Position.present t.root (.join i) = join.predicate := by
      simp only [Position.present, hroot, find?_plug_of_id? hd hid]
    rw [hpresent]
    exact .join i join l r

theorem attachedAt_selection {t : RaTree} {K : List Frame} {i : Nat} {p : Expr}
    {child : RaNode} (ht : Distinct t.root) (hroot : t.root = plug K (.selection i p child))
    (c : Expr) :
    AttachedAt t c (.selection i) K (.selection i p child)
      (.selection i (addPredicate p c) child) := by
  have hid : (RaNode.selection i p child).id? = some i := rfl
  have hd : Distinct (plug K (.selection i p child)) := hroot ▸ ht
  refine ⟨hroot, ?_, ?_, rfl, fun _ => rfl, by simp [attach, RaNode.ids]⟩
  · simp only [attach, hroot]
    exact update_plug_of_id? hd hid _
  · have hpresent : Position.present t.root (.selection i) = p := by
      simp only [Position.present, hroot, find?_plug_of_id? hd hid]
    rw [hpresent]
    exact .selection i p child

/-- The subtree that changes when a conjunct is attached at or above `it`: `it` itself or
the Selection around it. -/
inductive Above (f : Frame) (L : List Frame) (it : RaNode) : List Frame → RaNode → Prop
  | self : Above f L it (f :: L) it
  | selection (j : Nat) (p : Expr) : f = .unary j (.selection p) → Above f L it L (f.plug it)

private theorem Above.enclosingTable_eq {f : Frame} {L inner : List Frame} {it before : RaNode}
    (h : Above f L it inner before) : enclosingTable inner = enclosingTable (f :: L) := by
  cases h with
  | self => rfl
  | selection j p hf =>
    subst hf
    rfl

/-- The conjunct goes into the condition of the node. -/
def isJoinFor (cp : Bool) (c : Expr) : RaNode → Bool
  | .join _ _ _ _ => cp && !predicateContainsSubquery c
  | _ => false

/-- The node that carries the conjunct: a Selection over `it`, or the join `it` itself. -/
inductive Carrier (cp : Bool) (c : Expr) (it : RaNode) : RaNode → Prop
  | selection (j : Nat) (p : Expr) : isJoinFor cp c it = false →
      Carrier cp c it (.selection j p it)
  | join (i : Nat) (join : Join) (l r : RaNode) : it = .join i join l r →
      isJoinFor cp c it = true → Carrier cp c it (addPredicateToJoin c it)

/-- Above `it` the conjunct joins the Selection there or gets a new one. -/
private theorem positionAbove_spec {t : RaTree} (ht : Distinct t.root) {f : Frame}
    {L : List Frame} {it : RaNode} (hroot : t.root = plug (f :: L) it) (hfull : it.Full)
    (c : Expr) :
    ∃ pos inner before after, positionAbove t.root it = some pos ∧
      AttachedAt t c pos inner before after ∧ Above f L it inner before ∧
      ∃ j p, after = .selection j p it := by
  obtain ⟨i, hi⟩ := exists_id?_of_full hfull
  have hd : Distinct (plug (f :: L) it) := hroot ▸ ht
  have hparent : getNodeParent i t.root = some (f.plug it, f.index) := by
    rw [hroot]
    exact getNodeParent_plug hd hi
  by_cases hsel : ∃ j p, f = .unary j (.selection p)
  · obtain ⟨j, p, rfl⟩ := hsel
    exact ⟨.selection j, L, _, _, by simp [positionAbove, hi, hparent, Frame.plug],
      attachedAt_selection ht hroot c, .selection j p rfl, j, _, rfl⟩
  · have hpos : positionAbove t.root it = some (.newSelection f.id f.index it) := by
      simp only [positionAbove, hi, hparent, Option.bind_some]
      cases f with
      | unary j op => cases op <;> simp_all [Frame.plug, Frame.id, RaNode.id?]
      | left j join r => rfl
      | right j join l => rfl
    have hhole : it ≠ .hole := by
      rintro rfl
      exact hfull
    refine ⟨_, f :: L, it, .selection t.nextId c it, hpos,
      ⟨hroot, ?_, .newSelection it hfull, rfl, fun h => by simp at h,
        by simp [attach, RaNode.ids]⟩, .self, _, _, rfl⟩
    simp only [attach, hroot, plug_cons]
    rw [plug_cons] at hd
    rw [update_plug_of_id? hd (f.id?_plug it), setChild_plug f hhole]

/-- A conjunct whose relations are defined at `it` goes to the join `it`, to the
Selection above `it` or to a new Selection there. -/
theorem insertPosition_spec (cp : Bool) {t : RaTree} (ht : Distinct t.root) {f : Frame}
    {L : List Frame} {it : RaNode} (hroot : t.root = plug (f :: L) it) (hfull : it.Full)
    (c : Expr) :
    ∃ pos inner before after, insertPosition cp t.root it c = some pos ∧
      AttachedAt t c pos inner before after ∧ Above f L it inner before ∧
      Carrier cp c it after := by
  have habove (hit : isJoinFor cp c it = false) (hpos : insertPosition cp t.root it c =
      positionAbove t.root it) : ∃ pos inner before after,
      insertPosition cp t.root it c = some pos ∧ AttachedAt t c pos inner before after ∧
        Above f L it inner before ∧ Carrier cp c it after := by
    obtain ⟨pos, inner, before, after, hsome, hatt, hinner, j, p, rfl⟩ :=
      positionAbove_spec ht hroot hfull c
    exact ⟨pos, inner, before, _, hpos ▸ hsome, hatt, hinner, .selection j p hit⟩
  cases it with
  | join i join l r =>
    cases hjoin : cp && !predicateContainsSubquery c with
    | true =>
      refine ⟨.join i, f :: L, _, _, ?_, attachedAt_join ht hroot c, .self, ?_⟩
      · rw [insertPosition, if_pos hjoin]
      · exact .join i join l r rfl hjoin
    | false =>
      refine habove hjoin ?_
      rw [insertPosition, hjoin]
      rfl
  | hole => exact hfull.elim
  | leaf i op => exact habove rfl rfl
  | unary i op child => exact habove rfl rfl

/-- Where the changed subtree lies: it is the Selection that the conjunct comes from, or
below it, at the end of the frames that the search has passed. -/
def Reached (rels : List String) (i : Nat) (p : Expr) (child : RaNode) (outer inner : List Frame)
    (before : RaNode) : Prop :=
  inner = outer ∧ before = .selection i p child ∨
    ∃ D, inner = D ++ .unary i (.selection p) :: outer ∧ child = plug D before ∧
      (findNodeWhereRelationsDefined rels child).isSome ∧ ∀ f ∈ D, f ∈ descent rels child

private theorem Above.reached {f : Frame} {L inner K : List Frame} {it child before : RaNode}
    {rels : List String} {i : Nat} {p : Expr} (h : Above f L it inner before)
    (hfL : descent rels child ++ .unary i (.selection p) :: K = f :: L)
    (hchild : child = plug (descent rels child) it)
    (hsome : (findNodeWhereRelationsDefined rels child).isSome) :
    Reached rels i p child K inner before := by
  cases hD : descent rels child with
  | nil =>
    rw [hD] at hfL hchild
    obtain ⟨rfl, rfl⟩ := List.cons.inj hfL
    rw [plug_nil] at hchild
    cases h with
    | self => exact .inr ⟨[], rfl, hchild, hsome, by simp⟩
    | selection j q hf =>
      exact .inl ⟨rfl, by rw [hchild]; rfl⟩
  | cons g D =>
    rw [hD] at hfL hchild
    obtain ⟨rfl, rfl⟩ := List.cons.inj hfL
    refine .inr ?_
    cases h with
    | self => exact ⟨g :: D, rfl, hchild, hsome, by simp [hD]⟩
    | selection j q hf =>
      exact ⟨D, rfl, hchild, hsome, fun f hf => by simp [hD, hf]⟩

/-- A step that places a conjunct succeeds; it stays in the block of its Selection
unless the search for its node enters a derived table. -/
theorem stepPosition_spec (cp : Bool) {t : RaTree} (ht : WellFormed t) {i : Nat} {p : Expr}
    {child : RaNode} (hfind : find? i t.root = some (.selection i p child)) (c : Expr)
    (rels : List String) :
    ∃ pos outer inner before after, stepPosition cp t i c rels = some pos ∧
      t.root = plug outer (.selection i p child) ∧ AttachedAt t c pos inner before after ∧
      (enclosingTable inner = enclosingTable outer ↔ entersDerivedTable rels child = false) ∧
      Reached rels i p child outer inner before := by
  obtain ⟨-, K, hroot⟩ := exists_plug_of_find? hfind
  have hplug : (plug K (.selection i p child)).Full := hroot ▸ ht.full
  have hfull : child.Full := (full_plug.mp hplug).2
  have hspec := findNode_spec rels hfull
  simp only [stepPosition, hfind, position]
  cases hdef : hasRelationsDefined child rels with
  | true =>
    obtain ⟨it, hit, hchild, hfull', -, -, henc⟩ := hspec.1 hdef
    have hroot' : t.root = plug (descent rels child ++ .unary i (.selection p) :: K) it := by
      rw [plug_append, ← hchild, hroot]
      rfl
    obtain ⟨f, L, hfL⟩ : ∃ f L, descent rels child ++ .unary i (.selection p) :: K = f :: L :=
      List.exists_cons_of_ne_nil (by simp)
    rw [hfL] at hroot'
    obtain ⟨pos, inner, before, after, hpos, hatt, habove, -⟩ :=
      insertPosition_spec cp ht.distinct hroot' hfull' c
    refine ⟨pos, K, inner, before, after, by rw [hit]; exact hpos, hroot, hatt, ?_,
      habove.reached hfL hchild (by simp [hit])⟩
    have hdistinct : Distinct (plug K (.selection i p (plug (descent rels child) it))) := by
      rw [← hchild, ← hroot]
      exact ht.distinct
    rw [habove.enclosingTable_eq, ← hfL, enclosingTable_eq_iff hdistinct, henc]
  | false =>
    rw [hspec.2 hdef]
    exact ⟨.selection i, K, K, _, _, rfl, hroot, attachedAt_selection ht.distinct hroot c,
      by simp [entersDerivedTable_eq_false hdef], .inl ⟨rfl, rfl⟩⟩

theorem isSelection_plug {K : List Frame} (hK : K ≠ []) (x y : RaNode) :
    isSelection (plug K x) = isSelection (plug K y) := by
  induction K generalizing x y with
  | nil => exact absurd rfl hK
  | cons f K ih =>
    cases K with
    | nil =>
      cases f with
      | unary i op => cases op <;> rfl
      | left i j r => rfl
      | right i j l => rfl
    | cons g K => exact ih (by simp) _ _

/-- The tree stays well formed when a conjunct is attached. -/
theorem AttachedAt.wellFormed {t : RaTree} {c : Expr} {pos : Position} {K : List Frame}
    {before after : RaNode} (h : AttachedAt t c pos K before after) (ht : WellFormed t) :
    WellFormed (attach c t pos) := by
  have hd : Distinct (plug K before) := h.root_eq ▸ ht.distinct
  have hfresh : ∀ i ∈ (plug K before).ids, i < t.nextId := h.root_eq ▸ ht.fresh
  have hfull := full_plug.mp (h.root_eq ▸ ht.full : (plug K before).Full)
  have hfull' : (plug K after).Full := full_plug.mpr ⟨hfull.1, h.attachment.full hfull.2⟩
  have hrooted : isSelection (plug K after) = false := by
    have hbefore : isSelection (plug K before) = false := h.root_eq ▸ ht.rooted
    cases K with
    | nil =>
      rw [plug_nil] at hbefore ⊢
      rw [h.attachment.isSelection_eq (h.top rfl), hbefore]
    | cons f K => rw [isSelection_plug (by simp) after before, hbefore]
  rcases h.attachment.ids_eq with hids | hids
  · have hperm : (plug K after).ids.Perm (plug K before).ids :=
      (ids_plug K after).trans (hids ▸ (ids_plug K before).symm)
    refine ⟨?_, ?_, ?_, ?_⟩
    · rw [h.root_eq', Distinct, hperm.nodup_iff]
      exact hd
    · rw [h.root_eq']
      exact hfull'
    · rw [h.root_eq', h.nextId_eq, if_pos hids]
      exact fun i hi => hfresh i (hperm.mem_iff.mp hi)
    · rw [h.root_eq']
      exact hrooted
  · have hne : after.ids ≠ before.ids := by simp [hids]
    have hperm : (plug K after).ids.Perm (t.nextId :: (plug K before).ids) := calc
      (plug K after).ids.Perm (contextIds K ++ after.ids) := ids_plug K after
      _ |>.Perm (t.nextId :: (contextIds K ++ before.ids)) := hids ▸ List.perm_middle
      _ |>.Perm (t.nextId :: (plug K before).ids) := (ids_plug K before).symm.cons _
    refine ⟨?_, ?_, ?_, ?_⟩
    · rw [h.root_eq', Distinct, hperm.nodup_iff, List.nodup_cons]
      exact ⟨fun hmem => Nat.lt_irrefl _ (hfresh _ hmem), hd⟩
    · rw [h.root_eq']
      exact hfull'
    · rw [h.root_eq', h.nextId_eq, if_neg hne]
      intro i hi
      rcases List.mem_cons.mp (hperm.mem_iff.mp hi) with rfl | hi
      · exact Nat.lt_succ_self _
      · exact Nat.lt_succ_of_lt (hfresh i hi)
    · rw [h.root_eq']
      exact hrooted

/-- The node that got the conjunct is found by its address. -/
theorem AttachedAt.find?_receiver {t : RaTree} {c : Expr} {pos : Position} {K : List Frame}
    {before after : RaNode} (h : AttachedAt t c pos K before after) (ht : WellFormed t) :
    find? (pos.receiver t.nextId) (attach c t pos).root = some after := by
  have hd : Distinct (plug K after) := h.root_eq' ▸ (h.wellFormed ht).distinct
  rw [h.root_eq']
  exact find?_plug_of_id? hd h.receiver

theorem AttachedAt.coreAt_eq {t : RaTree} {c : Expr} {pos : Position} {K : List Frame}
    {before after : RaNode} (h : AttachedAt t c pos K before after) {s : Nat}
    (hs : s < t.nextId) : coreAt s (attach c t pos).root = coreAt s t.root := by
  rw [h.root_eq', h.root_eq]
  exact coreAt_plug h.attachment.core_eq (h.attachment.coreAt_eq hs) K

theorem coreAt_lt_nextId {t : RaTree} (ht : WellFormed t) {s : Nat} {k : RaNode}
    (h : coreAt s t.root = some k) : s < t.nextId :=
  ht.fresh s (mem_ids_of_coreAt h)

/-- What the removal of an emptied Selection does to the tree. -/
theorem step_removeIfEmpty (cp : Bool) {t : RaTree} (ht : WellFormed t) {i : Nat} {p : Expr}
    {child : RaNode} (hfind : find? i t.root = some (.selection i p child)) :
    ∃ t', step cp t (.removeIfEmpty i) = some t' ∧
      (p ≠ .nullptr ∧ t' = t ∨
        p = .nullptr ∧ ∃ f K, t.root = plug (f :: K) (.selection i p child) ∧
          t' = { t with root := plug (f :: K) child }) := by
  obtain ⟨-, K, hroot⟩ := exists_plug_of_find? hfind
  by_cases hp : p = .nullptr
  · subst hp
    obtain ⟨f, K, rfl⟩ : ∃ f K', K = f :: K' := by
      cases K with
      | nil => exact absurd (hroot ▸ ht.rooted) (by simp [isSelection])
      | cons f K => exact ⟨f, K, rfl⟩
    have hd : Distinct (plug (f :: K) (.selection i .nullptr child)) := hroot ▸ ht.distinct
    have hparent := getNodeParent_plug (i := i) hd rfl
    refine ⟨{ t with root := plug (f :: K) child }, ?_, .inr ⟨rfl, f, K, hroot, rfl⟩⟩
    rw [← hroot] at hparent
    simp only [step, hfind, hparent, Option.bind_some, Frame.id?_plug, Option.map_some]
    rw [plug_cons] at hd hroot
    rw [hroot, update_plug_of_id? hd (f.id?_plug _), setChild_plug f (by simp)]
    rfl
  · refine ⟨t, ?_, .inl ⟨hp, rfl⟩⟩
    simp only [step, hfind]
    cases p <;> first | rfl | exact absurd rfl hp

/-- No step works for a Selection that an earlier step may have removed. -/
def NoReuse : List Step → Prop
  | [] => True
  | .place _ _ _ :: ss => NoReuse ss
  | .removeIfEmpty i :: ss => (∀ s ∈ ss, Step.selection s ≠ i) ∧ NoReuse ss

/-- Between two steps the tree is well formed, and every Selection that is still to be
processed has the core of the original tree below it. -/
structure RunInvariant (original : RaNode) (pending : List Step) (t : RaTree) : Prop where
  wellFormed : WellFormed t
  noReuse : NoReuse pending
  cores : ∀ s ∈ pending, ∃ k, coreAt (Step.selection s) t.root = some k ∧
    coreAt (Step.selection s) original = some k

/-- The Selection of the next step is in the tree, with its original core below it. -/
theorem RunInvariant.next {original : RaNode} {s : Step} {ss : List Step} {t : RaTree}
    (h : RunInvariant original (s :: ss) t) :
    ∃ p child, find? (Step.selection s) t.root = some (.selection (Step.selection s) p child) ∧
      coreAt (Step.selection s) original = some (core child) := by
  obtain ⟨k, hk, horiginal⟩ := h.cores s List.mem_cons_self
  obtain ⟨p, child, hfind, rfl⟩ := find?_of_coreAt h.wellFormed.distinct hk
  exact ⟨p, child, hfind, horiginal⟩

private theorem wellFormed_remove {t : RaTree} {i : Nat} {p : Expr} {child : RaNode} {f : Frame}
    {K : List Frame} (ht : WellFormed t)
    (hroot : t.root = plug (f :: K) (.selection i p child)) :
    WellFormed { t with root := plug (f :: K) child } := by
  have hd : Distinct (plug (f :: K) (.selection i p child)) := hroot ▸ ht.distinct
  have hfull := full_plug.mp (hroot ▸ ht.full : (plug (f :: K) (.selection i p child)).Full)
  have hsel : isSelection (plug (f :: K) (.selection i p child)) = false := hroot ▸ ht.rooted
  have hperm : (plug (f :: K) (.selection i p child)).ids.Perm (i :: (plug (f :: K) child).ids) :=
    calc (plug (f :: K) (.selection i p child)).ids.Perm (contextIds (f :: K) ++ i :: child.ids) :=
        ids_plug _ _
      _ |>.Perm (i :: (contextIds (f :: K) ++ child.ids)) := List.perm_middle
      _ |>.Perm (i :: (plug (f :: K) child).ids) := (ids_plug _ _).symm.cons _
  refine ⟨(List.nodup_cons.mp (hperm.nodup_iff.mp hd)).2, full_plug.mpr ⟨hfull.1, hfull.2⟩,
    fun j hj => ht.fresh j ?_, ?_⟩
  · rw [hroot, hperm.mem_iff]
    exact List.mem_cons_of_mem _ hj
  · rw [← hsel]
    exact isSelection_plug (by simp) _ _

/-- The invariant is kept by every step, and every step succeeds. -/
theorem runInvariant_carries (cp : Bool) (original : RaNode) :
    Logic.Runs.Carries (step cp) (RunInvariant original) := by
  intro s ss t h
  obtain ⟨p, child, hfind, -⟩ := h.next
  cases s with
  | place i c rels =>
    obtain ⟨pos, _, _, _, _, hpos, -, hatt, -, -⟩ := stepPosition_spec cp h.wellFormed hfind c rels
    have hstep : step cp t (.place i c rels) = some (attach c t pos) := by
      rw [step, show stepPosition cp t i c rels = some pos from hpos]
      rfl
    refine ⟨attach c t pos, hstep, hatt.wellFormed h.wellFormed, h.noReuse, ?_⟩
    intro s hs
    obtain ⟨k, hk, horiginal⟩ := h.cores s (List.mem_cons_of_mem _ hs)
    exact ⟨k, (hatt.coreAt_eq (coreAt_lt_nextId h.wellFormed hk)).trans hk, horiginal⟩
  | removeIfEmpty i =>
    obtain ⟨t', hstep, ht'⟩ := step_removeIfEmpty cp h.wellFormed hfind
    refine ⟨t', hstep, ?_⟩
    rcases ht' with ⟨-, rfl⟩ | ⟨-, f, K, hroot, rfl⟩
    · exact ⟨h.wellFormed, h.noReuse.2, fun s hs => h.cores s (List.mem_cons_of_mem _ hs)⟩
    · refine ⟨wellFormed_remove h.wellFormed hroot, h.noReuse.2, fun s hs => ?_⟩
      obtain ⟨k, hk, horiginal⟩ := h.cores s (List.mem_cons_of_mem _ hs)
      refine ⟨k, ?_, horiginal⟩
      have hne : i ≠ Step.selection s := Ne.symm (h.noReuse.1 s hs)
      have hcore : core child = core (.selection i p child) := rfl
      have hat : coreAt (Step.selection s) child =
          coreAt (Step.selection s) (.selection i p child) := by
        simp [coreAt, hne]
      exact (coreAt_plug hcore hat (f :: K)).trans (hroot ▸ hk)

theorem ids_detachPredicates (t : RaNode) : (detachPredicates t).ids = t.ids := by
  induction t with
  | hole => rfl
  | leaf i op => rfl
  | unary i op c ih => cases op <;> simp [detachPredicates, RaNode.ids, ih]
  | join i j l r ihl ihr => simp [detachPredicates, RaNode.ids, ihl, ihr]

theorem full_detachPredicates {t : RaNode} : (detachPredicates t).Full ↔ t.Full := by
  induction t with
  | hole => rfl
  | leaf i op => rfl
  | unary i op c ih => cases op <;> simpa [detachPredicates, RaNode.Full] using ih
  | join i j l r ihl ihr => simp [detachPredicates, RaNode.Full, ihl, ihr]

theorem core_detachPredicates (t : RaNode) : core (detachPredicates t) = core t := by
  induction t with
  | hole => rfl
  | leaf i op => rfl
  | unary i op c ih => cases op <;> simp [detachPredicates, core, ih]
  | join i j l r ihl ihr => simp [detachPredicates, core, ihl, ihr]

theorem coreAt_detachPredicates (s : Nat) (t : RaNode) :
    coreAt s (detachPredicates t) = coreAt s t := by
  induction t with
  | hole => rfl
  | leaf i op => rfl
  | unary i op c ih => cases op <;> simp [detachPredicates, coreAt, ih, core_detachPredicates]
  | join i j l r ihl ihr => simp [detachPredicates, coreAt, ihl, ihr]

theorem WellFormed.detached {t : RaTree} (ht : WellFormed t) : WellFormed (detached t) := by
  refine ⟨?_, full_detachPredicates.mpr ht.full, ?_, ?_⟩
  · rw [Distinct, PushDown.detached, ids_detachPredicates]
    exact ht.distinct
  · rw [PushDown.detached, ids_detachPredicates]
    exact ht.fresh
  · have hroot := ht.rooted
    simp only [PushDown.detached]
    generalize t.root = r at hroot ⊢
    cases r with
    | unary i op c => cases op <;> first | rfl | cases hroot
    | _ => rfl

theorem coreAt_of_mem_getAllSelections {t : RaNode} (hd : Distinct t) {s : Nat × Expr × RaNode}
    (hs : s ∈ getAllSelections t) : coreAt s.1 t = some (core s.2.2) := by
  induction t with
  | hole => cases hs
  | leaf i op => cases hs
  | unary i op c ih =>
    have hc : Distinct c := (List.nodup_cons.mp hd).2
    have hrest (hs : s ∈ getAllSelections c) : coreAt s.1 c = some (core s.2.2) ∧ i ≠ s.1 := by
      have hcore := ih hc hs
      refine ⟨hcore, fun hi => (List.nodup_cons.mp hd).1 ?_⟩
      rw [hi]
      exact mem_ids_of_coreAt hcore
    cases op with
    | selection p =>
      rcases List.mem_cons.mp hs with rfl | hs
      · simp [coreAt]
      · simp [coreAt, (hrest hs).1, (hrest hs).2]
    | _ => exact (hrest hs).1
  | join i j l r ihl ihr =>
    have hlr := List.nodup_append'.mp (List.nodup_cons.mp hd).2
    rw [coreAt]
    rcases List.mem_append.mp hs with hs | hs
    · rw [ihl hlr.1 hs, Option.some_or]
    · have hr := ihr hlr.2.1 hs
      rw [coreAt_eq_none fun hl => hlr.2.2 hl (mem_ids_of_coreAt hr), Option.none_or, hr]

theorem getAllSelections_ids_sublist (t : RaNode) :
    ((getAllSelections t).map Prod.fst).Sublist t.ids := by
  induction t with
  | hole => exact .slnil
  | leaf i op => simp [getAllSelections]
  | unary i op c ih =>
    cases op with
    | selection p => exact ih.cons_cons i
    | _ => exact ih.cons i
  | join i j l r ihl ihr =>
    rw [getAllSelections, List.map_append]
    exact (ihl.append ihr).cons i

private theorem mem_selectionSteps {i : Nat} {p : Expr} {ss : List Step}
    (h : selectionSteps i p = some ss) {s : Step} (hs : s ∈ ss) : Step.selection s = i := by
  simp only [selectionSteps, Option.bind_eq_some_iff, Option.map_eq_some_iff] at h
  obtain ⟨cs, -, places, hplaces, rfl⟩ := h
  rw [List.mem_append, List.mem_singleton] at hs
  rcases hs with hs | rfl
  · obtain ⟨c, -, hc⟩ := Logic.Runs.exists_of_mem_mapM hplaces hs
    obtain ⟨rels, -, rfl⟩ := Option.map_eq_some_iff.mp hc
    rfl
  · rfl

private theorem noReuse_append {ss ss' : List Step} (h : NoReuse ss) (h' : NoReuse ss')
    (hdisj : ∀ s ∈ ss, ∀ s' ∈ ss', Step.selection s' ≠ Step.selection s) :
    NoReuse (ss ++ ss') := by
  induction ss with
  | nil => exact h'
  | cons s ss ih =>
    have hrest := fun h => ih h fun s hs => hdisj s (List.mem_cons_of_mem _ hs)
    cases s with
    | place i c rels => exact hrest h
    | removeIfEmpty i =>
      refine ⟨fun s hs => ?_, hrest h.2⟩
      rcases List.mem_append.mp hs with hs | hs
      · exact h.1 s hs
      · exact hdisj _ List.mem_cons_self s hs

private theorem noReuse_selectionSteps {i : Nat} {p : Expr} {ss : List Step}
    (h : selectionSteps i p = some ss) : NoReuse ss := by
  simp only [selectionSteps, Option.bind_eq_some_iff, Option.map_eq_some_iff] at h
  obtain ⟨cs, -, places, hplaces, rfl⟩ := h
  rw [Logic.Runs.mapM_eq_some_iff] at hplaces
  induction hplaces with
  | nil => simp [NoReuse]
  | cons hc _ ih =>
    obtain ⟨rels, -, rfl⟩ := Option.map_eq_some_iff.mp hc
    exact ih

/-- The steps for a tree, Selection by Selection. -/
theorem steps_eq_some_iff {root : RaNode} {ss : List Step} :
    steps root = some ss ↔ ∃ sss, ss = sss.flatten ∧
      List.Forall₂ (fun s ss => selectionSteps s.1 s.2.1 = some ss) (getAllSelections root) sss := by
  simp only [steps, Option.map_eq_some_iff, Logic.Runs.mapM_eq_some_iff]
  constructor
  · rintro ⟨sss, h, rfl⟩
    exact ⟨sss, rfl, h⟩
  · rintro ⟨sss, rfl, h⟩
    exact ⟨sss, h, rfl⟩

private theorem mem_steps {sels : List (Nat × Expr × RaNode)} {sss : List (List Step)}
    (h : List.Forall₂ (fun s ss => selectionSteps s.1 s.2.1 = some ss) sels sss) {s : Step}
    (hs : s ∈ sss.flatten) : ∃ sel ∈ sels, Step.selection s = sel.1 := by
  induction h with
  | nil => cases hs
  | @cons sel ss sels sss hsel _ ih =>
    rw [List.flatten_cons, List.mem_append] at hs
    rcases hs with hs | hs
    · exact ⟨sel, List.mem_cons_self, mem_selectionSteps hsel hs⟩
    · obtain ⟨sel', hmem, hi⟩ := ih hs
      exact ⟨sel', List.mem_cons_of_mem _ hmem, hi⟩

private theorem noReuse_steps {sels : List (Nat × Expr × RaNode)} {sss : List (List Step)}
    (h : List.Forall₂ (fun s ss => selectionSteps s.1 s.2.1 = some ss) sels sss)
    (hnd : (sels.map Prod.fst).Nodup) : NoReuse sss.flatten := by
  induction h with
  | nil => trivial
  | @cons sel ss sels sss hsel hrest ih =>
    rw [List.map_cons, List.nodup_cons] at hnd
    refine noReuse_append (noReuse_selectionSteps hsel) (ih hnd.2) fun s hs s' hs' heq => ?_
    obtain ⟨sel', hmem, hi⟩ := mem_steps hrest hs'
    rw [mem_selectionSteps hsel hs, hi] at heq
    exact hnd.1 (heq ▸ List.mem_map_of_mem hmem)

/-- The invariant holds when the second loop starts. -/
theorem runInvariant_detached {t : RaTree} (ht : WellFormed t) {ss : List Step}
    (hss : steps t.root = some ss) : RunInvariant t.root ss (detached t) := by
  obtain ⟨sss, rfl, h⟩ := steps_eq_some_iff.mp hss
  refine ⟨ht.detached, noReuse_steps h ?_, fun s hs => ?_⟩
  · exact (getAllSelections_ids_sublist t.root).nodup ht.distinct
  · obtain ⟨sel, hsel, hi⟩ := mem_steps h hs
    have hcore := coreAt_of_mem_getAllSelections ht.distinct hsel
    rw [hi]
    exact ⟨core sel.2.2, (coreAt_detachPredicates _ _).trans hcore, hcore⟩

end SqlOptimizer.Tree.PushDownRun
