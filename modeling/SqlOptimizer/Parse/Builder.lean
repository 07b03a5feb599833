import SqlOptimizer.Tree.Frames

/-!
The state of the parser and the operations with which it builds a tree: fresh objects,
marker numbers, and `add_subtree`, which fills the first empty place.
-/

set_option autoImplicit false
set_option relaxedAutoImplicit false

namespace SqlOptimizer.Parse.Builder

open Algebra.RelationalAlgebra
open Tree.Frames

/-- The members of `SQLtoRA` and the address of the next object. -/
structure ParserState where
  counter : Nat := 0
  ctes : List RaNode := []
  nextId : Nat := 0

abbrev Parser := StateT ParserState Option

variable {α β : Type}

def crash : Parser α := fun _ => none

def ofOption (o : Option α) : Parser α := fun s => o.map fun a => (a, s)

/-- `std::make_shared`. -/
def newId : Parser Nat := fun s => some (s.nextId, { s with nextId := s.nextId + 1 })

/-- `++counter`. -/
def nextMarker : Parser Nat := fun s => some (s.counter + 1, { s with counter := s.counter + 1 })

/-- `ctes.push_back`. -/
def pushCte (cte : RaNode) : Parser Unit := fun s => some ((), { s with ctes := s.ctes ++ [cte] })

/-- One step of a parser function and the rest of it. -/
theorem bind_eq_some {x : Parser α} {f : α → Parser β} {s : ParserState} {r : β × ParserState} :
    (x >>= f) s = some r ↔ ∃ a s', x s = some (a, s') ∧ f a s' = some r := by
  rw [show (x >>= f) s = (x s).bind fun p => f p.1 p.2 from rfl, Option.bind_eq_some_iff]
  simp

@[simp] theorem pure_eq_some {a : α} {s : ParserState} {r : α × ParserState} :
    (pure a : Parser α) s = some r ↔ r = (a, s) := by
  rw [show (pure a : Parser α) s = some (a, s) from rfl, Option.some.injEq, eq_comm]

@[simp] theorem crash_apply (s : ParserState) : (crash : Parser α) s = none := rfl

@[simp] theorem ofOption_eq_some {o : Option α} {s : ParserState} {r : α × ParserState} :
    ofOption o s = some r ↔ o = some r.1 ∧ r.2 = s := by
  obtain ⟨a, s'⟩ := r
  simp only [ofOption, Option.map_eq_some_iff, Prod.mk.injEq]
  constructor
  · rintro ⟨b, hb, rfl, rfl⟩
    exact ⟨hb, rfl⟩
  · rintro ⟨hb, rfl⟩
    exact ⟨a, hb, rfl, rfl⟩

@[simp] theorem newId_eq_some {s : ParserState} {r : Nat × ParserState} :
    newId s = some r ↔ r = (s.nextId, { s with nextId := s.nextId + 1 }) := by
  rw [newId, Option.some.injEq, eq_comm]

@[simp] theorem nextMarker_eq_some {s : ParserState} {r : Nat × ParserState} :
    nextMarker s = some r ↔ r = (s.counter + 1, { s with counter := s.counter + 1 }) := by
  rw [nextMarker, Option.some.injEq, eq_comm]

@[simp] theorem pushCte_eq_some {cte : RaNode} {s : ParserState} {r : Unit × ParserState} :
    pushCte cte s = some r ↔ r = ((), { s with ctes := s.ctes ++ [cte] }) := by
  rw [pushCte, Option.some.injEq, eq_comm]

/-- `SQLtoRA::find_empty_leaf`: the position and the value of the first node of a
depth-first walk that lacks a child. -/
def findEmptyLeaf : RaNode → Option (List Frame × RaNode)
  | .hole => none
  | .leaf _ _ => none
  | .unary i op .hole => some ([], .unary i op .hole)
  | .unary i op c => (findEmptyLeaf c).map fun r => (r.1 ++ [.unary i op], r.2)
  | .join i join .hole r => some ([], .join i join .hole r)
  | .join i join l .hole => some ([], .join i join l .hole)
  | .join i join l r =>
      ((findEmptyLeaf l).map fun p => (p.1 ++ [.left i join r], p.2)).or
        ((findEmptyLeaf r).map fun p => (p.1 ++ [.right i join l], p.2))

/-- A child is put in front of the children of a join and behind those of other nodes. -/
def insertChild (child : RaNode) : RaNode → RaNode
  | .hole => .hole
  | .leaf i op => .leaf i op
  | .unary i op _ => .unary i op child
  | .join i join .hole .hole => .join i join .hole child
  | .join i join .hole r => .join i join child r
  | .join i join l _ => .join i join l child

/-- `SQLtoRA::add_subtree`. The node with the empty place must not belong to the subtree
itself: the subtree would become its own descendant. -/
def addSubtree (base subtree : RaNode) : Option RaNode :=
  match findEmptyLeaf base with
  | none => none
  | some (K, owner) =>
      if subtree.isHole || subtree.ids.any (fun i => owner.id? = some i) then none
      else some (plug K (insertChild subtree owner))

def attachTo (base subtree : RaNode) : Parser RaNode := ofOption (addSubtree base subtree)

/-- A clause or a join whose pointer is not null is attached. -/
def attachPresent (base subtree : RaNode) : Parser RaNode :=
  if subtree.isHole then pure base else attachTo base subtree

@[simp] theorem attachPresent_hole (base : RaNode) : attachPresent base .hole = pure base := rfl

@[simp] theorem attachPresent_join (base : RaNode) (i : Nat) (join : Join) (l r : RaNode) :
    attachPresent base (.join i join l r) = attachTo base (.join i join l r) := rfl

@[simp] theorem attachPresent_unary (base : RaNode) (i : Nat) (op : UnaryOp) (c : RaNode) :
    attachPresent base (.unary i op c) = attachTo base (.unary i op c) := rfl

theorem attachTo_eq_some {base subtree t : RaNode} {s s' : ParserState} :
    attachTo base subtree s = some (t, s') ↔ addSubtree base subtree = some t ∧ s' = s := by
  simp [attachTo]

/-- What `add_subtree` does: the subtree fills an empty place of the base. -/
theorem addSubtree_eq_some {base subtree t : RaNode} {K : List Frame} {owner : RaNode}
    (hleaf : findEmptyLeaf base = some (K, owner)) :
    addSubtree base subtree = some t ↔
      subtree ≠ .hole ∧ (∀ i ∈ subtree.ids, owner.id? ≠ some i) ∧
        t = plug K (insertChild subtree owner) := by
  have hhole : subtree.isHole = true ↔ subtree = .hole := by cases subtree <;> simp [RaNode.isHole]
  simp only [addSubtree, hleaf, Option.ite_none_left_eq_some, Bool.or_eq_true, hhole,
    List.any_eq_true, decide_eq_true_eq, not_or, not_exists, not_and, Option.some.injEq, and_assoc,
    eq_comm (a := t)]

/-- A node with an empty place for a child. -/
inductive LacksChild : RaNode → Prop where
  | unary (i : Nat) (op : UnaryOp) : LacksChild (.unary i op .hole)
  | left (i : Nat) (join : Join) (r : RaNode) : LacksChild (.join i join .hole r)
  | right (i : Nat) (join : Join) (l : RaNode) : LacksChild (.join i join l .hole)

/-- The walk ends at a node that lacks a child. -/
theorem findEmptyLeaf_spec {base : RaNode} {K : List Frame} {owner : RaNode}
    (h : findEmptyLeaf base = some (K, owner)) : base = plug K owner ∧ LacksChild owner := by
  fun_induction findEmptyLeaf base generalizing K owner with
  | case1 => cases h
  | case2 => cases h
  | case3 i op =>
    cases h
    exact ⟨rfl, .unary i op⟩
  | case4 i op c _ ih =>
    obtain ⟨p, hp, hr⟩ := Option.map_eq_some_iff.mp h
    cases hr
    obtain ⟨rfl, howner⟩ := ih hp
    exact ⟨by simp [Frame.plug], howner⟩
  | case5 i join r =>
    cases h
    exact ⟨rfl, .left i join r⟩
  | case6 i join l =>
    cases h
    exact ⟨rfl, .right i join l⟩
  | case7 i join l r _ _ ihl ihr =>
    rcases Option.or_eq_some_iff.mp h with hl | ⟨-, hr⟩
    · obtain ⟨p, hp, hpr⟩ := Option.map_eq_some_iff.mp hl
      cases hpr
      obtain ⟨rfl, howner⟩ := ihl hp
      exact ⟨by simp [Frame.plug], howner⟩
    · obtain ⟨p, hp, hpr⟩ := Option.map_eq_some_iff.mp hr
      cases hpr
      obtain ⟨rfl, howner⟩ := ihr hp
      exact ⟨by simp [Frame.plug], howner⟩

/-- Every empty place is filled by at most one subtree. -/
theorem exists_plug_of_addSubtree {base sub t : RaNode} (h : addSubtree base sub = some t) :
    ∃ K owner, LacksChild owner ∧ base = plug K owner ∧ t = plug K (insertChild sub owner) := by
  cases hleaf : findEmptyLeaf base with
  | none => simp [addSubtree, hleaf] at h
  | some r =>
    obtain ⟨K, owner⟩ := r
    obtain ⟨-, -, rfl⟩ := (addSubtree_eq_some hleaf).mp h
    obtain ⟨hbase, howner⟩ := findEmptyLeaf_spec hleaf
    exact ⟨K, owner, howner, hbase, rfl⟩

private theorem plug_ne_hole (K : List Frame) {t : RaNode} (ht : t ≠ .hole) : plug K t ≠ .hole := by
  induction K generalizing t with
  | nil => exact ht
  | cons f K ih => exact ih (by cases f <;> simp [Frame.plug])

private theorem insertChild_owner_ne_hole {base owner : RaNode} {K : List Frame} (child : RaNode)
    (h : findEmptyLeaf base = some (K, owner)) : insertChild child owner ≠ .hole := by
  fun_induction findEmptyLeaf base generalizing K owner with
  | case1 => cases h
  | case2 => cases h
  | case3 i op => cases h; simp [insertChild]
  | case4 i op c _ ih =>
    obtain ⟨p, hp, hr⟩ := Option.map_eq_some_iff.mp h
    cases hr
    exact ih hp
  | case5 i join r => cases h; cases r <;> simp [insertChild]
  | case6 i join l => cases h; cases l <;> simp [insertChild]
  | case7 i join l r _ _ ihl ihr =>
    rcases Option.or_eq_some_iff.mp h with h | ⟨-, h⟩ <;>
      obtain ⟨p, hp, hr⟩ := Option.map_eq_some_iff.mp h <;> cases hr
    · exact ihl hp
    · exact ihr hp

/-- The action returns a node. -/
def ReturnsNode (x : Parser RaNode) : Prop := ∀ s t s', x s = some (t, s') → t ≠ .hole

theorem ReturnsNode.pure {t : RaNode} (ht : t ≠ .hole) : ReturnsNode (pure t) := by
  intro s u s' h
  cases pure_eq_some.mp h
  exact ht

theorem ReturnsNode.attachTo (base subtree : RaNode) : ReturnsNode (attachTo base subtree) := by
  intro s t s' h
  obtain ⟨h, -⟩ := attachTo_eq_some.mp h
  cases hleaf : findEmptyLeaf base with
  | none => simp [addSubtree, hleaf] at h
  | some p =>
    obtain ⟨-, -, rfl⟩ := (addSubtree_eq_some hleaf).mp h
    exact plug_ne_hole p.1 (insertChild_owner_ne_hole subtree hleaf)

theorem ReturnsNode.attachPresent {base : RaNode} (hb : base ≠ .hole) (subtree : RaNode) :
    ReturnsNode (attachPresent base subtree) := by
  unfold Builder.attachPresent
  split
  · exact .pure hb
  · exact .attachTo base subtree

theorem ReturnsNode.crash : ReturnsNode crash := fun _ _ _ h => nomatch h

/-- Only the last action decides what is returned. -/
theorem ReturnsNode.bind {x : Parser α} {f : α → Parser RaNode} (hf : ∀ a, ReturnsNode (f a)) :
    ReturnsNode (x >>= f) := by
  intro s t s' h
  obtain ⟨a, s₁, -, h⟩ := bind_eq_some.mp h
  exact hf a s₁ t s' h

theorem ReturnsNode.bind_node {x : Parser RaNode} {f : RaNode → Parser RaNode} (hx : ReturnsNode x)
    (hf : ∀ t, t ≠ .hole → ReturnsNode (f t)) : ReturnsNode (x >>= f) := by
  intro s t s' h
  obtain ⟨a, s₁, ha, h⟩ := bind_eq_some.mp h
  exact hf a (hx s a s₁ ha) s₁ t s' h

/-- The empty place that is filled next is at the end of the left spine. -/
def LeftOpen : RaNode → Prop
  | .unary _ _ .hole => True
  | .unary _ _ c => LeftOpen c
  | .join _ _ .hole r => r ≠ .hole
  | .join _ _ l r => r ≠ .hole ∧ LeftOpen l
  | _ => False

/-- The address of the node at the end of the left spine. -/
def tip : RaNode → Option Nat
  | .unary i _ .hole => some i
  | .unary _ _ c => tip c
  | .join i _ .hole _ => some i
  | .join _ _ l _ => tip l
  | _ => none

theorem mem_ids_of_tip {t : RaNode} {i : Nat} (h : tip t = some i) : i ∈ t.ids := by
  fun_induction tip t with
  | case1 i op => simp_all [RaNode.ids]
  | case2 i op c hc ih => exact List.mem_cons_of_mem _ (ih h)
  | case3 i join r => simp_all [RaNode.ids]
  | case4 i join l r hl ih => exact List.mem_cons_of_mem _ (List.mem_append_left _ (ih h))
  | case5 => cases h

/-- The joins on the left spine with their right children, from the top. -/
def spineJoins : RaNode → List (Join × RaNode)
  | .unary _ _ c => spineJoins c
  | .join _ join l r => (join, r) :: spineJoins l
  | _ => []

/-- The tree with `sub` at the end of the left spine. -/
def graft (sub : RaNode) : RaNode → RaNode
  | .unary i op .hole => .unary i op sub
  | .unary i op c => .unary i op (graft sub c)
  | .join i join .hole r => .join i join sub r
  | .join i join l r => .join i join (graft sub l) r
  | t => t

/-- A depth-first walk of a left-open tree ends at the end of the left spine. -/
private theorem findEmptyLeaf_leftOpen {base : RaNode} (hb : LeftOpen base) (sub : RaNode) :
    ∃ K owner, findEmptyLeaf base = some (K, owner) ∧ owner.id? = tip base ∧
      plug K (insertChild sub owner) = graft sub base := by
  fun_induction LeftOpen base with
  | case1 i op => exact ⟨[], _, rfl, rfl, rfl⟩
  | case2 i op c hc ih =>
    obtain ⟨K, owner, hK, hid, hplug⟩ := ih hb
    refine ⟨K ++ [.unary i op], owner, ?_, ?_, ?_⟩
    · simp [findEmptyLeaf, hK]
    · simp [tip, hid]
    · simp [hplug, Frame.plug, graft]
  | case3 i join r =>
    refine ⟨[], .join i join .hole r, ?_, rfl, ?_⟩
    · cases r <;> simp_all [findEmptyLeaf]
    · cases r <;> simp_all [insertChild, graft]
  | case4 i join l r hl ih =>
    obtain ⟨K, owner, hK, hid, hplug⟩ := ih hb.2
    refine ⟨K ++ [.left i join r], owner, ?_, ?_, ?_⟩
    · cases r <;> simp_all [findEmptyLeaf]
    · simp [tip, hid]
    · simp [hplug, Frame.plug, graft]
  | case5 => exact hb.elim

/-- On a left-open tree `add_subtree` continues the left spine. -/
theorem addSubtree_leftOpen {base sub t : RaNode} (hb : LeftOpen base) :
    addSubtree base sub = some t ↔
      sub ≠ .hole ∧ (∀ i ∈ sub.ids, tip base ≠ some i) ∧ t = graft sub base := by
  obtain ⟨K, owner, hK, hid, hplug⟩ := findEmptyLeaf_leftOpen hb sub
  rw [addSubtree_eq_some hK, hid, hplug]

private theorem graft_ne_hole {base : RaNode} (hb : LeftOpen base) (sub : RaNode) :
    graft sub base ≠ .hole := by
  fun_cases graft sub base <;> simp_all [LeftOpen]

theorem leftOpen_graft {base sub : RaNode} (hb : LeftOpen base) (hs : LeftOpen sub) :
    LeftOpen (graft sub base) := by
  fun_induction LeftOpen base with
  | case1 i op => cases sub <;> simp_all [LeftOpen, graft]
  | case2 i op c hc ih =>
    have hne := graft_ne_hole hb sub
    have := ih hb
    cases hg : graft sub c <;> simp_all [LeftOpen, graft]
  | case3 i join r => cases sub <;> simp_all [LeftOpen, graft]
  | case4 i join l r hl ih =>
    have hne := graft_ne_hole hb.2 sub
    have := ih hb.2
    cases hg : graft sub l <;> simp_all [LeftOpen, graft]
  | case5 => exact hb.elim

theorem spineJoins_graft {base : RaNode} (hb : LeftOpen base) (sub : RaNode) :
    spineJoins (graft sub base) = spineJoins base ++ spineJoins sub := by
  fun_induction LeftOpen base with
  | case1 i op => rfl
  | case2 i op c hc ih => simp [graft, spineJoins, ih hb]
  | case3 i join r => simp [graft, spineJoins]
  | case4 i join l r hl ih => simp [graft, spineJoins, ih hb.2]
  | case5 => exact hb.elim

theorem tip_graft {base sub : RaNode} (hb : LeftOpen base) (hs : sub ≠ .hole) :
    tip (graft sub base) = tip sub := by
  fun_induction LeftOpen base with
  | case1 i op => cases sub <;> simp_all [tip, graft]
  | case2 i op c hc ih =>
    have hne := graft_ne_hole hb sub
    have := ih hb
    cases hg : graft sub c <;> simp_all [tip, graft]
  | case3 i join r => cases sub <;> simp_all [tip, graft]
  | case4 i join l r hl ih =>
    have hne := graft_ne_hole hb.2 sub
    have := ih hb.2
    cases hg : graft sub l <;> simp_all [tip, graft]
  | case5 => exact hb.elim

theorem leftOpen_join {i : Nat} {join : Join} {pr : RaNode} (hpr : pr ≠ .hole) :
    LeftOpen (.join i join .hole pr) := by
  cases pr <;> simp_all [LeftOpen]

/-- Attaching a join a second time right after the first time would make it its own
child. -/
theorem addSubtree_twice {base pr : RaNode} (i : Nat) (join : Join) (hb : LeftOpen base)
    (hpr : pr ≠ .hole) :
    addSubtree (graft (.join i join .hole pr) base) (.join i join .hole pr) = none := by
  have hs : LeftOpen (.join i join .hole pr) := leftOpen_join hpr
  rw [Option.eq_none_iff_forall_ne_some]
  intro t ht
  obtain ⟨-, hids, -⟩ := (addSubtree_leftOpen (leftOpen_graft hb hs)).mp ht
  refine hids i (by simp [RaNode.ids]) ?_
  rw [tip_graft hb (by simp)]
  cases pr <;> rfl

/-- Below the full right children of a left spine the walk goes on at the end of the spine. -/
theorem findEmptyLeaf_plug {K L : List Frame} {t owner : RaNode}
    (hK : ∀ f ∈ K, ∃ i join r, f = .left i join r ∧ r ≠ .hole)
    (h : findEmptyLeaf t = some (L, owner)) : findEmptyLeaf (plug K t) = some (L ++ K, owner) := by
  induction K generalizing t L with
  | nil => simpa using h
  | cons f K ih =>
    rw [List.forall_mem_cons] at hK
    obtain ⟨⟨i, join, r, rfl, hr⟩, hK⟩ := hK
    have hleft : findEmptyLeaf (Frame.plug (.left i join r) t) = some (L ++ [.left i join r], owner) := by
      cases t <;> cases r <;> simp_all [Frame.plug, findEmptyLeaf]
    rw [plug_cons, ih hK hleft, List.append_assoc, List.singleton_append]

/-- The relations of a FROM clause fill the lowest cross product from the right. -/
theorem addSubtree_cross_eq_some {K : List Frame} {i : Nat} {join : Join} {r sub t : RaNode}
    (hK : ∀ f ∈ K, ∃ i join r, f = .left i join r ∧ r ≠ .hole) :
    addSubtree (plug K (.join i join .hole r)) sub = some t ↔
      sub ≠ .hole ∧ i ∉ sub.ids ∧ t = plug K (insertChild sub (.join i join .hole r)) := by
  have hleaf : findEmptyLeaf (.join i join .hole r) = some ([], .join i join .hole r) := by
    cases r <;> rfl
  have howner : (∀ j ∈ sub.ids, (RaNode.join i join .hole r).id? ≠ some j) ↔ i ∉ sub.ids := by
    simp only [RaNode.id?, ne_eq, Option.some.injEq]
    exact ⟨fun h hi => h i hi rfl, fun h j hj hij => h (hij ▸ hj)⟩
  rw [addSubtree_eq_some (findEmptyLeaf_plug hK hleaf), howner]
  rfl

theorem addSubtree_cross {K : List Frame} {i : Nat} {join : Join} {r sub : RaNode}
    (hK : ∀ f ∈ K, ∃ i join r, f = .left i join r ∧ r ≠ .hole) (hsub : sub ≠ .hole)
    (hi : i ∉ sub.ids) :
    addSubtree (plug K (.join i join .hole r)) sub =
      some (plug K (insertChild sub (.join i join .hole r))) :=
  (addSubtree_cross_eq_some hK).mpr ⟨hsub, hi, rfl⟩

end SqlOptimizer.Parse.Builder
