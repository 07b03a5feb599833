import SqlOptimizer.Algebra.RelationalAlgebra
import Mathlib.Data.List.Nodup
import Mathlib.Data.List.Perm.Basic
import Mathlib.Tactic.Tauto

/-!
Positions in a tree of relational operators. A position is the list of frames around
it, the innermost first; the nodes that the source reaches by pointer are found and
replaced by their address.
-/

set_option autoImplicit false
set_option relaxedAutoImplicit false

namespace SqlOptimizer.Tree.Frames

open Algebra.RelationalAlgebra

/-- An operator with one child left out. -/
inductive Frame where
  | unary (id : Nat) (op : UnaryOp)
  | left (id : Nat) (join : Join) (right : RaNode)
  | right (id : Nat) (join : Join) (left : RaNode)

namespace Frame

/-- The operator with the child put in. -/
def plug : Frame → RaNode → RaNode
  | unary i op, t => .unary i op t
  | left i j r, t => .join i j t r
  | right i j l, t => .join i j l t

/-- The address of the operator. -/
def id : Frame → Nat
  | unary i _ => i
  | left i _ _ => i
  | right i _ _ => i

/-- The addresses of the operator and of its other child's nodes. -/
def ids : Frame → List Nat
  | unary i _ => [i]
  | left i _ r => i :: r.ids
  | right i _ l => i :: l.ids

/-- The position of the missing child in `childNodes`. -/
def index : Frame → Nat
  | unary _ _ => 0
  | left _ _ _ => 0
  | right _ _ .hole => 0
  | right _ _ _ => 1

end Frame

/-- The tree around a position with `t` put there. -/
def plug (K : List Frame) (t : RaNode) : RaNode := K.foldl (fun t f => f.plug t) t

def contextIds (K : List Frame) : List Nat := K.flatMap Frame.ids

@[simp] theorem plug_nil (t : RaNode) : plug [] t = t := rfl

@[simp] theorem plug_cons (f : Frame) (K : List Frame) (t : RaNode) :
    plug (f :: K) t = plug K (f.plug t) := rfl

@[simp] theorem plug_append (K L : List Frame) (t : RaNode) :
    plug (K ++ L) t = plug L (plug K t) := by
  simp [plug]

@[simp] theorem contextIds_nil : contextIds [] = [] := rfl

@[simp] theorem contextIds_cons (f : Frame) (K : List Frame) :
    contextIds (f :: K) = f.ids ++ contextIds K := by
  simp [contextIds]

@[simp] theorem contextIds_append (K L : List Frame) :
    contextIds (K ++ L) = contextIds K ++ contextIds L := by
  simp [contextIds]

theorem Frame.ids_plug (f : Frame) (t : RaNode) : (f.plug t).ids.Perm (f.ids ++ t.ids) := by
  cases f with
  | unary i op => exact .refl _
  | left i j r => exact .cons _ List.perm_append_comm
  | right i j l => exact .refl _

theorem ids_plug (K : List Frame) (t : RaNode) :
    (plug K t).ids.Perm (contextIds K ++ t.ids) := by
  induction K generalizing t with
  | nil => exact .refl _
  | cons f K ih =>
    calc (plug K (f.plug t)).ids.Perm (contextIds K ++ (f.plug t).ids) := ih _
      _ |>.Perm (contextIds K ++ (f.ids ++ t.ids)) := (f.ids_plug t).append_left _
      _ |>.Perm (contextIds (f :: K) ++ t.ids) := by
        rw [contextIds_cons, ← List.append_assoc]
        exact List.perm_append_comm.append_right _

theorem mem_ids_plug {K : List Frame} {t : RaNode} {i : Nat} :
    i ∈ (plug K t).ids ↔ i ∈ contextIds K ∨ i ∈ t.ids := by
  rw [(ids_plug K t).mem_iff, List.mem_append]

/-- No two nodes of the tree have one address. -/
def Distinct (t : RaNode) : Prop := t.ids.Nodup

theorem distinct_plug {K : List Frame} {t : RaNode} :
    Distinct (plug K t) ↔
      (contextIds K).Nodup ∧ Distinct t ∧ List.Disjoint (contextIds K) t.ids := by
  rw [Distinct, (ids_plug K t).nodup_iff, List.nodup_append']
  exact Iff.rfl

theorem Distinct.not_mem_context {K : List Frame} {t : RaNode} (h : Distinct (plug K t)) {i : Nat}
    (hi : i ∈ t.ids) : i ∉ contextIds K :=
  fun hK => (distinct_plug.mp h).2.2 hK hi

theorem id?_mem_ids {t : RaNode} {i : Nat} (h : t.id? = some i) : i ∈ t.ids := by
  cases t <;> simp_all [RaNode.id?, RaNode.ids]

@[simp] theorem Frame.id?_plug (f : Frame) (t : RaNode) : (f.plug t).id? = some f.id := by
  cases f <;> rfl

/-- The other child of the operator is a full tree. -/
def Frame.Full : Frame → Prop
  | unary _ _ => True
  | left _ _ r => r.Full
  | right _ _ l => l.Full

theorem full_plug {K : List Frame} {t : RaNode} :
    (plug K t).Full ↔ (∀ f ∈ K, f.Full) ∧ t.Full := by
  induction K generalizing t with
  | nil => simp
  | cons f K ih =>
    rw [plug_cons, ih, List.forall_mem_cons]
    cases f <;> simp only [Frame.plug, Frame.Full, RaNode.Full] <;> tauto

theorem exists_id?_of_full {t : RaNode} (h : t.Full) : ∃ i, t.id? = some i := by
  cases t with
  | hole => exact h.elim
  | leaf i op => exact ⟨i, rfl⟩
  | unary i op c => exact ⟨i, rfl⟩
  | join i j l r => exact ⟨i, rfl⟩

/-- The node with the given address. -/
def find? (i : Nat) : RaNode → Option RaNode
  | .hole => none
  | .leaf j op => if j = i then some (.leaf j op) else none
  | .unary j op c => if j = i then some (.unary j op c) else find? i c
  | .join j join l r => if j = i then some (.join j join l r) else (find? i l).or (find? i r)

/-- The tree after the object with the given address has been changed. -/
def update (i : Nat) (f : RaNode → RaNode) : RaNode → RaNode
  | .hole => .hole
  | .leaf j op => if j = i then f (.leaf j op) else .leaf j op
  | .unary j op c => if j = i then f (.unary j op c) else .unary j op (update i f c)
  | .join j join l r =>
      if j = i then f (.join j join l r) else .join j join (update i f l) (update i f r)

theorem find?_eq_none {t : RaNode} {i : Nat} (h : i ∉ t.ids) : find? i t = none := by
  induction t with
  | hole => rfl
  | leaf j op =>
    rw [find?, if_neg (Ne.symm (List.ne_of_not_mem_cons h))]
  | unary j op c ih =>
    rw [find?, if_neg (Ne.symm (List.ne_of_not_mem_cons h)), ih (List.not_mem_of_not_mem_cons h)]
  | join j join l r ihl ihr =>
    have hlr := List.not_mem_of_not_mem_cons h
    rw [List.mem_append, not_or] at hlr
    rw [find?, if_neg (Ne.symm (List.ne_of_not_mem_cons h)), ihl hlr.1, ihr hlr.2]
    rfl

theorem update_eq_self {t : RaNode} {i : Nat} (f : RaNode → RaNode) (h : i ∉ t.ids) :
    update i f t = t := by
  induction t with
  | hole => rfl
  | leaf j op => rw [update, if_neg (Ne.symm (List.ne_of_not_mem_cons h))]
  | unary j op c ih =>
    rw [update, if_neg (Ne.symm (List.ne_of_not_mem_cons h)), ih (List.not_mem_of_not_mem_cons h)]
  | join j join l r ihl ihr =>
    have hlr := List.not_mem_of_not_mem_cons h
    rw [List.mem_append, not_or] at hlr
    rw [update, if_neg (Ne.symm (List.ne_of_not_mem_cons h)), ihl hlr.1, ihr hlr.2]

theorem find?_of_id? {t : RaNode} {i : Nat} (h : t.id? = some i) : find? i t = some t := by
  cases t <;> simp_all [RaNode.id?, find?]

theorem update_of_id? {t : RaNode} {i : Nat} (f : RaNode → RaNode) (h : t.id? = some i) :
    update i f t = f t := by
  cases t <;> simp_all [RaNode.id?, update]

/-- The object after a change that keeps its address. -/
theorem find?_update {i : Nat} {f : RaNode → RaNode}
    (hf : ∀ t, t.id? = some i → (f t).id? = some i) (t : RaNode) :
    find? i (update i f t) = (find? i t).map f := by
  induction t with
  | hole => rfl
  | leaf j op =>
    rw [update, find?]
    split
    · next hj => exact find?_of_id? (hf _ (congrArg some hj))
    · next hj => rw [find?, if_neg hj]; rfl
  | unary j op c ih =>
    rw [update, find?]
    split
    · next hj => exact find?_of_id? (hf _ (congrArg some hj))
    · next hj => rw [find?, if_neg hj, ih]
  | join j join l r ihl ihr =>
    rw [update, find?]
    split
    · next hj => exact find?_of_id? (hf _ (congrArg some hj))
    · next hj => rw [find?, if_neg hj, ihl, ihr, Option.map_or]

private theorem Frame.find?_plug {f : Frame} {i : Nat} (h : i ∉ f.ids) (t : RaNode) :
    find? i (f.plug t) = find? i t := by
  cases f with
  | unary j op =>
    rw [Frame.plug, find?, if_neg (by simpa [Frame.ids, eq_comm] using h)]
  | left j join r =>
    simp only [Frame.ids, List.mem_cons, not_or] at h
    simp [Frame.plug, find?, find?_eq_none h.2, Ne.symm h.1]
  | right j join l =>
    simp only [Frame.ids, List.mem_cons, not_or] at h
    simp [Frame.plug, find?, find?_eq_none h.2, Ne.symm h.1]

private theorem Frame.update_plug {f : Frame} {i : Nat} (h : i ∉ f.ids) (g : RaNode → RaNode)
    (t : RaNode) : update i g (f.plug t) = f.plug (update i g t) := by
  cases f with
  | unary j op =>
    rw [Frame.plug, update, if_neg (by simpa [Frame.ids, eq_comm] using h)]
    rfl
  | left j join r =>
    simp only [Frame.ids, List.mem_cons, not_or] at h
    simp [Frame.plug, update, update_eq_self g h.2, Ne.symm h.1]
  | right j join l =>
    simp only [Frame.ids, List.mem_cons, not_or] at h
    simp [Frame.plug, update, update_eq_self g h.2, Ne.symm h.1]

theorem find?_plug {K : List Frame} {i : Nat} (h : i ∉ contextIds K) (t : RaNode) :
    find? i (plug K t) = find? i t := by
  induction K generalizing t with
  | nil => rfl
  | cons f K ih =>
    simp only [contextIds_cons, List.mem_append, not_or] at h
    rw [plug_cons, ih h.2, Frame.find?_plug h.1]

theorem update_plug {K : List Frame} {i : Nat} (h : i ∉ contextIds K) (g : RaNode → RaNode)
    (t : RaNode) : update i g (plug K t) = plug K (update i g t) := by
  induction K generalizing t with
  | nil => rfl
  | cons f K ih =>
    simp only [contextIds_cons, List.mem_append, not_or] at h
    rw [plug_cons, ih h.2, Frame.update_plug h.1, plug_cons]

/-- The change of one object, seen from its position. -/
theorem update_plug_of_notMem {K : List Frame} {t : RaNode} {i : Nat} (h : i ∉ contextIds K)
    (ht : t.id? = some i) (g : RaNode → RaNode) : update i g (plug K t) = plug K (g t) := by
  rw [update_plug h, update_of_id? g ht]

theorem find?_plug_of_notMem {K : List Frame} {t : RaNode} {i : Nat} (h : i ∉ contextIds K)
    (ht : t.id? = some i) : find? i (plug K t) = some t := by
  rw [find?_plug h, find?_of_id? ht]

theorem update_plug_of_id? {K : List Frame} {t : RaNode} {i : Nat} (h : Distinct (plug K t))
    (ht : t.id? = some i) (g : RaNode → RaNode) : update i g (plug K t) = plug K (g t) :=
  update_plug_of_notMem (h.not_mem_context (id?_mem_ids ht)) ht g

theorem find?_plug_of_id? {K : List Frame} {t : RaNode} {i : Nat} (h : Distinct (plug K t))
    (ht : t.id? = some i) : find? i (plug K t) = some t :=
  find?_plug_of_notMem (h.not_mem_context (id?_mem_ids ht)) ht

/-- A node that is found has a position. -/
theorem exists_plug_of_find? {t s : RaNode} {i : Nat} (h : find? i t = some s) :
    s.id? = some i ∧ ∃ K, t = plug K s := by
  induction t with
  | hole => cases h
  | leaf j op =>
    simp only [find?, Option.ite_none_right_eq_some, Option.some.injEq] at h
    obtain ⟨rfl, rfl⟩ := h
    exact ⟨rfl, [], rfl⟩
  | unary j op c ih =>
    rw [find?] at h
    split at h
    · next hj =>
      cases h
      exact ⟨congrArg some hj, [], rfl⟩
    · obtain ⟨hs, K, rfl⟩ := ih h
      exact ⟨hs, K ++ [.unary j op], by simp [Frame.plug]⟩
  | join j join l r ihl ihr =>
    rw [find?] at h
    split at h
    · next hj =>
      cases h
      exact ⟨congrArg some hj, [], rfl⟩
    · rw [Option.or_eq_some_iff] at h
      rcases h with h | ⟨-, h⟩
      · obtain ⟨hs, K, rfl⟩ := ihl h
        exact ⟨hs, K ++ [.left j join r], by simp [Frame.plug]⟩
      · obtain ⟨hs, K, rfl⟩ := ihr h
        exact ⟨hs, K ++ [.right j join l], by simp [Frame.plug]⟩

theorem find?_isSome_of_mem {t : RaNode} {i : Nat} (h : i ∈ t.ids) : (find? i t).isSome := by
  induction t with
  | hole => cases h
  | leaf j op => simp_all [RaNode.ids, find?]
  | unary j op c ih =>
    rw [find?]
    split
    · rfl
    · next hj => exact ih ((List.mem_cons.mp h).resolve_left (Ne.symm hj))
  | join j join l r ihl ihr =>
    rw [find?]
    split
    · rfl
    · next hj =>
      have hlr := (List.mem_cons.mp h).resolve_left (Ne.symm hj)
      rw [Option.isSome_or, Bool.or_eq_true]
      exact (List.mem_append.mp hlr).imp ihl ihr

end SqlOptimizer.Tree.Frames
