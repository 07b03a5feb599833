import SqlOptimizer.Tree.Frames

/-!
Trees in which no operator lies below itself. In such a tree the change of an object is a change
at all places where it stands.
-/

set_option autoImplicit false
set_option relaxedAutoImplicit false

namespace SqlOptimizer.Tree.AcyclicTrees

open Algebra.RelationalAlgebra
open Frames

/-- The addresses of the operators that have children. -/
def operatorIds : RaNode → List Nat
  | .unary i _ c => i :: operatorIds c
  | .join i _ l r => i :: (operatorIds l ++ operatorIds r)
  | _ => []

/-- No operator lies below itself. -/
def Acyclic : RaNode → Prop
  | .unary i _ c => i ∉ operatorIds c ∧ Acyclic c
  | .join i _ l r => (i ∉ operatorIds l ∧ i ∉ operatorIds r) ∧ Acyclic l ∧ Acyclic r
  | _ => True

/-- The change of all operators with an address. -/
def everywhere (i : Nat) (f : RaNode → RaNode) : RaNode → RaNode
  | .unary j op c =>
      if j = i then f (.unary j op (everywhere i f c)) else .unary j op (everywhere i f c)
  | .join j op l r =>
      if j = i then f (.join j op (everywhere i f l) (everywhere i f r))
      else .join j op (everywhere i f l) (everywhere i f r)
  | .hole => .hole
  | .leaf j op => .leaf j op

/-- Nothing is done at leaves and in places without a child. -/
structure OnOperators (f : RaNode → RaNode) : Prop where
  hole : f .hole = .hole
  leaf : ∀ i op, f (.leaf i op) = .leaf i op

section

variable {i : Nat} {f : RaNode → RaNode}

private theorem everywhere_eq_self {t : RaNode} (h : i ∉ operatorIds t) : everywhere i f t = t := by
  induction t with
  | hole => rfl
  | leaf j op => rfl
  | unary j op c ih =>
    rw [operatorIds, List.mem_cons, not_or] at h
    rw [everywhere, if_neg (Ne.symm h.1), ih h.2]
  | join j op l r ihl ihr =>
    rw [operatorIds, List.mem_cons, List.mem_append, not_or, not_or] at h
    rw [everywhere, if_neg (Ne.symm h.1), ihl h.2.1, ihr h.2.2]

/-- The first operator with the address on a path is the only one. -/
theorem update_eq_everywhere (hf : OnOperators f) {t : RaNode} (ht : Acyclic t) :
    update i f t = everywhere i f t := by
  induction t with
  | hole => rfl
  | leaf j op =>
    rw [update, everywhere, hf.leaf, ite_self]
  | unary j op c ih =>
    rw [update, everywhere]
    split
    · next hj => rw [everywhere_eq_self (hj ▸ ht.1)]
    · rw [ih ht.2]
  | join j op l r ihl ihr =>
    rw [update, everywhere]
    split
    · next hj => rw [everywhere_eq_self (hj ▸ ht.1.1), everywhere_eq_self (hj ▸ ht.1.2)]
    · rw [ihl ht.2.1, ihr ht.2.2]

end

/-- The changed operators have no operators below them that were not there. -/
structure KeepsBelow (f : RaNode → RaNode) : Prop where
  ids : ∀ t, ∀ i ∈ operatorIds (f t), i ∈ operatorIds t
  acyclic : ∀ t, Acyclic t → Acyclic (f t)

section

variable {i : Nat} {f : RaNode → RaNode} (hf : KeepsBelow f)

include hf

private theorem mem_operatorIds_everywhere {t : RaNode} :
    ∀ k ∈ operatorIds (everywhere i f t), k ∈ operatorIds t := by
  induction t with
  | hole => exact fun k hk => hk
  | leaf j op => exact fun k hk => hk
  | unary j op c ih =>
    have hbelow : ∀ k ∈ operatorIds (.unary j op (everywhere i f c)),
        k ∈ operatorIds (.unary j op c) := by
      intro k hk
      exact List.mem_cons.mpr ((List.mem_cons.mp hk).imp_right (ih k))
    intro k hk
    rw [everywhere] at hk
    split at hk
    · exact hbelow k (hf.ids _ k hk)
    · exact hbelow k hk
  | join j op l r ihl ihr =>
    have hbelow : ∀ k ∈ operatorIds (.join j op (everywhere i f l) (everywhere i f r)),
        k ∈ operatorIds (.join j op l r) := by
      intro k hk
      rcases List.mem_cons.mp hk with rfl | hk
      · exact List.mem_cons_self
      · exact List.mem_cons_of_mem _
          (List.mem_append.mpr ((List.mem_append.mp hk).imp (ihl k) (ihr k)))
    intro k hk
    rw [everywhere] at hk
    split at hk
    · exact hbelow k (hf.ids _ k hk)
    · exact hbelow k hk

theorem acyclic_everywhere {t : RaNode} (ht : Acyclic t) : Acyclic (everywhere i f t) := by
  induction t with
  | hole => trivial
  | leaf j op => trivial
  | unary j op c ih =>
    have hbelow : Acyclic (.unary j op (everywhere i f c)) :=
      ⟨fun hj => ht.1 (mem_operatorIds_everywhere hf j hj), ih ht.2⟩
    rw [everywhere]
    split
    · exact hf.acyclic _ hbelow
    · exact hbelow
  | join j op l r ihl ihr =>
    have hbelow : Acyclic (.join j op (everywhere i f l) (everywhere i f r)) :=
      ⟨⟨fun hj => ht.1.1 (mem_operatorIds_everywhere hf j hj),
        fun hj => ht.1.2 (mem_operatorIds_everywhere hf j hj)⟩, ihl ht.2.1, ihr ht.2.2⟩
    rw [everywhere]
    split
    · exact hf.acyclic _ hbelow
    · exact hbelow

end

end SqlOptimizer.Tree.AcyclicTrees
