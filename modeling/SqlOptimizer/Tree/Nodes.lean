import SqlOptimizer.Tree.Frames

/-!
The nodes of a tree, each as the subtree that it is the root of.
-/

set_option autoImplicit false
set_option relaxedAutoImplicit false

namespace SqlOptimizer.Tree.Nodes

open Algebra.RelationalAlgebra
open Frames

/-- The nodes in the order of a depth-first walk. -/
def nodes : RaNode → List RaNode
  | .hole => []
  | .leaf i op => [.leaf i op]
  | .unary i op c => .unary i op c :: nodes c
  | .join i join l r => .join i join l r :: (nodes l ++ nodes r)

/-- A node has a position. -/
theorem exists_plug_of_mem_nodes {t n : RaNode} (h : n ∈ nodes t) : ∃ K, t = plug K n := by
  induction t with
  | hole => cases h
  | leaf i op => exact ⟨[], (List.mem_singleton.mp h).symm⟩
  | unary i op c ih =>
    rcases List.mem_cons.mp h with rfl | h
    · exact ⟨[], rfl⟩
    · obtain ⟨K, rfl⟩ := ih h
      exact ⟨K ++ [.unary i op], by simp [Frame.plug]⟩
  | join i join l r ihl ihr =>
    rcases List.mem_cons.mp h with rfl | h
    · exact ⟨[], rfl⟩
    · rcases List.mem_append.mp h with h | h
      · obtain ⟨K, rfl⟩ := ihl h
        exact ⟨K ++ [.left i join r], by simp [Frame.plug]⟩
      · obtain ⟨K, rfl⟩ := ihr h
        exact ⟨K ++ [.right i join l], by simp [Frame.plug]⟩

theorem mem_nodes_plug (K : List Frame) {t n : RaNode} (h : n ∈ nodes t) : n ∈ nodes (plug K t) := by
  induction K generalizing t with
  | nil => exact h
  | cons f K ih =>
    refine ih ?_
    cases f with
    | unary i op => exact List.mem_cons_of_mem _ h
    | left i join r => exact List.mem_cons_of_mem _ (List.mem_append_left _ h)
    | right i join l => exact List.mem_cons_of_mem _ (List.mem_append_right _ h)

/-- The nodes below a node are nodes of the tree. -/
theorem mem_nodes_trans {t n m : RaNode} (hn : n ∈ nodes t) (hm : m ∈ nodes n) : m ∈ nodes t := by
  obtain ⟨K, rfl⟩ := exists_plug_of_mem_nodes hn
  exact mem_nodes_plug K hm

theorem length_ids_le_of_mem_nodes {t n : RaNode} (h : n ∈ nodes t) :
    n.ids.length ≤ t.ids.length := by
  obtain ⟨K, rfl⟩ := exists_plug_of_mem_nodes h
  have hlen := (ids_plug K n).length_eq
  rw [List.length_append] at hlen
  omega

theorem mem_nodes_self {t : RaNode} (h : t ≠ .hole) : t ∈ nodes t := by
  cases t with
  | hole => exact absurd rfl h
  | _ => exact List.mem_cons_self

/-- The addresses of a tree are those of its nodes. -/
theorem map_id?_nodes (t : RaNode) : (nodes t).map RaNode.id? = t.ids.map some := by
  induction t with
  | hole => rfl
  | leaf i op => rfl
  | unary i op c ih => simp [nodes, RaNode.ids, RaNode.id?, ih]
  | join i join l r ihl ihr => simp [nodes, RaNode.ids, RaNode.id?, ihl, ihr]

theorem nodup_nodes {t : RaNode} (h : Distinct t) : (nodes t).Nodup := by
  refine List.Nodup.of_map RaNode.id? ?_
  rw [map_id?_nodes]
  exact List.Nodup.map (fun _ _ => Option.some.inj) h

/-- Nodes with one address are one node. -/
theorem eq_of_mem_nodes {t n m : RaNode} (ht : Distinct t) (hn : n ∈ nodes t) (hm : m ∈ nodes t)
    {i : Nat} (hni : n.id? = some i) (hmi : m.id? = some i) : n = m := by
  obtain ⟨K, rfl⟩ := exists_plug_of_mem_nodes hn
  obtain ⟨L, hL⟩ := exists_plug_of_mem_nodes hm
  have hfind := find?_plug_of_id? ht hni
  rw [hL] at ht hfind
  exact Option.some.inj (hfind.symm.trans (find?_plug_of_id? ht hmi))

theorem exists_id?_of_mem_nodes {t n : RaNode} (h : n ∈ nodes t) : ∃ i, n.id? = some i := by
  induction t with
  | hole => cases h
  | leaf i op => exact ⟨i, by rw [List.mem_singleton.mp h]; rfl⟩
  | unary i op c ih =>
    rcases List.mem_cons.mp h with rfl | h
    · exact ⟨i, rfl⟩
    · exact ih h
  | join i join l r ihl ihr =>
    rcases List.mem_cons.mp h with rfl | h
    · exact ⟨i, rfl⟩
    · exact (List.mem_append.mp h).elim ihl ihr

end SqlOptimizer.Tree.Nodes
