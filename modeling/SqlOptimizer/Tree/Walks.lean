import SqlOptimizer.Tree.Frames

/-!
The class `RaTree` and its tree walks in `ra_tree.cc`.
-/

set_option autoImplicit false
set_option relaxedAutoImplicit false

namespace SqlOptimizer.Tree.Walks

open Algebra.RelationalAlgebra
open Frames

/-- The fields of `RaTree`; `nextId` is the address of the next object. -/
structure RaTree where
  root : RaNode
  ctes : List RaNode := []
  counter : Nat := 1
  nextId : Nat

/-- `RaTree::get_node_parent` on the tree below `it`: the parent of the target and the
position of the target in its `childNodes`. -/
def getNodeParent (target : Nat) : RaNode → Option (RaNode × Nat)
  | .hole => none
  | .leaf _ _ => none
  | .unary i op c => if c.id? = some target then some (.unary i op c, 0) else getNodeParent target c
  | .join i join .hole r =>
      if r.id? = some target then some (.join i join .hole r, 0) else getNodeParent target r
  | .join i join l r =>
      if l.id? = some target then some (.join i join l r, 0)
      else if r.id? = some target then some (.join i join l r, 1)
      else (getNodeParent target l).or (getNodeParent target r)

/-- `childNodes[index] = child`. -/
def setChild (index : Nat) (child : RaNode) : RaNode → RaNode
  | .hole => .hole
  | .leaf i op => .leaf i op
  | .unary i op _ => .unary i op child
  | .join i join .hole _ => .join i join .hole child
  | .join i join l r => if index = 0 then .join i join child r else .join i join l child

/-- `RaTree::get_relations_aliases`. -/
def getRelationsAliases : RaNode → List (String × String)
  | .hole => []
  | .leaf _ (.relation name aliasName) => [(name, aliasName)]
  | .leaf _ _ => []
  | .unary _ (.projection pr) c =>
      if pr.subqueryAlias ≠ "" then [("", pr.subqueryAlias)] else getRelationsAliases c
  | .unary _ _ c => getRelationsAliases c
  | .join _ join l r =>
      if join.aliasName ≠ "" then [("", join.aliasName)]
      else if join.marker ≠ 0 then
        ("", "marker_" ++ toString join.marker) :: getRelationsAliases l
      else getRelationsAliases l ++ getRelationsAliases r

/-- `RaTree::get_all_selections`: the Selections with their children, in the order of a
depth-first walk. -/
def getAllSelections : RaNode → List (Nat × Expr × RaNode)
  | .hole => []
  | .leaf _ _ => []
  | .unary i (.selection p) c => (i, p, c) :: getAllSelections c
  | .unary _ _ c => getAllSelections c
  | .join _ _ l r => getAllSelections l ++ getAllSelections r

theorem getNodeParent_eq_none {t : RaNode} {i : Nat} (h : i ∉ t.ids) :
    getNodeParent i t = none := by
  have hid {s : RaNode} (hs : i ∉ s.ids) : s.id? ≠ some i := fun h => hs (id?_mem_ids h)
  induction t with
  | hole => rfl
  | leaf j op => rfl
  | unary j op c ih =>
    have hc := List.not_mem_of_not_mem_cons h
    rw [getNodeParent, if_neg (hid hc), ih hc]
  | join j join l r ihl ihr =>
    have hlr := List.not_mem_of_not_mem_cons h
    rw [List.mem_append, not_or] at hlr
    cases l with
    | hole => rw [getNodeParent, if_neg (hid hlr.2), ihr hlr.2]
    | _ =>
      rw [getNodeParent, if_neg (hid hlr.1), if_neg (hid hlr.2), ihl hlr.1, ihr hlr.2]
      · rfl
      · exact fun h => RaNode.noConfusion h

/-- The parent of a node is the frame around it. -/
private theorem getNodeParent_frame {f : Frame} {t : RaNode} {i : Nat} (ht : t.id? = some i)
    (hf : i ∉ f.ids) : getNodeParent i (f.plug t) = some (f.plug t, f.index) := by
  cases f with
  | unary j op => simp [Frame.plug, getNodeParent, ht, Frame.index]
  | left j join r =>
    cases t with
    | hole => cases ht
    | _ => simp [Frame.plug, getNodeParent, ht, Frame.index]
  | right j join l =>
    have hl : l.id? ≠ some i := fun h => hf (List.mem_cons_of_mem _ (id?_mem_ids h))
    cases l with
    | hole => simp [Frame.plug, getNodeParent, ht, Frame.index]
    | _ => simp [Frame.plug, getNodeParent, ht, Frame.index, hl]

private theorem getNodeParent_outer {f : Frame} {t : RaNode} {i : Nat} (hf : i ∉ f.ids)
    (ht : t.id? ≠ some i) : getNodeParent i (f.plug t) = getNodeParent i t := by
  have hid {s : RaNode} (hs : i ∉ s.ids) : s.id? ≠ some i := fun h => hs (id?_mem_ids h)
  cases f with
  | unary j op => simp [Frame.plug, getNodeParent, ht]
  | left j join r =>
    have hr := List.not_mem_of_not_mem_cons hf
    cases t with
    | hole => simp [Frame.plug, getNodeParent, hid hr, getNodeParent_eq_none hr]
    | _ => simp [Frame.plug, getNodeParent, ht, hid hr, getNodeParent_eq_none hr]
  | right j join l =>
    have hl := List.not_mem_of_not_mem_cons hf
    cases l with
    | hole => simp [Frame.plug, getNodeParent, ht]
    | _ =>
      rw [Frame.plug, getNodeParent, if_neg (hid hl), if_neg ht, getNodeParent_eq_none hl]
      · rfl
      · exact fun h => RaNode.noConfusion h

private theorem id?_plug_ne {f : Frame} {t : RaNode} {i : Nat}
    (hf : i ∉ f.ids) : (f.plug t).id? ≠ some i := by
  rw [Frame.id?_plug, ne_eq, Option.some.injEq]
  rintro rfl
  cases f <;> simp [Frame.ids, Frame.id] at hf

/-- The parent of a node that occurs nowhere around it is the frame around it. -/
theorem getNodeParent_plug_of_notMem {f : Frame} {K : List Frame} {t : RaNode} {i : Nat}
    (hids : i ∉ contextIds (f :: K)) (ht : t.id? = some i) :
    getNodeParent i (plug (f :: K) t) = some (f.plug t, f.index) := by
  rw [contextIds_cons, List.mem_append, not_or] at hids
  rw [plug_cons]
  have key (K : List Frame) (s : RaNode) (hK : i ∉ contextIds K) (hs : s.id? ≠ some i) :
      getNodeParent i (plug K s) = getNodeParent i s := by
    induction K generalizing s with
    | nil => rfl
    | cons g K ih =>
      rw [contextIds_cons, List.mem_append, not_or] at hK
      rw [plug_cons, ih _ hK.2 (id?_plug_ne hK.1), getNodeParent_outer hK.1 hs]
  rw [key K _ hids.2 (id?_plug_ne hids.1), getNodeParent_frame ht hids.1]

/-- In a tree without repeated addresses the parent of a node is the frame around it. -/
theorem getNodeParent_plug {f : Frame} {K : List Frame} {t : RaNode} {i : Nat}
    (h : Distinct (plug (f :: K) t)) (ht : t.id? = some i) :
    getNodeParent i (plug (f :: K) t) = some (f.plug t, f.index) :=
  getNodeParent_plug_of_notMem (h.not_mem_context (id?_mem_ids ht)) ht

theorem setChild_plug (f : Frame) {t : RaNode} (ht : t ≠ .hole) (s : RaNode) :
    setChild f.index s (f.plug t) = f.plug s := by
  cases f with
  | unary j op => rfl
  | left j join r => cases t <;> simp_all [Frame.plug, Frame.index, setChild]
  | right j join l => cases l <;> simp [Frame.plug, Frame.index, setChild]

end SqlOptimizer.Tree.Walks
