import SqlOptimizer.Tree.AcyclicTrees
import SqlOptimizer.Unnesting.DecorrelateSubquery
import SqlOptimizer.Unnesting.RenamedAttributes

/-!
The tree from which the outer side of a subquery is moved away. The side stands in two places:
below the join of the subquery and below D.
-/

set_option autoImplicit false
set_option relaxedAutoImplicit false

namespace SqlOptimizer.Unnesting.MovedSide

open Algebra.RelationalAlgebra
open Parse.Inventory (unaryExprs)
open Tree.AcyclicTrees Tree.Frames
open Objects (setOnlyChild)
open DecorrelateSubquery (setLeft)
open Attributes RenamedAttributes

section

variable (join d : Nat)

/-- What stands in the two places. -/
def sides : RaNode → List RaNode
  | .unary i _ c => if i = d then [c] else sides c
  | .join i _ l r => (if i = join then [l] else sides l) ++ sides r
  | _ => []

/-- Another tree in the two places. -/
def replaceSide (u : RaNode) : RaNode → RaNode
  | .unary i op c => .unary i op (if i = d then u else replaceSide u c)
  | .join i op l r => .join i op (if i = join then u else replaceSide u l) (replaceSide u r)
  | t => t

/-- The nodes that `rename_attributes` visits outside the side. -/
def visited : RaNode → List Nat
  | .unary i (.projection _) c => i :: if i = d then [] else visited c
  | .unary i (.selection _) c => i :: if i = d then [] else visited c
  | .unary i (.groupBy _ _) c => i :: if i = d then [] else visited c
  | .join i _ l r => i :: ((if i = join then [] else visited l) ++ visited r)
  | _ => []

/-- The attributes outside the side that `find_attributes_using_alias` looks at. -/
def searched : RaNode → List AttributeRef
  | .unary _ .root _ => []
  | .unary _ (.having _) _ => []
  | .unary i op c => allLookedAt (unaryExprs op) ++ if i = d then [] else searched c
  | .join i op l r =>
      lookedAt op.predicate ++ ((if i = join then [] else searched l) ++ searched r)
  | _ => []

end

section

variable (k : Nat) (rel : LeafOp)

private theorem setLeft_onOperators : OnOperators (setLeft (.leaf k rel)) :=
  ⟨rfl, fun _ _ => rfl⟩

private theorem setOnlyChild_onOperators : OnOperators (setOnlyChild (.leaf k rel)) :=
  ⟨rfl, fun _ _ => rfl⟩

private theorem setLeft_keepsBelow : KeepsBelow (setLeft (.leaf k rel)) := by
  constructor
  · intro t i hi
    cases t with
    | join j join l r =>
      rcases List.mem_cons.mp hi with rfl | hi
      · exact List.mem_cons_self
      · exact List.mem_cons_of_mem _ (List.mem_append_right _ hi)
    | _ => exact hi
  · intro t ht
    cases t with
    | join j join l r => exact ⟨⟨List.not_mem_nil, ht.1.2⟩, trivial, ht.2.2⟩
    | _ => exact ht

private theorem setOnlyChild_keepsBelow : KeepsBelow (setOnlyChild (.leaf k rel)) := by
  constructor
  · intro t i hi
    cases t with
    | unary j op c =>
      obtain rfl := List.mem_singleton.mp hi
      exact List.mem_cons_self
    | _ => exact hi
  · intro t ht
    cases t with
    | unary j op c => exact ⟨List.not_mem_nil, trivial⟩
    | _ => exact ht

private theorem everywhere_places (join d : Nat) (t : RaNode) :
    everywhere d (setOnlyChild (.leaf k rel)) (everywhere join (setLeft (.leaf k rel)) t) =
      replaceSide join d (.leaf k rel) t := by
  induction t with
  | hole => rfl
  | leaf i op => rfl
  | unary i op c ih =>
    have hfirst : everywhere join (setLeft (.leaf k rel)) (.unary i op c) =
        .unary i op (everywhere join (setLeft (.leaf k rel)) c) := by
      rw [everywhere]
      exact ite_self _
    rw [hfirst, everywhere, ih, replaceSide]
    split <;> rfl
  | join i op l r ihl ihr =>
    rw [everywhere, replaceSide]
    split
    · simp only [setLeft, everywhere, setOnlyChild, ihr, ite_self]
    · simp only [everywhere, setOnlyChild, ihl, ihr, ite_self]

/-- The side is replaced by a relation. -/
theorem update_places (join d : Nat) {t : RaNode} (ht : Acyclic t) :
    update d (setOnlyChild (.leaf k rel)) (update join (setLeft (.leaf k rel)) t) =
      replaceSide join d (.leaf k rel) t := by
  have hfirst := acyclic_everywhere (i := join) (setLeft_keepsBelow k rel) ht
  rw [update_eq_everywhere (setLeft_onOperators k rel) ht,
    update_eq_everywhere (setOnlyChild_onOperators k rel) hfirst, everywhere_places]

theorem acyclic_replaceSide (join d : Nat) {t : RaNode} (ht : Acyclic t) :
    Acyclic (replaceSide join d (.leaf k rel) t) := by
  rw [← everywhere_places]
  exact acyclic_everywhere (setOnlyChild_keepsBelow k rel)
    (acyclic_everywhere (setLeft_keepsBelow k rel) ht)

end

/-- The operator with renamed attributes. -/
def renamedOp (m : RenameMap) : UnaryOp → UnaryOp
  | .projection pr => .projection { pr with args := renameExpressions m pr.args }
  | .selection p => .selection (renameExpression m p)
  | .groupBy args implicit => .groupBy (renameExpressions m args) implicit
  | op => op

def renamedJoin (m : RenameMap) (join : Join) : Join :=
  { join with predicate := renameExpression m join.predicate }

/-- The tree after the renaming at the given nodes. -/
def renameAt (m : RenameMap) (is : List Nat) : RaNode → RaNode
  | .unary i op c => .unary i (if i ∈ is then renamedOp m op else op) (renameAt m is c)
  | .join i op l r =>
      .join i (if i ∈ is then renamedJoin m op else op) (renameAt m is l) (renameAt m is r)
  | t => t

section

variable {m : RenameMap}

theorem renameNode_unary (i : Nat) (op : UnaryOp) (c : RaNode) :
    renameNode m (.unary i op c) = .unary i (renamedOp m op) c := by
  cases op <;> rfl

private theorem renameNode_onOperators : OnOperators (renameNode m) := ⟨rfl, fun _ _ => rfl⟩

private theorem operatorIds_renameNode (t : RaNode) :
    operatorIds (renameNode m t) = operatorIds t := by
  cases t with
  | unary i op c => rw [renameNode_unary]; rfl
  | _ => rfl

private theorem renameNode_keepsBelow : KeepsBelow (renameNode m) := by
  constructor
  · intro t i hi
    rwa [operatorIds_renameNode] at hi
  · intro t ht
    cases t with
    | unary i op c => rwa [renameNode_unary]
    | _ => exact ht

/-- Renaming twice is renaming once. -/
def Settles (m : RenameMap) : Prop := ∀ a : AttributeRef, renamedRef m (renamedRef m a) = renamedRef m a

private theorem renameExpressions_settles {es : List Expr}
    (ih : ∀ e ∈ es, renameExpression m (renameExpression m e) = renameExpression m e) :
    renameExpressions m (renameExpressions m es) = renameExpressions m es := by
  induction es with
  | nil => rfl
  | cons e es ihes =>
    rw [List.forall_mem_cons] at ih
    simp only [renameExpressions, ih.1, ihes ih.2]

variable (hm : Settles m)

include hm

private theorem renameExpression_settles (e : Expr) :
    renameExpression m (renameExpression m e) = renameExpression m e := by
  induction e using Expr.ind with
  | attr name aliasName =>
    have h := hm (name, aliasName)
    simp only [renamedRef] at h
    simp only [renameExpression, h]
  | funcCall f args g d ih => simp only [renameExpression, renameExpressions_settles ih]
  | boolPredicate op args ih => simp only [renameExpression, renameExpressions_settles ih]
  | predicate l r op ihl ihr => simp only [renameExpression, ihl, ihr]
  | selectExpression e rename ih => simp only [renameExpression, ih]
  | _ => simp only [renameExpression]

private theorem renamedOp_settles (op : UnaryOp) :
    renamedOp m (renamedOp m op) = renamedOp m op := by
  have hall (es : List Expr) := renameExpressions_settles (m := m) fun e (_ : e ∈ es) =>
    renameExpression_settles hm e
  cases op <;> simp only [renamedOp, hall, renameExpression_settles hm]

private theorem renamedJoin_settles (join : Join) :
    renamedJoin m (renamedJoin m join) = renamedJoin m join := by
  simp only [renamedJoin, renameExpression_settles hm]

private theorem renameAt_everywhere (i : Nat) (is : List Nat) (t : RaNode) :
    renameAt m is (everywhere i (renameNode m) t) = renameAt m (i :: is) t := by
  induction t with
  | hole => rfl
  | leaf j op => rfl
  | unary j op c ih =>
    by_cases hj : j = i
    · have hmem : j ∈ i :: is := List.mem_cons.mpr (.inl hj)
      simp only [everywhere, if_pos hj, renameNode_unary, renameAt, ih, if_pos hmem,
        renamedOp_settles hm, ite_self]
    · have hmem : j ∈ i :: is ↔ j ∈ is := by simp [hj]
      simp only [everywhere, if_neg hj, renameAt, ih, hmem]
  | join j op l r ihl ihr =>
    by_cases hj : j = i
    · have hmem : j ∈ i :: is := List.mem_cons.mpr (.inl hj)
      have hfirst : renameNode m (.join j op (everywhere i (renameNode m) l)
          (everywhere i (renameNode m) r)) = .join j (renamedJoin m op)
            (everywhere i (renameNode m) l) (everywhere i (renameNode m) r) := rfl
      simp only [everywhere, if_pos hj, hfirst, renameAt, ihl, ihr, if_pos hmem,
        renamedJoin_settles hm, ite_self]
    · have hmem : j ∈ i :: is ↔ j ∈ is := by simp [hj]
      simp only [everywhere, if_neg hj, renameAt, ihl, ihr, hmem]

/-- The changes one after the other are a change at all the nodes. -/
theorem updateAll_renameNode (is : List Nat) {t : RaNode} (ht : Acyclic t) :
    updateAll (renameNode m) is t = renameAt m is t := by
  induction is generalizing t with
  | nil =>
    clear ht
    induction t with
    | hole => rfl
    | leaf j op => rfl
    | unary j op c ih => simp [renameAt, updateAll] at ih ⊢; exact ih
    | join j op l r ihl ihr => simp [renameAt, updateAll] at ihl ihr ⊢; exact ⟨ihl, ihr⟩
  | cons i is ih =>
    have hfirst := acyclic_everywhere (i := i) (renameNode_keepsBelow (m := m)) ht
    rw [← renameAt_everywhere hm, ← ih hfirst, updateAll, List.foldl_cons,
      update_eq_everywhere renameNode_onOperators ht]
    rfl

end

section

variable (join d k : Nat) (rel : LeafOp)

/-- The walk of `rename_attributes` over the tree without the side. -/
theorem renameVisits_replaceSide {t : RaNode} {is : List Nat}
    (h : renameVisits none (replaceSide join d (.leaf k rel) t) = some is) :
    is = visited join d t := by
  induction t generalizing is with
  | hole => cases h
  | leaf i op => exact (Option.some.inj h).symm
  | unary i op c ih =>
    have hbelow (js : List Nat)
        (hjs : renameVisits none (if i = d then .leaf k rel else replaceSide join d (.leaf k rel) c) =
          some js) : js = if i = d then [] else visited join d c := by
      split at hjs
      · next hi => rw [if_pos hi, ← Option.some.inj hjs]
      · next hi => rw [if_neg hi, ih hjs]
    have hvisit (hvisits : (renameVisits none
        (if i = d then .leaf k rel else replaceSide join d (.leaf k rel) c)).map (i :: ·) = some is) :
        is = i :: if i = d then [] else visited join d c := by
      obtain ⟨js, hjs, rfl⟩ := Option.map_eq_some_iff.mp hvisits
      rw [hbelow js hjs]
    cases op with
    | projection pr => exact hvisit (by simpa [replaceSide, renameVisits] using h)
    | selection p => exact hvisit (by simpa [replaceSide, renameVisits] using h)
    | groupBy args implicit => exact hvisit (by simpa [replaceSide, renameVisits] using h)
    | _ => simpa [replaceSide, renameVisits, visited, eq_comm] using h
  | join i op l r ihl ihr =>
    have hleft (js : List Nat)
        (hjs : renameVisits none (if i = join then .leaf k rel else replaceSide join d (.leaf k rel) l) =
          some js) : js = if i = join then [] else visited join d l := by
      split at hjs
      · next hi => rw [if_pos hi, ← Option.some.inj hjs]
      · next hi => rw [if_neg hi, ihl hjs]
    have hvisits : ((renameVisits none
        (if i = join then .leaf k rel else replaceSide join d (.leaf k rel) l)).bind fun ls =>
          (renameVisits none (replaceSide join d (.leaf k rel) r)).map fun rs => i :: (ls ++ rs)) =
        some is := by
      simpa [replaceSide, renameVisits] using h
    obtain ⟨ls, hls, hmap⟩ := Option.bind_eq_some_iff.mp hvisits
    obtain ⟨rs, hrs, rfl⟩ := Option.map_eq_some_iff.mp hmap
    rw [hleft ls hls, ihr hrs, visited]

/-- What `find_attributes_using_alias` looks at in the tree without the side. -/
theorem lookedAtIn_replaceSide (t : RaNode) :
    lookedAtIn (replaceSide join d (.leaf k rel) t) = searched join d t := by
  induction t with
  | hole => rfl
  | leaf i op => rfl
  | unary i op c ih =>
    have hbelow : lookedAtIn (if i = d then .leaf k rel else replaceSide join d (.leaf k rel) c) =
        if i = d then [] else searched join d c := by
      split
      · rfl
      · exact ih
    cases op with
    | root => rfl
    | having p => rfl
    | _ => simp only [replaceSide, lookedAtIn, hbelow, searched]
  | join i op l r ihl ihr =>
    have hleft : lookedAtIn (if i = join then .leaf k rel else replaceSide join d (.leaf k rel) l) =
        if i = join then [] else searched join d l := by
      split
      · rfl
      · exact ihl
    simp only [replaceSide, lookedAtIn, hleft, ihr, searched]

end

/-- The tree in which the CTE has taken the places of the side and the attributes are renamed. -/
def movedTree (join d : Nat) (u : RaNode) (m : RenameMap) (is : List Nat) (t : RaNode) : RaNode :=
  renameAt m is (replaceSide join d u t)

section

variable {join d : Nat} {u : RaNode} {m : RenameMap} {is : List Nat}

theorem movedTree_unary (i : Nat) (op : UnaryOp) (c : RaNode) :
    movedTree join d u m is (.unary i op c) =
      .unary i (if i ∈ is then renamedOp m op else op)
        (if i = d then renameAt m is u else movedTree join d u m is c) := by
  simp only [movedTree, replaceSide, renameAt, apply_ite (renameAt m is)]

theorem movedTree_join (i : Nat) (op : Join) (l r : RaNode) :
    movedTree join d u m is (.join i op l r) =
      .join i (if i ∈ is then renamedJoin m op else op)
        (if i = join then renameAt m is u else movedTree join d u m is l)
        (movedTree join d u m is r) := by
  simp only [movedTree, replaceSide, renameAt, apply_ite (renameAt m is)]

theorem sides_movedTree (t : RaNode) :
    ∀ c ∈ sides join d (movedTree join d u m is t), c = renameAt m is u := by
  induction t with
  | hole => exact fun c hc => absurd hc List.not_mem_nil
  | leaf i op => exact fun c hc => absurd hc List.not_mem_nil
  | unary i op c ih =>
    intro c' hc
    rw [movedTree_unary, sides] at hc
    split at hc
    · exact List.mem_singleton.mp hc
    · exact ih c' hc
  | join i op l r ihl ihr =>
    intro c' hc
    rw [movedTree_join, sides] at hc
    rcases List.mem_append.mp hc with hc | hc
    · split at hc
      · exact List.mem_singleton.mp hc
      · exact ihl c' hc
    · exact ihr c' hc

end

end SqlOptimizer.Unnesting.MovedSide
