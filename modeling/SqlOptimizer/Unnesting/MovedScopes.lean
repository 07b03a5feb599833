import SqlOptimizer.Unnesting.MovedSide

/-!
The scopes of a tree from which a side is moved away. What the scopes take from the places of the
side is a parameter, so that the tree can be read with the items of the side itself and with the
CTE in their place.
-/

set_option autoImplicit false
set_option relaxedAutoImplicit false

namespace SqlOptimizer.Unnesting.MovedScopes

open Algebra.RelationalAlgebra
open Semantics.Evaluation (qualifier)
open Attributes LexicalScopes RenamedAttributes MovedSide

/-- The items that attributes are bound to: those of the side in their order, the CTE, and all
others. -/
inductive Owner where
  | moved (k : Nat)
  | cte
  | other
  deriving DecidableEq, Repr

structure ScopeItem where
  owner : Owner
  source : Source

/-- An attribute is bound to the nearest item that it can belong to. -/
def boundTo (scope : List ScopeItem) (a : AttributeRef) : Owner :=
  ((scope.find? fun it => it.source.binds a).map ScopeItem.owner).getD .other

/-- How scopes are read: the columns of the relations, the select lists, and the items in the
places of the side, which are children of operators with one child or left children of joins. -/
structure Reading where
  columns : String → String → Bool
  select : Nat → List Expr → List Expr := fun _ es => es
  below : Nat → Option (List ScopeItem) := fun _ => none
  left : Nat → Option (List ScopeItem) := fun _ => none

section

variable (R : Reading)

/-- The items of a FROM clause. -/
def itemsIn : RaNode → List ScopeItem
  | .hole => []
  | .leaf _ (.relation name aliasName) =>
      [⟨.other, qualifier name aliasName, R.columns name⟩]
  | .leaf _ (.values _ aliasName column) => [⟨.other, aliasName, fun attr => attr = column⟩]
  | .leaf _ .dummy => []
  | .unary i (.projection pr) c =>
      let block := (R.below i).getD (itemsIn c)
      if pr.subqueryAlias ≠ "" then
        [⟨.other, pr.subqueryAlias,
          hasOutput (block.map ScopeItem.source) { pr with args := R.select i pr.args }⟩]
      else block
  | .unary i _ c => (R.below i).getD (itemsIn c)
  | .join i join l r =>
      let left := (R.left i).getD (itemsIn l)
      let items := if join.marker ≠ 0 then left else left ++ itemsIn r
      if join.aliasName ≠ "" then
        [⟨.other, join.aliasName, fun attr =>
          if join.columns.isEmpty then items.any (·.source.hasColumn attr)
          else attr ∈ join.columns⟩]
      else items

/-- The nodes outside the side with what the attributes at each of them may refer to. -/
def scopedNodesIn (outer block : List ScopeItem) : RaNode → List (RaNode × List ScopeItem)
  | .hole => []
  | .leaf i op => [(.leaf i op, outer)]
  | .unary i (.projection pr) c =>
      let own := (R.below i).getD (itemsIn R c)
      (.projection i pr c, own ++ outer) ::
        if (R.below i).isSome then [] else scopedNodesIn outer own c
  | .unary i op c =>
      (.unary i op c, block ++ outer) ::
        if (R.below i).isSome then [] else scopedNodesIn outer block c
  | .join i join l r =>
      if join.marker ≠ 0 then
        (.join i join l r, block ++ outer) ::
          ((if (R.left i).isSome then [] else scopedNodesIn outer block l) ++
            scopedNodesIn (block ++ outer) [] r)
      else
        (.join i join l r, (R.left i).getD (itemsIn R l) ++ itemsIn R r ++ outer) ::
          ((if (R.left i).isSome then [] else scopedNodesIn outer block l) ++
            scopedNodesIn outer block r)

end

/-- Only a derived table hides the items below it. -/
theorem itemsIn_unary (R : Reading) {i : Nat} {op : UnaryOp} {c : RaNode}
    (h : ∀ pr, op ≠ .projection pr) :
    itemsIn R (.unary i op c) = (R.below i).getD (itemsIn R c) := by
  cases op with
  | projection pr => exact absurd rfl (h pr)
  | _ => rfl

theorem scopedNodesIn_unary (R : Reading) {outer block : List ScopeItem} {i : Nat} {op : UnaryOp}
    {c : RaNode} (h : ∀ pr, op ≠ .projection pr) :
    scopedNodesIn R outer block (.unary i op c) = (.unary i op c, block ++ outer) ::
      if (R.below i).isSome then [] else scopedNodesIn R outer block c := by
  cases op with
  | projection pr => exact absurd rfl (h pr)
  | _ => rfl

mutual

/-- The attributes in an expression, each with whether `rename_attributes` comes to it. -/
def marked : Expr → List (AttributeRef × Bool)
  | .attribute name aliasName => [((name, aliasName), true)]
  | .funcCall _ args _ _ => allMarked args
  | .boolPredicate _ args => allMarked args
  | .predicate l r _ => marked l ++ marked r
  | .selectExpression e _ => marked e
  | e => (attributesIn e).map (·, false)

def allMarked : List Expr → List (AttributeRef × Bool)
  | [] => []
  | e :: es => marked e ++ allMarked es

end

/-- The same for the attributes at a node; those of other nodes are not come to. -/
def markedAt : RaNode → List (AttributeRef × Bool)
  | .unary _ (.projection pr) _ => allMarked pr.args
  | .unary _ (.selection p) _ => allMarked [p]
  | .unary _ (.groupBy args _) _ => allMarked args
  | .join _ join _ _ => allMarked [join.predicate]
  | t => (attributesInAll (nodeExprs t)).map (·, false)

/-- An attribute in its place: the node and the scope of the node. -/
structure Placed where
  node : Nat
  reached : Bool
  scope : List ScopeItem
  ref : AttributeRef

/-- The item that it is bound to. -/
def Placed.owner (x : Placed) : Owner := boundTo x.scope x.ref

def placedAt (x : RaNode × List ScopeItem) : List Placed :=
  (markedAt x.1).map fun a => ⟨x.1.id?.getD 0, a.2, x.2, a.1⟩

/-- The attributes of a tree outside the side. -/
def placedIn (R : Reading) (t : RaNode) : List Placed :=
  (scopedNodesIn R [] (itemsIn R t) t).flatMap placedAt

/-- The items in the two places of the side. -/
def atPlaces (join d : Nat) (columns : String → String → Bool) (items : List ScopeItem) : Reading where
  columns := columns
  below i := if i = d then some items else none
  left i := if i = join then some items else none

/-- The select lists after the renaming at the given nodes. -/
def renamedLists (m : RenameMap) (is : List Nat) (i : Nat) (es : List Expr) : List Expr :=
  if i ∈ is then renameExpressions m es else es

section

variable {join d : Nat} {u : RaNode} {m : RenameMap} {is : List Nat}

private theorem renamed_join (i : Nat) (op : Join) :
    (if i ∈ is then renamedJoin m op else op) =
      { op with predicate := if i ∈ is then renameExpression m op.predicate else op.predicate } := by
  split <;> rfl

private theorem renamed_projection (i : Nat) (pr : Projection) :
    (if i ∈ is then renamedOp m (.projection pr) else .projection pr) =
      .projection { pr with args := renamedLists m is i pr.args } := by
  rw [renamedLists]
  split <;> rfl

private theorem renamed_ne_projection {i : Nat} {op : UnaryOp} (h : ∀ pr, op ≠ .projection pr) :
    ∀ pr, (if i ∈ is then renamedOp m op else op) ≠ .projection pr := by
  intro pr
  split
  · cases op with
    | projection pr' => exact absurd rfl (h pr')
    | _ => exact UnaryOp.noConfusion
  · exact h pr

variable {columns : String → String → Bool} {items : List ScopeItem}

private theorem getD_below {i : Nat} {c : RaNode}
    (hc : itemsIn (atPlaces join d columns items) (movedTree join d u m is c) =
      itemsIn { atPlaces join d columns items with select := renamedLists m is } c) :
    ((atPlaces join d columns items).below i).getD
        (itemsIn (atPlaces join d columns items)
          (if i = d then renameAt m is u else movedTree join d u m is c)) =
      ((atPlaces join d columns items).below i).getD
        (itemsIn { atPlaces join d columns items with select := renamedLists m is } c) := by
  by_cases hi : i = d
  · simp [atPlaces, hi]
  · simp [hi, hc]

private theorem getD_left {i : Nat} {l : RaNode}
    (hl : itemsIn (atPlaces join d columns items) (movedTree join d u m is l) =
      itemsIn { atPlaces join d columns items with select := renamedLists m is } l) :
    ((atPlaces join d columns items).left i).getD
        (itemsIn (atPlaces join d columns items)
          (if i = join then renameAt m is u else movedTree join d u m is l)) =
      ((atPlaces join d columns items).left i).getD
        (itemsIn { atPlaces join d columns items with select := renamedLists m is } l) := by
  by_cases hi : i = join
  · simp [atPlaces, hi]
  · simp [hi, hl]

variable (columns items)

/-- The items of the tree after the move are those of the tree before it, read with the CTE in
place of the side and with renamed select lists. -/
theorem itemsIn_movedTree (t : RaNode) :
    itemsIn (atPlaces join d columns items) (movedTree join d u m is t) =
      itemsIn { atPlaces join d columns items with select := renamedLists m is } t := by
  induction t with
  | hole => rfl
  | leaf i op => cases op <;> rfl
  | unary i op c ih =>
    have hbelow := getD_below (i := i) ih
    rw [movedTree_unary]
    by_cases hop : ∃ pr, op = .projection pr
    · obtain ⟨pr, rfl⟩ := hop
      rw [renamed_projection, itemsIn, itemsIn, hbelow]
      rfl
    · rw [not_exists] at hop
      rw [itemsIn_unary _ (renamed_ne_projection hop), itemsIn_unary _ hop, hbelow]
  | join i op l r ihl ihr =>
    have hleft := getD_left (i := i) ihl
    rw [movedTree_join, renamed_join, itemsIn, itemsIn, hleft, ihr]

/-- So are the scopes. -/
theorem scopedNodesIn_movedTree (outer block : List ScopeItem) (t : RaNode) :
    scopedNodesIn (atPlaces join d columns items) outer block (movedTree join d u m is t) =
      (scopedNodesIn { atPlaces join d columns items with select := renamedLists m is }
        outer block t).map fun x => (movedTree join d u m is x.1, x.2) := by
  induction t generalizing outer block with
  | hole => rfl
  | leaf i op => rfl
  | unary i op c ih =>
    have hchild : itemsIn (atPlaces join d columns items) (movedTree join d u m is c) = _ :=
      itemsIn_movedTree columns items c
    have hitems := getD_below (i := i) hchild
    have hbelow (block : List ScopeItem) :
        (if ((atPlaces join d columns items).below i).isSome then [] else
          scopedNodesIn (atPlaces join d columns items) outer block
            (if i = d then renameAt m is u else movedTree join d u m is c)) =
        (if ((atPlaces join d columns items).below i).isSome then [] else
          scopedNodesIn { atPlaces join d columns items with select := renamedLists m is }
            outer block c).map fun x => (movedTree join d u m is x.1, x.2) := by
      by_cases hi : i = d
      · simp [atPlaces, hi]
      · simp [atPlaces, hi] at ih ⊢
        exact ih outer block
    by_cases hop : ∃ pr, op = .projection pr
    · obtain ⟨pr, rfl⟩ := hop
      rw [movedTree_unary, renamed_projection, scopedNodesIn, hitems, hbelow, scopedNodesIn,
        List.map_cons, movedTree_unary, renamed_projection]
    · rw [not_exists] at hop
      rw [movedTree_unary, scopedNodesIn_unary _ (renamed_ne_projection hop), hbelow,
        scopedNodesIn_unary _ hop, List.map_cons, movedTree_unary]
  | join i op l r ihl ihr =>
    have hchild : itemsIn (atPlaces join d columns items) (movedTree join d u m is l) = _ :=
      itemsIn_movedTree columns items l
    have hitems := getD_left (i := i) hchild
    have hleft : (if ((atPlaces join d columns items).left i).isSome then [] else
          scopedNodesIn (atPlaces join d columns items) outer block
            (if i = join then renameAt m is u else movedTree join d u m is l)) =
        (if ((atPlaces join d columns items).left i).isSome then [] else
          scopedNodesIn { atPlaces join d columns items with select := renamedLists m is }
            outer block l).map fun x => (movedTree join d u m is x.1, x.2) := by
      by_cases hi : i = join
      · simp [atPlaces, hi]
      · simp [atPlaces, hi] at ihl ⊢
        exact ihl outer block
    rw [movedTree_join, scopedNodesIn, scopedNodesIn, hitems, hleft, ihr, ihr, itemsIn_movedTree,
      ← movedTree_join, renamed_join]
    by_cases hmarker : op.marker ≠ 0
    · simp only [if_pos hmarker, List.map_cons, List.map_append, movedTree_join, renamed_join]
    · simp only [if_neg hmarker, List.map_cons, List.map_append, movedTree_join, renamed_join]

end

section

variable {m : RenameMap}

/-- What the renaming makes of an attribute that it may come to. -/
def renameMarked (m : RenameMap) (a : AttributeRef × Bool) : AttributeRef × Bool :=
  if a.2 then (renamedRef m a.1, a.2) else a

private theorem renameMarked_false (as : List AttributeRef) :
    (as.map fun a => (a, false)).map (renameMarked m) = as.map fun a => (a, false) := by
  rw [List.map_map]
  rfl

private theorem allMarked_renameExpressions {es : List Expr}
    (ih : ∀ e ∈ es, marked (renameExpression m e) = (marked e).map (renameMarked m)) :
    allMarked (renameExpressions m es) = (allMarked es).map (renameMarked m) := by
  induction es with
  | nil => rfl
  | cons e es ihes =>
    rw [List.forall_mem_cons] at ih
    rw [renameExpressions, allMarked, allMarked, ih.1, ihes ih.2, List.map_append]

theorem marked_renameExpression (e : Expr) :
    marked (renameExpression m e) = (marked e).map (renameMarked m) := by
  induction e using Expr.ind with
  | attr name aliasName => rfl
  | funcCall f args g d ih => exact allMarked_renameExpressions ih
  | boolPredicate op args ih => exact allMarked_renameExpressions ih
  | predicate l r op ihl ihr => rw [renameExpression, marked, marked, ihl, ihr, List.map_append]
  | selectExpression e rename ih => exact ih
  | _ => exact (renameMarked_false _).symm

/-- The attributes at a node after the renaming there. -/
def renamePlaced (m : RenameMap) (is : List Nat) (x : Placed) : Placed :=
  if x.node ∈ is ∧ x.reached = true then { x with ref := renamedRef m x.ref } else x

private theorem placedAt_renamed {is : List Nat} {x y : RaNode} {scope : List ScopeItem} {i : Nat}
    (hx : x.id? = some i) (hy : y.id? = some i)
    (hmarked : markedAt y = if i ∈ is then (markedAt x).map (renameMarked m) else markedAt x) :
    placedAt (y, scope) = (placedAt (x, scope)).map (renamePlaced m is) := by
  rw [placedAt, placedAt, List.map_map, hx, hy, hmarked, Option.getD_some]
  split
  · next hi =>
    rw [List.map_map]
    refine List.map_congr_left fun a _ => ?_
    simp only [Function.comp_apply, renamePlaced, renameMarked, hi, true_and]
    split <;> rfl
  · next hi =>
    refine List.map_congr_left fun a _ => ?_
    simp only [Function.comp_apply, renamePlaced, hi, false_and, if_false]

variable {join d : Nat} {u : RaNode} {is : List Nat}

theorem placedAt_movedTree (t : RaNode) (scope : List ScopeItem) :
    placedAt (movedTree join d u m is t, scope) =
      (placedAt (t, scope)).map (renamePlaced m is) := by
  have hall (es : List Expr) : allMarked (renameExpressions m es) =
      (allMarked es).map (renameMarked m) :=
    allMarked_renameExpressions fun e _ => marked_renameExpression e
  cases t with
  | hole => rfl
  | leaf i op =>
    refine placedAt_renamed (i := i) rfl rfl ?_
    split
    · exact (renameMarked_false _).symm
    · rfl
  | unary i op c =>
    rw [movedTree_unary]
    refine placedAt_renamed (i := i) rfl rfl ?_
    split
    · cases op with
      | projection pr => exact hall pr.args
      | selection p => exact hall [p]
      | groupBy args implicit => exact hall args
      | _ => exact (renameMarked_false _).symm
    · cases op <;> rfl
  | join i op l r =>
    rw [movedTree_join]
    refine placedAt_renamed (i := i) rfl rfl ?_
    split
    · exact hall [op.predicate]
    · rfl

/-- The attributes after the move in their scopes. -/
theorem placedIn_movedTree (columns : String → String → Bool) (items : List ScopeItem)
    (t : RaNode) : placedIn (atPlaces join d columns items) (movedTree join d u m is t) =
      (placedIn { atPlaces join d columns items with select := renamedLists m is } t).map
        (renamePlaced m is) := by
  rw [placedIn, itemsIn_movedTree, scopedNodesIn_movedTree, List.flatMap_map, placedIn,
    List.map_flatMap]
  exact List.flatMap_congr fun x _ => placedAt_movedTree x.1 x.2

end

/-- A scope with the side and the same one with the CTE: the CTE is there if an item of the side
is. -/
structure Corresponds (cte : ScopeItem) (xs ys : List ScopeItem) : Prop where
  moved : (∃ it ∈ xs, ∃ k, it.owner = .moved k) → cte ∈ ys
  cte : ∀ it ∈ ys, it.owner = .cte → it = cte

/-- An attribute in both. -/
structure Aligned (cte : ScopeItem) (x y : Placed) : Prop where
  node : y.node = x.node
  reached : y.reached = x.reached
  ref : y.ref = x.ref
  scope : Corresponds cte x.scope y.scope

section

variable {cte : ScopeItem}

private theorem Corresponds.nil : Corresponds cte [] [] := by
  constructor
  · rintro ⟨it, hit, -⟩
    cases hit
  · exact fun it hit => absurd hit List.not_mem_nil

private theorem Corresponds.single (x y : Source) :
    Corresponds cte [⟨.other, x⟩] [⟨.other, y⟩] := by
  constructor
  · rintro ⟨it, hit, k, hk⟩
    rw [List.mem_singleton.mp hit] at hk
    cases hk
  · intro it hit hcte
    rw [List.mem_singleton.mp hit] at hcte
    cases hcte

private theorem Corresponds.append {xs ys xs' ys' : List ScopeItem} (h : Corresponds cte xs ys)
    (h' : Corresponds cte xs' ys') : Corresponds cte (xs ++ xs') (ys ++ ys') := by
  constructor
  · rintro ⟨it, hit, hk⟩
    rcases List.mem_append.mp hit with hit | hit
    · exact List.mem_append_left _ (h.moved ⟨it, hit, hk⟩)
    · exact List.mem_append_right _ (h'.moved ⟨it, hit, hk⟩)
  · intro it hit
    exact (List.mem_append.mp hit).elim (h.cte it) (h'.cte it)

/-- Two readings that differ at the same places in what stands there. -/
private structure SamePlaces (cte : ScopeItem) (R S : Reading) : Prop where
  below : ∀ i xs ys, Corresponds cte xs ys →
    Corresponds cte ((R.below i).getD xs) ((S.below i).getD ys)
  left : ∀ i xs ys, Corresponds cte xs ys →
    Corresponds cte ((R.left i).getD xs) ((S.left i).getD ys)
  isSome_below : ∀ i, (S.below i).isSome = (R.below i).isSome
  isSome_left : ∀ i, (S.left i).isSome = (R.left i).isSome

private theorem samePlaces_atPlaces {items : List ScopeItem} (hitems : Corresponds cte items [cte])
    {join d : Nat} {columns columns' : String → String → Bool}
    {select : Nat → List Expr → List Expr} :
    SamePlaces cte (atPlaces join d columns items)
      { atPlaces join d columns' [cte] with select := select } := by
  constructor
  · intro i xs ys h
    by_cases hi : i = d
    · simpa [atPlaces, hi] using hitems
    · simpa [atPlaces, hi] using h
  · intro i xs ys h
    by_cases hi : i = join
    · simpa [atPlaces, hi] using hitems
    · simpa [atPlaces, hi] using h
  · intro i
    by_cases hi : i = d <;> simp [atPlaces, hi]
  · intro i
    by_cases hi : i = join <;> simp [atPlaces, hi]

variable {R S : Reading} (hplaces : SamePlaces cte R S)

include hplaces

private theorem corresponds_itemsIn (t : RaNode) :
    Corresponds cte (itemsIn R t) (itemsIn S t) := by
  induction t with
  | hole => exact .nil
  | leaf i op =>
    cases op with
    | dummy => exact .nil
    | _ => exact .single _ _
  | unary i op c ih =>
    by_cases hop : ∃ pr, op = .projection pr
    · obtain ⟨pr, rfl⟩ := hop
      rw [itemsIn, itemsIn]
      split
      · exact .single _ _
      · exact hplaces.below i _ _ ih
    · rw [not_exists] at hop
      rw [itemsIn_unary _ hop, itemsIn_unary _ hop]
      exact hplaces.below i _ _ ih
  | join i op l r ihl ihr =>
    have hleft := hplaces.left i _ _ ihl
    rw [itemsIn, itemsIn]
    split
    · exact .single _ _
    · split
      · exact hleft
      · exact hleft.append ihr

private theorem aligned_scopedNodesIn {outer outer' block block' : List ScopeItem}
    (houter : Corresponds cte outer outer') (hblock : Corresponds cte block block') (t : RaNode) :
    List.Forall₂ (fun x y => y.1 = x.1 ∧ Corresponds cte x.2 y.2)
      (scopedNodesIn R outer block t) (scopedNodesIn S outer' block' t) := by
  have hskip {p : Bool} {xs ys : List (RaNode × List ScopeItem)}
      (h : List.Forall₂ (fun x y => y.1 = x.1 ∧ Corresponds cte x.2 y.2) xs ys) :
      List.Forall₂ (fun x y => y.1 = x.1 ∧ Corresponds cte x.2 y.2)
        (if p then [] else xs) (if p then [] else ys) := by
    split
    · exact .nil
    · exact h
  induction t generalizing outer outer' block block' with
  | hole => exact .nil
  | leaf i op => exact .cons ⟨rfl, houter⟩ .nil
  | unary i op c ih =>
    by_cases hop : ∃ pr, op = .projection pr
    · obtain ⟨pr, rfl⟩ := hop
      have hown := hplaces.below i _ _ (corresponds_itemsIn hplaces c)
      rw [scopedNodesIn, scopedNodesIn, hplaces.isSome_below]
      exact .cons ⟨rfl, hown.append houter⟩ (hskip (ih houter hown))
    · rw [not_exists] at hop
      rw [scopedNodesIn_unary _ hop, scopedNodesIn_unary _ hop, hplaces.isSome_below]
      exact .cons ⟨rfl, hblock.append houter⟩ (hskip (ih houter hblock))
  | join i op l r ihl ihr =>
    rw [scopedNodesIn, scopedNodesIn, hplaces.isSome_left]
    split
    · exact .cons ⟨rfl, hblock.append houter⟩ (List.rel_append (hskip (ihl houter hblock))
        (ihr (hblock.append houter) .nil))
    · have hown := (hplaces.left i _ _ (corresponds_itemsIn hplaces l)).append
        (corresponds_itemsIn hplaces r)
      exact .cons ⟨rfl, hown.append houter⟩ (List.rel_append (hskip (ihl houter hblock))
        (ihr houter hblock))

private theorem aligned_placedIn (t : RaNode) :
    List.Forall₂ (Aligned cte) (placedIn R t) (placedIn S t) := by
  have hnodes := aligned_scopedNodesIn hplaces .nil (corresponds_itemsIn hplaces t) t
  refine List.rel_flatMap hnodes fun x y hxy => ?_
  rw [placedAt, placedAt, hxy.1, List.forall₂_map_left_iff, List.forall₂_map_right_iff,
    List.forall₂_same]
  exact fun a _ => ⟨rfl, rfl, rfl, hxy.2⟩

end

/-- The attributes with the side in the scopes and with the CTE there are the same. -/
theorem aligned_atPlaces {cte : ScopeItem} {items : List ScopeItem}
    (hitems : Corresponds cte items [cte]) (join d : Nat) (columns columns' : String → String → Bool)
    (select : Nat → List Expr → List Expr) (t : RaNode) :
    List.Forall₂ (Aligned cte) (placedIn (atPlaces join d columns items) t)
      (placedIn { atPlaces join d columns' [cte] with select := select } t) :=
  aligned_placedIn (samePlaces_atPlaces hitems) t

end SqlOptimizer.Unnesting.MovedScopes
