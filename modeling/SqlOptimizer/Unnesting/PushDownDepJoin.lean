import SqlOptimizer.Unnesting.Attributes

/-!
One step of a dependent join towards the leaves: it changes places with the top of its
right child, or becomes two dependent joins.
-/

set_option autoImplicit false
set_option relaxedAutoImplicit false

namespace SqlOptimizer.Unnesting.PushDownDepJoin

open Algebra.RelationalAlgebra
open Tree.Frames Tree.Walks
open Logic.Triples
open Objects Attributes

/-- The name under which a relation is visible: its alias, or its name when it has none. -/
def visibleName (r : String × String) : String := if r.2 ≠ "" then r.2 else r.1

/-- The attributes of which qualifier and name together have not occurred before. -/
def distinctAttributes : List String → List AttributeRef → List AttributeRef
  | _, [] => []
  | seen, a :: as =>
      if a.2 ++ a.1 ∈ seen then distinctAttributes seen as
      else a :: distinctAttributes ((a.2 ++ a.1) :: seen) as

/-- A `temp_` projection with the attributes that it passes on. -/
def tempProjection (subqueryAlias : String) (attributes : List AttributeRef) : Projection where
  args := attributes.map fun a => .selectExpression (.attribute a.1 a.2) ""
  subqueryAlias := subqueryAlias
  subqueryColumns := attributes.map Prod.fst

/-- The entries of the rename map for one of the projections. -/
def tempRenames (subqueryAlias : String) (attributes : List AttributeRef)
    (relations : List (String × String)) (m : RenameMap) : RenameMap :=
  attributes.foldl (fun m a =>
    relations.foldl (fun m r => m.set (visibleName r) a.1 subqueryAlias a.1)
      (m.set "d" a.1 subqueryAlias a.1)) m

/-- The equalities of the columns of D on both sides. -/
def naturalJoinPredicates (leftAlias rightAlias : String) (left right : List AttributeRef) :
    List Expr :=
  right.filterMap fun r => (left.find? fun l => r.1 = l.1).map fun l =>
    .predicate (.attribute l.1 leftAlias) (.attribute r.1 rightAlias) "="

/-- The type and the predicate of the join over the two projections. -/
def naturalJoin (join : Join) : List Expr → Join
  | [] => { join with type := .crossProduct }
  | [p] => { join with type := .inner, predicate := p }
  | ps => { join with type := .inner, predicate := .boolPredicate .and ps }

/-- The attributes that one of the projections passes on: those that are used above it, then
those of D that are used below. -/
def passedAttributes (above below : List AttributeRef) : List AttributeRef :=
  distinctAttributes [] (above.filter (fun a => a.2 ≠ "d") ++ below)

/-- The tree at the place of the dependent join: a join of two projections with a dependent
join below each. -/
def splitTree (depJoin depJoinRight leftPr rightPr : Nat) (dep : Join) (d : RaNode)
    (childJoin : Nat) (join : Join) (left right : Projection) (a b : RaNode) : RaNode :=
  .join childJoin join
    (.projection leftPr left (.join depJoin dep d a))
    (.projection rightPr right (.join depJoinRight { type := .dependentInnerLeft } d b))

/-- The join over the two projections with all its fields set. -/
def finishSplit (join : Join) (left right : Projection) : RaNode → RaNode
  | .join i _ (.projection l _ x) (.projection r _ y) =>
      .join i join (.projection l left x) (.projection r right y)
  | t => t

/-- The third case for a cross product or an inner join: both sides use attributes of D. The
result is the second dependent join. -/
def splitDepJoin (depJoin rightProjection : Nat) (dep : Join) (d : RaNode) (childJoin : Nat)
    (join : Join) (a b : RaNode) : Optimizer Nat := do
  let leftPr ← newNode
  let rightPr ← newNode
  let depJoinRight ← newNode
  let leftAlias ← newName "temp_"
  let rightAlias ← newName "temp_"
  modifyRoot <| update depJoin <| replaceJoin <|
    splitTree depJoin depJoinRight leftPr rightPr dep d childJoin join
      (tempProjection leftAlias []) (tempProjection rightAlias []) a b
  let it ← orCrash (find? rightProjection (← getRoot))
  let leftRelations := getRelationsAliases (.join depJoin dep d a)
  let rightRelations := getRelationsAliases (.join depJoinRight { type := .dependentInnerLeft } d b)
  let leftAbove ← orCrash
    (findAttributesUsingAlias (leftRelations.map visibleName) (some childJoin) true it)
  let leftBelow ← orCrash (findAttributesUsingAlias ["d"] none false a)
  let rightAbove ← orCrash
    (findAttributesUsingAlias (rightRelations.map visibleName) (some childJoin) true it)
  let rightBelow ← orCrash (findAttributesUsingAlias ["d"] none false b)
  let left := passedAttributes leftAbove leftBelow
  let right := passedAttributes rightAbove rightBelow
  let renames := tempRenames rightAlias right rightRelations
    (tempRenames leftAlias left leftRelations [])
  let renamed ← orCrash (renameAttributes renames (some childJoin) it (← getRoot))
  modifyRoot fun _ => renamed
  assert (join.predicate.isPresent = false)
  let predicates := naturalJoinPredicates leftAlias rightAlias leftBelow rightBelow
  modifyRoot <| update childJoin <| finishSplit (naturalJoin join predicates)
    (tempProjection leftAlias left) (tempProjection rightAlias right)
  return depJoinRight

/-- A Group_By over a dependent join also groups by the attributes of D. -/
def groupByD (dColumns : List String) (args : List Expr) : List Expr :=
  args ++ dColumns.map fun x => .attribute x "d"

/-- What one call does with the dependent join: it puts another tree in its place, splits it
over the join below, or leaves it. -/
inductive Move where
  | replace (t : RaNode)
  | split (childJoin : Nat) (join : Join) (a b : RaNode)
  | badCast
  | stay

section

variable (root : RaNode) (depJoin : Nat) (dep : Join) (d : RaNode)

/-- The dependent join and a node with one child change places. -/
def belowUnary (i : Nat) (op : UnaryOp) (c : RaNode) : Option Move :=
  if c.isHole then none else some (.replace (.unary i op (.join depJoin dep d c)))

/-- The dependent join goes to the side of a join that uses attributes of D. -/
def belowJoin (i : Nat) (join : Join) (a b : RaNode) : Option Move :=
  if a.isHole || b.isHole then none
  else
    (intersectCorrelatedAttributes root d b).bind fun onRight =>
      if onRight.isEmpty then some (.replace (.join i join (.join depJoin dep d a) b))
      else if join.type = .left then some .stay
      else
        (intersectCorrelatedAttributes root d a).map fun onLeft =>
          if onLeft.isEmpty then .replace (.join i join a (.join depJoin dep d b))
          else .split i join a b

/-- The cases of `push_down_dep_join` over the right child. -/
def depJoinMove : RaNode → Option Move
  | .hole => none
  | .leaf _ _ => some .stay
  | .unary i (.projection pr) c => belowUnary depJoin dep d i (.projection pr) c
  | .unary i (.selection p) c => belowUnary depJoin dep d i (.selection p) c
  | .unary i (.groupBy args _) c =>
      match d with
      | .projection _ dPr _ =>
          belowUnary depJoin dep d i (.groupBy (groupByD dPr.subqueryColumns args) false) c
      | _ => some .badCast
  | .unary _ _ _ => some .stay
  | .join i join a b =>
      match join.type with
      | .crossProduct | .inner | .left => belowJoin root depJoin dep d i join a b
      | _ => some .stay

end

/-- `RaTree::push_down_dep_join`: the dependent join that is to be pushed down next to
this one, if there is one. -/
def pushDownDepJoin (depJoin rightProjection : Nat) : Optimizer (Option Nat) := do
  let root ← getRoot
  let top ← orCrash (find? rightProjection root)
  assert ((getNodeParent depJoin top).isSome = true)
  match find? depJoin root with
  | some (.join _ dep d r) => do
      let move ← orCrash (depJoinMove root depJoin dep d r)
      match move with
      | .replace t => do
          modifyRoot (update depJoin (replaceJoin t))
          return none
      | .split i join a b => do
          let depJoinRight ← splitDepJoin depJoin rightProjection dep d i join a b
          return some depJoinRight
      | .badCast => badCast d .projection
      | .stay => return none
  | _ => crash

section

variable {root d r t : RaNode} {depJoin rightProjection i : Nat} {dep : Join} {move : Move}

theorem belowUnary_eq_some {op : UnaryOp} {c : RaNode}
    (h : belowUnary depJoin dep d i op c = some move) :
    move = .replace (.unary i op (.join depJoin dep d c)) := by
  rw [belowUnary] at h
  split at h
  · cases h
  · exact (Option.some.inj h).symm

theorem belowJoin_eq_some {join : Join} {a b : RaNode}
    (h : belowJoin root depJoin dep d i join a b = some move) :
    (∃ t, move = .replace t) ∨ move = .stay ∨ join.type ≠ .left ∧ move = .split i join a b := by
  rw [belowJoin] at h
  split at h
  · cases h
  · obtain ⟨onRight, -, h⟩ := Option.bind_eq_some_iff.mp h
    split at h
    · exact .inl ⟨_, (Option.some.inj h).symm⟩
    · split at h
      · exact .inr (.inl (Option.some.inj h).symm)
      · next hleft =>
        obtain ⟨onLeft, -, h⟩ := Option.map_eq_some_iff.mp h
        split at h
        · exact .inl ⟨_, h.symm⟩
        · exact .inr (.inr ⟨hleft, h.symm⟩)

/-- A dependent join is only split over a cross product or an inner join. -/
theorem depJoinMove_eq_split {join : Join} {a b : RaNode}
    (h : depJoinMove root depJoin dep d r = some (.split i join a b)) :
    r = .join i join a b ∧ (join.type = .crossProduct ∨ join.type = .inner) := by
  cases r with
  | hole => cases h
  | leaf j op => cases h
  | unary j op c =>
    have hunary {op : UnaryOp} (h : belowUnary depJoin dep d j op c = some (.split i join a b)) :
        False := by
      cases belowUnary_eq_some h
    cases op with
    | projection pr => exact (hunary h).elim
    | selection p => exact (hunary h).elim
    | groupBy args implicit =>
      cases d with
      | unary k dOp dc =>
        cases dOp with
        | projection dPr => exact (hunary h).elim
        | _ => cases h
      | _ => cases h
    | _ => cases h
  | join j join' l r =>
    have hsplit (h : belowJoin root depJoin dep d j join' l r = some (.split i join a b)) :
        join'.type ≠ .left ∧ RaNode.join j join' l r = .join i join a b := by
      rcases belowJoin_eq_some h with ⟨t, ht⟩ | hstay | ⟨hleft, hmove⟩
      · cases ht
      · cases hstay
      · cases hmove
        exact ⟨hleft, rfl⟩
    rw [depJoinMove] at h
    split at h
    · next htype =>
      obtain ⟨-, heq⟩ := hsplit h
      cases heq
      exact ⟨rfl, .inl htype⟩
    · next htype =>
      obtain ⟨-, heq⟩ := hsplit h
      cases heq
      exact ⟨rfl, .inr htype⟩
    · next htype => exact absurd htype (hsplit h).1
    · cases h

/-- What a call that does not fail does. -/
theorem pushDownDepJoin_eq_ok {s s' : State} {next : Option Nat}
    (h : outcome (pushDownDepJoin depJoin rightProjection) s = (.ok next, s')) :
    ∃ k dep d r move, find? depJoin s.tree.root = some (.join k dep d r) ∧
      depJoinMove s.tree.root depJoin dep d r = some move ∧
      match move with
      | .replace t => next = none ∧
          outcome (modifyRoot (update depJoin (replaceJoin t))) s = (.ok (), s')
      | .split i join a b => ∃ n, next = some n ∧
          outcome (splitDepJoin depJoin rightProjection dep d i join a b) s = (.ok n, s')
      | .badCast => False
      | .stay => next = none ∧ s' = s := by
  unfold pushDownDepJoin at h
  rw [outcome_bind_eq_ok] at h
  obtain ⟨root, s₁, h₁, h⟩ := h
  cases h₁
  simp only [outcome_bind_eq_ok, outcome_orCrash_eq_ok, outcome_assert_eq_ok] at h
  obtain ⟨top, s₁, ⟨-, rfl⟩, _, s₂, ⟨-, rfl⟩, h⟩ := h
  split at h
  · next k dep d r hfind =>
    simp only [outcome_bind_eq_ok, outcome_orCrash_eq_ok] at h
    obtain ⟨move, s₃, ⟨hmove, rfl⟩, h⟩ := h
    refine ⟨k, dep, d, r, move, hfind, hmove, ?_⟩
    cases move with
    | replace t =>
      simp only [outcome_bind_eq_ok] at h
      obtain ⟨_, s₄, h₄, h₅⟩ := h
      cases h₅
      exact ⟨rfl, h₄⟩
    | split i join a b =>
      simp only [outcome_bind_eq_ok] at h
      obtain ⟨n, s₄, h₄, h₅⟩ := h
      cases h₅
      exact ⟨n, rfl, h₄⟩
    | badCast => exact (outcome_badCast_ne_ok h).elim
    | stay =>
      cases h
      exact ⟨rfl, rfl⟩
  · cases h

end

end SqlOptimizer.Unnesting.PushDownDepJoin
