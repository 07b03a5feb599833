import SqlOptimizer.Logic.Runs
import SqlOptimizer.Tree.Nodes
import SqlOptimizer.Unnesting.Markers

/-!
The order in which `find_subquery_markers` lists the markers: it goes from a Selection down,
so that the marker of a subquery comes before those inside it.
-/

set_option autoImplicit false
set_option relaxedAutoImplicit false

namespace SqlOptimizer.Unnesting.MarkerOrder

open Algebra.RelationalAlgebra
open Tree.Frames Tree.Walks Tree.Nodes
open Logic.Runs
open Attributes Markers

mutual

/-- The markers anywhere in an expression, with their types. -/
def markersIn : Expr → List (Nat × JoinType)
  | .funcCall _ args _ _ => markersInAll args
  | .typeCast _ _ e => markersIn e
  | .selectExpression e _ => markersIn e
  | .expression l r _ => markersIn l ++ markersIn r
  | .list args => markersInAll args
  | .inList args => markersInAll args
  | .caseExpr args e => markersInAll args ++ markersIn e
  | .caseWhen w t => markersIn w ++ markersIn t
  | .boolPredicate _ args => markersInAll args
  | .predicate l r _ => markersIn l ++ markersIn r
  | .nullTest e _ => markersIn e
  | .whereSubqueryMarker m type => [(m, type)]
  | _ => []

def markersInAll : List Expr → List (Nat × JoinType)
  | [] => []
  | e :: es => markersIn e ++ markersInAll es

end

mutual

/-- Markers only stand as conditions and as operands of comparisons, and no pointer is null
there. -/
def isSearchable : Expr → Bool
  | .nullptr => false
  | .boolPredicate _ args => areSearchable args
  | .predicate l r _ => isSearchable l && isSearchable r
  | .whereSubqueryMarker _ _ => true
  | e => (markersIn e).isEmpty

def areSearchable : List Expr → Bool
  | [] => true
  | e :: es => isSearchable e && areSearchable es

end

/-- The markers in the Selections of a tree. -/
def selectionMarkers (t : RaNode) : List (Nat × JoinType) :=
  (getAllSelections t).flatMap fun s => markersIn s.2.1

theorem selectionMarkers_join (i : Nat) (join : Join) (l r : RaNode) :
    selectionMarkers (.join i join l r) = selectionMarkers l ++ selectionMarkers r := by
  rw [selectionMarkers, getAllSelections, List.flatMap_append]
  rfl

/-- The Selection of a marker is an ancestor of the join that carries the marker. -/
def MarkersAboveJoins (t : RaNode) : Prop :=
  ∀ i p c j join l r, RaNode.selection i p c ∈ nodes t → RaNode.join j join l r ∈ nodes t →
    join.marker ≠ 0 → join.marker ∈ (markersIn p).map Prod.fst → RaNode.join j join l r ∈ nodes c

/-- The marker in a pair of a marker and its join. -/
def markerOf (p : MarkerJoin) : Nat × JoinType := (p.marker, p.type)

/-! ### The list of markers -/

section

variable (markerTypes : List JoinType)

/-- The list for the markers met, in order. -/
def listed (ms : List (Nat × JoinType)) : List MarkerJoin :=
  (ms.filter fun m => m.2 ∈ markerTypes).map fun m => ⟨m.1, m.2, none⟩

theorem listed_append (ms ms' : List (Nat × JoinType)) :
    listed markerTypes (ms ++ ms') = listed markerTypes ms ++ listed markerTypes ms' := by
  simp [listed]

theorem map_markerOf_listed (ms : List (Nat × JoinType)) :
    (listed markerTypes ms).map markerOf = ms.filter fun m => m.2 ∈ markerTypes := by
  simp [listed, markerOf, Function.comp_def]

theorem findPredicateMarkers_eq {p : Expr} (h : isSearchable p = true) :
    findPredicateMarkers markerTypes p = some (listed markerTypes (markersIn p)) := by
  have hother {e : Expr} (he : (markersIn e).isEmpty = true) :
      listed markerTypes (markersIn e) = [] := by
    rw [List.isEmpty_iff.mp he]
    rfl
  induction p using Expr.ind with
  | nullptr => cases h
  | boolPredicate op args ih =>
    rw [isSearchable] at h
    rw [findPredicateMarkers, markersIn]
    induction args with
    | nil => rfl
    | cons e es ihes =>
      rw [areSearchable, Bool.and_eq_true] at h
      rw [List.forall_mem_cons] at ih
      rw [findAllPredicateMarkers, ih.1 h.1, Option.bind_some, ihes ih.2 h.2, Option.map_some,
        markersInAll, listed_append]
  | predicate l r op ihl ihr =>
    rw [isSearchable, Bool.and_eq_true] at h
    rw [findPredicateMarkers, ihl h.1, Option.bind_some, ihr h.2, Option.map_some, markersIn,
      listed_append]
  | whereSubqueryMarker m type =>
    rw [findPredicateMarkers, markersIn, listed]
    by_cases htype : type ∈ markerTypes <;> simp [htype]
  | _ =>
    rw [hother h]
    rfl

theorem findSubqueryMarkers_eq {t : RaNode}
    (h : ∀ s ∈ getAllSelections t, isSearchable s.2.1 = true) :
    findSubqueryMarkers markerTypes t = some (listed markerTypes (selectionMarkers t)) := by
  induction t with
  | hole => rfl
  | leaf i op => rfl
  | unary i op c ih =>
    cases op with
    | selection p =>
      obtain ⟨hp, hc⟩ := List.forall_mem_cons.mp h
      rw [findSubqueryMarkers, findPredicateMarkers_eq markerTypes hp, Option.bind_some, ih hc,
        Option.map_some, ← listed_append]
      rfl
    | _ => exact ih h
  | join i join l r ihl ihr =>
    rw [getAllSelections, List.forall_mem_append] at h
    rw [findSubqueryMarkers, ihl h.1, Option.bind_some, ihr h.2, Option.map_some, ← listed_append,
      selectionMarkers_join]

end

/-- The joins are found for the markers in their order. -/
theorem markerOf_assignJoin {j : Nat × Join} {ps ps' : List MarkerJoin}
    (h : assignJoin j ps = some ps') : ps'.map markerOf = ps.map markerOf := by
  induction ps generalizing ps' with
  | nil =>
    cases h
    rfl
  | cons p ps ih =>
    rw [assignJoin] at h
    split at h
    · split at h
      · cases h
        rfl
      · cases h
    · obtain ⟨qs, hqs, rfl⟩ := Option.map_eq_some_iff.mp h
      rw [List.map_cons, List.map_cons, ih hqs]

theorem markerOf_findJoinsByMarkers {it : RaNode} {ps ps' : List MarkerJoin}
    (h : findJoinsByMarkers it ps = some ps') : ps'.map markerOf = ps.map markerOf :=
  run_invariant (I := fun qs => qs.map markerOf = ps.map markerOf)
    (fun _ _ _ hqs hstep => (markerOf_assignJoin hstep).trans hqs) h rfl

/-! ### The order -/

theorem selectionMarkers_unary_sublist (i : Nat) (op : UnaryOp) (c : RaNode) :
    (selectionMarkers c).Sublist (selectionMarkers (.unary i op c)) := by
  cases op with
  | selection p => exact List.sublist_append_right _ _
  | _ => exact .refl _

theorem selectionMarkers_plug (K : List Frame) (t : RaNode) :
    (selectionMarkers t).Sublist (selectionMarkers (plug K t)) := by
  induction K generalizing t with
  | nil => exact .refl _
  | cons f K ih =>
    refine List.Sublist.trans ?_ (ih (f.plug t))
    cases f with
    | unary i op => exact selectionMarkers_unary_sublist i op t
    | left i join r =>
      rw [Frame.plug, selectionMarkers_join]
      exact List.sublist_append_left _ _
    | right i join l =>
      rw [Frame.plug, selectionMarkers_join]
      exact List.sublist_append_right _ _

theorem selectionMarkers_of_mem_nodes {t n : RaNode} (h : n ∈ nodes t) :
    (selectionMarkers n).Sublist (selectionMarkers t) := by
  obtain ⟨K, rfl⟩ := exists_plug_of_mem_nodes h
  exact selectionMarkers_plug K n

theorem exists_selection_of_mem {t : RaNode} {m : Nat × JoinType} (h : m ∈ selectionMarkers t) :
    ∃ i p c, RaNode.selection i p c ∈ nodes t ∧ m ∈ markersIn p := by
  induction t with
  | hole => cases h
  | leaf i op => cases h
  | unary i op c ih =>
    have hbelow (h : m ∈ selectionMarkers c) :
        ∃ j p c', RaNode.selection j p c' ∈ nodes (.unary i op c) ∧ m ∈ markersIn p := by
      obtain ⟨j, p, c', hmem, hp⟩ := ih h
      exact ⟨j, p, c', List.mem_cons_of_mem _ hmem, hp⟩
    cases op with
    | selection p =>
      rcases List.mem_append.mp h with hp | hc
      · exact ⟨i, p, c, List.mem_cons_self, hp⟩
      · exact hbelow hc
    | _ => exact hbelow h
  | join i join l r ihl ihr =>
    rw [selectionMarkers_join, List.mem_append] at h
    rcases h with h | h
    · obtain ⟨j, p, c, hmem, hp⟩ := ihl h
      exact ⟨j, p, c, List.mem_cons_of_mem _ (List.mem_append_left _ hmem), hp⟩
    · obtain ⟨j, p, c, hmem, hp⟩ := ihr h
      exact ⟨j, p, c, List.mem_cons_of_mem _ (List.mem_append_right _ hmem), hp⟩

/-- The marker of a subquery stands before the markers inside the subquery. -/
theorem marker_before_nested {t : RaNode} (habove : MarkersAboveJoins t) {j : Nat} {join : Join}
    {l r : RaNode} (hjoin : RaNode.join j join l r ∈ nodes t) (hmarker : join.marker ≠ 0)
    {x y : Nat × JoinType} (hx : x ∈ selectionMarkers t) (hxj : x.1 = join.marker)
    (hy : y ∈ selectionMarkers r) : [x, y].Sublist (selectionMarkers t) := by
  obtain ⟨i, p, c, hsel, hp⟩ := exists_selection_of_mem hx
  have hbelow : RaNode.join j join l r ∈ nodes c :=
    habove i p c j join l r hsel hjoin hmarker (hxj ▸ List.mem_map_of_mem hp)
  have hyc : y ∈ selectionMarkers c := by
    apply (selectionMarkers_of_mem_nodes hbelow).subset
    rw [selectionMarkers_join]
    exact List.mem_append_right _ hy
  have hpair : ([x] ++ [y]).Sublist (markersIn p ++ selectionMarkers c) :=
    (List.singleton_sublist.mpr hp).append (List.singleton_sublist.mpr hyc)
  exact hpair.trans (selectionMarkers_of_mem_nodes hsel)

/-- What `find_subquery_markers` lists: each marker of the requested types in a Selection once,
and the marker of a subquery before those inside it. With its joins the list keeps this order,
so that the reverse loops of the passes come to the nested subquery first. -/
theorem findSubqueryMarkers_nestedLast (markerTypes : List JoinType) {t : RaNode}
    (hsearch : ∀ s ∈ getAllSelections t, isSearchable s.2.1 = true)
    (hdistinct : (selectionMarkers t).Nodup) (habove : MarkersAboveJoins t) :
    ∃ ms, findSubqueryMarkers markerTypes t = some ms ∧
      ((ms.map markerOf).Nodup ∧
        ∀ x, x ∈ ms.map markerOf ↔ x ∈ selectionMarkers t ∧ x.2 ∈ markerTypes) ∧
      ∀ j join l r, RaNode.join j join l r ∈ nodes t → join.marker ≠ 0 →
        ∀ x ∈ ms.map markerOf, x.1 = join.marker →
          ∀ y ∈ ms.map markerOf, y ∈ selectionMarkers r →
            [x, y].Sublist (ms.map markerOf) ∧
              ∀ pairs, markersJoins markerTypes t = some pairs →
                [y, x].Sublist (pairs.reverse.map markerOf) := by
  refine ⟨_, findSubqueryMarkers_eq markerTypes hsearch, ?_, ?_⟩
  · rw [map_markerOf_listed]
    exact ⟨hdistinct.filter _, fun x => by simp⟩
  · intro j join l r hjoin hmarker x hx hxj y hy hyr
    rw [map_markerOf_listed] at hx hy ⊢
    obtain ⟨hx, hxtype⟩ := List.mem_filter.mp hx
    have hytype := (List.mem_filter.mp hy).2
    have hpair : [x, y].Sublist ((selectionMarkers t).filter fun m => m.2 ∈ markerTypes) := by
      have h := (marker_before_nested habove hjoin hmarker hx hxj hyr).filter
        fun m => decide (m.2 ∈ markerTypes)
      have hkept : [x, y].filter (fun m => decide (m.2 ∈ markerTypes)) = [x, y] := by
        simp [of_decide_eq_true hxtype, of_decide_eq_true hytype]
      rwa [hkept] at h
    refine ⟨hpair, fun pairs hpairs => ?_⟩
    rw [markersJoins, findSubqueryMarkers_eq markerTypes hsearch, Option.bind_some] at hpairs
    rw [List.map_reverse, markerOf_findJoinsByMarkers hpairs, map_markerOf_listed]
    exact hpair.reverse

/-- The join of the inner EXISTS. -/
def innerExists : RaNode :=
  .join 6 { type := .semiLeftDependent, marker := 2 } (.relation 7 "s" "") (.relation 8 "t" "")

/-- An EXISTS with another one inside. -/
def nestedExists : RaNode :=
  .selection 1 (.whereSubqueryMarker 1 .semiLeftDependent)
    (.join 2 { type := .semiLeftDependent, marker := 1 } (.relation 3 "r" "")
      (.projection 4 { args := [] }
        (.selection 5 (.whereSubqueryMarker 2 .semiLeftDependent) innerExists)))

theorem markersAboveJoins_nestedExists : MarkersAboveJoins nestedExists := by
  intro i p c j join l r hsel hjoin _ hmem
  simp only [nestedExists, innerExists, nodes, List.mem_cons, List.mem_append, RaNode.unary.injEq,
    UnaryOp.selection.injEq, RaNode.join.injEq, List.not_mem_nil, reduceCtorEq, or_false, false_or,
    false_and, and_false] at hsel hjoin
  rcases hsel with ⟨rfl, rfl, rfl⟩ | ⟨rfl, rfl, rfl⟩
  · rcases hjoin with ⟨rfl, rfl, rfl, rfl⟩ | ⟨rfl, rfl, rfl, rfl⟩ <;> simp [nodes]
  · rcases hjoin with ⟨rfl, rfl, rfl, rfl⟩ | ⟨rfl, rfl, rfl, rfl⟩
    · simp [markersIn] at hmem
    · simp [nodes]

/-- The outer EXISTS is listed first. -/
theorem findSubqueryMarkers_nestedExists :
    ∃ ms, findSubqueryMarkers [.semiLeftDependent] nestedExists = some ms ∧
      [(1, .semiLeftDependent), (2, .semiLeftDependent)].Sublist (ms.map markerOf) := by
  obtain ⟨ms, hms, ⟨-, hmem⟩, horder⟩ := findSubqueryMarkers_nestedLast [.semiLeftDependent]
    (t := nestedExists) (by decide) (by decide) markersAboveJoins_nestedExists
  refine ⟨ms, hms, (horder 2 _ _ _ (List.mem_cons_of_mem _ List.mem_cons_self) (by decide) (1, _)
    ?_ rfl (2, _) ?_ (by decide)).1⟩
  · exact (hmem _).mpr (by decide)
  · exact (hmem _).mpr (by decide)

end SqlOptimizer.Unnesting.MarkerOrder
