import SqlOptimizer.Unnesting.Attributes

/-!
The subquery markers in `ra_tree.cc`: how a pass collects them with their joins, and how
the marker of a scalar subquery is replaced.
-/

set_option autoImplicit false
set_option relaxedAutoImplicit false

namespace SqlOptimizer.Unnesting.Markers

open Algebra.RelationalAlgebra
open Tree.Frames Tree.Walks
open Objects Attributes

section

variable (markerTypes : List JoinType)

mutual

/-- `RaTree::find_subquery_markers` in a predicate. -/
def findPredicateMarkers : Expr → Option (List MarkerJoin)
  | .nullptr => none
  | .boolPredicate _ args => findAllPredicateMarkers args
  | .predicate l r _ =>
      (findPredicateMarkers l).bind fun ls => (findPredicateMarkers r).map (ls ++ ·)
  | .whereSubqueryMarker m type => some (if type ∈ markerTypes then [⟨m, type, none⟩] else [])
  | _ => some []

def findAllPredicateMarkers : List Expr → Option (List MarkerJoin)
  | [] => some []
  | e :: es =>
      (findPredicateMarkers e).bind fun ms => (findAllPredicateMarkers es).map (ms ++ ·)

end

/-- `RaTree::find_subquery_markers`: only the predicates of Selections are searched. -/
def findSubqueryMarkers : RaNode → Option (List MarkerJoin)
  | .hole => some []
  | .leaf _ _ => some []
  | .unary _ (.selection p) c =>
      (findPredicateMarkers markerTypes p).bind fun ms => (findSubqueryMarkers c).map (ms ++ ·)
  | .unary _ _ c => findSubqueryMarkers c
  | .join _ _ l r =>
      (findSubqueryMarkers l).bind fun ls => (findSubqueryMarkers r).map (ls ++ ·)

end

/-- `node_case == RA__NODE__WHERE_SUBQUERY_MARKER` and it is the marker `m`. -/
def isMarker (m : Nat) : Expr → Bool
  | .whereSubqueryMarker m' _ => m' = m
  | _ => false

/-- The marker itself, or a NOT with the marker among its arguments. -/
def holdsMarker (m : Nat) : Expr → Bool
  | .boolPredicate .not args => args.any (isMarker m)
  | e => isMarker m e

/-- `args[i] = replacement` for the first `i` that satisfies the condition. -/
def replaceFirst (p : Expr → Bool) (replacement : Expr) : List Expr → Option (List Expr)
  | [] => none
  | e :: es =>
      if p e then some (replacement :: es) else (replaceFirst p replacement es).map (e :: ·)

section

variable (m : Nat) (replacement : Expr)

mutual

/-- `RaTree::find_marker_in_predicate` with `replace_subquery_marker` at the place that it
finds: the predicate after the change, if the marker is found. The outer `none` is a null
pointer. -/
def replaceInPredicate : Expr → Option (Option Expr)
  | .nullptr => none
  | .boolPredicate op args =>
      match replaceFirst (holdsMarker m) replacement args with
      | some args => some (some (.boolPredicate op args))
      | none => (replaceInArgs args).map (Option.map (.boolPredicate op))
  | .predicate l r op =>
      if !l.isPresent then none
      else if isMarker m l then some (some (.predicate replacement r op))
      else if !r.isPresent then none
      else if isMarker m r then some (some (.predicate l replacement op))
      else
        (replaceInPredicate l).bind fun l' =>
          match l' with
          | some l' => some (some (.predicate l' r op))
          | none => (replaceInPredicate r).map (Option.map fun r' => .predicate l r' op)
  | _ => some none

def replaceInArgs : List Expr → Option (Option (List Expr))
  | [] => some none
  | e :: es =>
      (replaceInPredicate e).bind fun e' =>
        match e' with
        | some e' => some (some (e' :: es))
        | none => (replaceInArgs es).map (Option.map (e :: ·))

end

/-- The predicate of a Selection without the marker, if the marker is found in it. -/
def replaceInSelection (p : Expr) : Option (Option Expr) :=
  if isMarker m p then some (some replacement) else replaceInPredicate m replacement p

end

/-- How a search for a marker ends: in a Selection, whose predicate then changes, or at a null
pointer. -/
inductive SearchResult where
  | notFound
  | found (sel : Nat) (predicate : Expr)
  | crash

/-- What `find_marker_parent` has done: its result and the Selections that it has cast to
Bool_Predicate. -/
structure Search where
  result : SearchResult := .notFound
  badCasts : List BadCast := []

/-- A search that goes on with the next node when nothing has been found. -/
def Search.andThen (s next : Search) : Search :=
  match s.result with
  | .notFound => { next with badCasts := s.badCasts ++ next.badCasts }
  | _ => s

/-- The cast in `find_marker_parent`: when the predicate of a Selection is a Bool_Predicate, the
Selection itself is cast to that class. -/
def selectionCasts (m i : Nat) (p : Expr) : List BadCast :=
  if !isMarker m p && p.isBoolPredicate then [⟨i, .boolPredicate⟩] else []

/-- The search in one Selection. What the badly cast pointer reads as its operator is not NOT,
so that the search goes on in the predicate. -/
def searchSelection (m : Nat) (replacement : Expr) (i : Nat) (p : Expr) : Search where
  result :=
    match replaceInSelection m replacement p with
    | none => .crash
    | some none => .notFound
    | some (some p') => .found i p'
  badCasts := selectionCasts m i p

/-- `RaTree::find_marker_parent` with `replace_subquery_marker`. -/
def findMarkerParent (m : Nat) (replacement : Expr) : RaNode → Search
  | .hole => {}
  | .leaf _ _ => {}
  | .unary i (.selection p) c =>
      (searchSelection m replacement i p).andThen (findMarkerParent m replacement c)
  | .unary _ _ c => findMarkerParent m replacement c
  | .join _ _ l r => (findMarkerParent m replacement l).andThen (findMarkerParent m replacement r)

/-- `sel->predicate = predicate`. -/
def setSelectionPredicate (predicate : Expr) : RaNode → RaNode
  | .selection i _ c => .selection i predicate c
  | t => t

/-- The markers of a pass with their joins: `find_subquery_markers` and `find_joins_by_markers`
on the main tree. -/
def markersJoins (markerTypes : List JoinType) (root : RaNode) : Option (List MarkerJoin) :=
  (findSubqueryMarkers markerTypes root).bind (findJoinsByMarkers root)

/-- One round of the loop over the markers of a pass: the marker must have a join. -/
def markerRound (decorrelate : Nat → Nat → Optimizer Unit) (p : MarkerJoin) : Optimizer Unit := do
  let join ← orCrash p.join
  decorrelate p.marker join

/-- The loops over the markers of a pass, the last one first. -/
def forEachMarker (markerTypes : List JoinType) (decorrelate : Nat → Nat → Optimizer Unit) :
    Optimizer Unit := do
  let root ← getRoot
  let pairs ← orCrash (markersJoins markerTypes root)
  pairs.reverse.forM (markerRound decorrelate)

end SqlOptimizer.Unnesting.Markers
