import Mathlib.Data.Multiset.Bind
import SqlOptimizer.Logic.NestedLoops

/-!
A dependent join computes its right side once for every left element. It can change places with a
filter, and with a join of which only one side depends on the left element.
-/

set_option autoImplicit false
set_option relaxedAutoImplicit false

namespace SqlOptimizer.Logic.DependentJoins

open NestedLoops

variable {δ α β γ γ' κ : Type}

/-- The right side of every left element, with the left element put to it. -/
def eachWith (combine : δ → α → γ) (outer : List δ) (r : δ → List α) : List γ :=
  outer.flatMap fun d => (r d).map (combine d)

theorem dependentJoin_true (combine : δ → α → γ) (outer : List δ) (r : δ → List α) :
    dependentJoin combine (fun _ => true) outer r = eachWith combine outer r := by
  refine List.flatMap_congr fun d _ => ?_
  exact List.filter_eq_self.mpr fun _ _ => rfl

section

variable {outer : List δ}

/-- A filter above a dependent join filters the right sides. -/
theorem filter_eachWith {combine : δ → α → γ} {p : γ → Bool} {q : δ → α → Bool}
    {r : δ → List α} (h : ∀ d ∈ outer, ∀ a ∈ r d, p (combine d a) = q d a) :
    (eachWith combine outer r).filter p = eachWith combine outer fun d => (r d).filter (q d) := by
  rw [eachWith, List.filter_flatMap]
  refine List.flatMap_congr fun d hd => ?_
  rw [List.filter_map]
  exact congrArg _ (List.filter_congr fun a ha => h d hd a ha)

variable {join : α → β → γ} {joinAbove : κ → β → γ'} {withLeft : δ → α → κ} {withJoined : δ → γ → γ'}
  {on : γ' → Bool} {onFor : δ → γ → Bool} {l : δ → List α} {r : List β}

private theorem map_matching (hjoin : ∀ d ∈ outer, ∀ a ∈ l d, ∀ b,
      withJoined d (join a b) = joinAbove (withLeft d a) b)
    (hon : ∀ d ∈ outer, ∀ a ∈ l d, ∀ b ∈ r,
      onFor d (join a b) = on (joinAbove (withLeft d a) b))
    {d : δ} (hd : d ∈ outer) {a : α} (ha : a ∈ l d) :
    (matching join (onFor d) r a).map (withJoined d) =
      matching joinAbove on r (withLeft d a) := by
  have hmap : (r.map (joinAbove (withLeft d a))) = (r.map (join a)).map (withJoined d) := by
    rw [List.map_map]
    exact List.map_congr_left fun b _ => (hjoin d hd a ha b).symm
  rw [matching, matching, hmap, List.filter_map (f := withJoined d)]
  refine congrArg _ (List.filter_congr fun c hc => ?_)
  obtain ⟨b, hb, rfl⟩ := List.mem_map.mp hc
  rw [Function.comp_apply, hjoin d hd a ha b]
  exact hon d hd a ha b hb

/-- A dependent join above an inner join of which the left side depends on the left element. -/
theorem eachWith_innerJoin (hjoin : ∀ d ∈ outer, ∀ a ∈ l d, ∀ b,
      withJoined d (join a b) = joinAbove (withLeft d a) b)
    (hon : ∀ d ∈ outer, ∀ a ∈ l d, ∀ b ∈ r,
      onFor d (join a b) = on (joinAbove (withLeft d a) b)) :
    eachWith withJoined outer (fun d => innerJoin join (onFor d) (l d) r) =
      innerJoin joinAbove on (eachWith withLeft outer l) r := by
  rw [eachWith, innerJoin, eachWith, List.flatMap_assoc]
  refine List.flatMap_congr fun d hd => ?_
  rw [innerJoin, List.map_flatMap, List.flatMap_map]
  exact List.flatMap_congr fun a ha => map_matching hjoin hon hd ha

/-- The same for a left join: an element without a match is padded on both ways. -/
theorem eachWith_leftJoin {pad : α → γ} {padAbove : κ → γ'} (hjoin : ∀ d ∈ outer, ∀ a ∈ l d, ∀ b,
      withJoined d (join a b) = joinAbove (withLeft d a) b)
    (hon : ∀ d ∈ outer, ∀ a ∈ l d, ∀ b ∈ r,
      onFor d (join a b) = on (joinAbove (withLeft d a) b))
    (hpad : ∀ d ∈ outer, ∀ a ∈ l d, withJoined d (pad a) = padAbove (withLeft d a)) :
    eachWith withJoined outer (fun d => leftJoin join pad (onFor d) (l d) r) =
      leftJoin joinAbove padAbove on (eachWith withLeft outer l) r := by
  rw [eachWith, leftJoin, eachWith, List.flatMap_assoc]
  refine List.flatMap_congr fun d hd => ?_
  rw [leftJoin, List.map_flatMap, List.flatMap_map]
  refine List.flatMap_congr fun a ha => ?_
  rw [← map_matching hjoin hon hd ha, List.isEmpty_map]
  split
  · rw [List.map_singleton, hpad d hd a ha]
  · rfl

/-- A dependent join above an inner join of which the right side depends on the left element: the
combinations are the same in another order. -/
theorem eachWith_innerJoin_right {withRight : δ → β → κ} {joinAbove : α → κ → γ'} {ι : Type}
    {view : γ' → ι} {l : List α} {r : δ → List β}
    (hjoin : ∀ d ∈ outer, ∀ a ∈ l, ∀ b ∈ r d,
      view (withJoined d (join a b)) = view (joinAbove a (withRight d b)))
    (hon : ∀ d ∈ outer, ∀ a ∈ l, ∀ b ∈ r d,
      onFor d (join a b) = on (joinAbove a (withRight d b))) :
    ((eachWith withJoined outer fun d => innerJoin join (onFor d) l (r d)).map view).Perm
      ((innerJoin joinAbove on l (eachWith withRight outer r)).map view) := by
  have hmatching {d : δ} (hd : d ∈ outer) {a : α} (ha : a ∈ l) :
      ((matching join (onFor d) (r d) a).map (withJoined d)).map view =
        (((r d).map fun b => joinAbove a (withRight d b)).filter on).map view := by
    rw [matching, List.filter_map, List.filter_map, List.map_map, List.map_map, List.map_map]
    have hfilter : (r d).filter (onFor d ∘ join a) =
        (r d).filter (on ∘ fun b => joinAbove a (withRight d b)) :=
      List.filter_congr fun b hb => hon d hd a ha b hb
    rw [hfilter]
    exact List.map_congr_left fun b hb => hjoin d hd a ha b (List.mem_filter.mp hb).1
  have hleft : (eachWith withJoined outer fun d => innerJoin join (onFor d) l (r d)).map view =
      outer.flatMap fun d => l.flatMap fun a =>
        (((r d).map fun b => joinAbove a (withRight d b)).filter on).map view := by
    rw [eachWith, List.map_flatMap]
    refine List.flatMap_congr fun d hd => ?_
    rw [innerJoin, List.map_flatMap, List.map_flatMap]
    exact List.flatMap_congr fun a ha => hmatching hd ha
  have hright : (innerJoin joinAbove on l (eachWith withRight outer r)).map view =
      l.flatMap fun a => outer.flatMap fun d =>
        (((r d).map fun b => joinAbove a (withRight d b)).filter on).map view := by
    rw [innerJoin, List.map_flatMap]
    refine List.flatMap_congr fun a _ => ?_
    rw [matching, eachWith, List.map_flatMap, List.filter_flatMap, List.map_flatMap]
    refine List.flatMap_congr fun d _ => ?_
    rw [List.map_map]
    rfl
  rw [hleft, hright, ← Multiset.coe_eq_coe, ← Multiset.coe_bind, ← Multiset.coe_bind]
  have hcomm := Multiset.bind_bind (outer : Multiset δ) (l : Multiset α)
    (f := fun d a => ((((r d).map fun b => joinAbove a (withRight d b)).filter on).map view :
      Multiset ι))
  simpa only [Multiset.coe_bind] using hcomm

end

end SqlOptimizer.Logic.DependentJoins
