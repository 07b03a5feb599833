import SqlOptimizer.Logic.NestedLoops

/-!
The join of a list with the classes of another one. A left element that can only match the class of
one key gets what it would get from the elements with that key.
-/

set_option autoImplicit false
set_option relaxedAutoImplicit false

namespace SqlOptimizer.Logic.GroupedJoins

open NestedLoops

variable {α β γ δ κ : Type} [DecidableEq κ]

/-- The elements with the key. -/
def withKey (key : α → κ) (k : κ) (l : List α) : List α := l.filter fun a => key a = k

variable {key : α → κ} {k : κ} {l : List α}

theorem mem_withKey {a : α} : a ∈ withKey key k l ↔ a ∈ l ∧ key a = k := by
  simp [withKey]

theorem withKey_ne_nil : withKey key k l ≠ [] ↔ k ∈ l.map key := by
  rw [List.mem_map]
  constructor
  · intro h
    obtain ⟨a, ha⟩ := List.exists_mem_of_ne_nil _ h
    exact ⟨a, mem_withKey.mp ha⟩
  · rintro ⟨a, ha⟩
    exact List.ne_nil_of_mem (mem_withKey.mpr ha)

theorem groups_eq_map (key : α → κ) (l : List α) :
    groups key l = (l.map key).dedup.map fun k => withKey key k l := rfl

/-- All classes but one are ruled out. -/
theorem filter_groups {p : List α → Bool}
    (h : ∀ k' ∈ l.map key, p (withKey key k' l) = true → k' = k) :
    (groups key l).filter p =
      if withKey key k l ≠ [] ∧ p (withKey key k l) = true then [withKey key k l] else [] := by
  have hkeys : (l.map key).dedup.filter (fun k' => p (withKey key k' l)) =
      if withKey key k l ≠ [] ∧ p (withKey key k l) = true then [k] else [] := by
    have hnodup := (l.map key).nodup_dedup.filter fun k' => p (withKey key k' l)
    have hmem (k' : κ) : k' ∈ (l.map key).dedup.filter (fun k' => p (withKey key k' l)) ↔
        k' = k ∧ withKey key k l ≠ [] ∧ p (withKey key k l) = true := by
      rw [List.mem_filter, List.mem_dedup, withKey_ne_nil]
      constructor
      · rintro ⟨hk', hp⟩
        obtain rfl := h k' hk' hp
        exact ⟨rfl, hk', hp⟩
      · rintro ⟨rfl, hk', hp⟩
        exact ⟨hk', hp⟩
    split
    · next hk =>
      refine List.perm_singleton.mp ((List.perm_ext_iff_of_nodup hnodup (by simp)).mpr fun k' => ?_)
      rw [hmem, List.mem_singleton]
      exact and_iff_left hk
    · next hk =>
      refine List.eq_nil_iff_forall_not_mem.mpr fun k' hk' => hk ((hmem k').mp hk').2
  rw [groups_eq_map, List.filter_map]
  change ((l.map key).dedup.filter fun k' => p (withKey key k' l)).map _ = _
  rw [hkeys]
  split <;> rfl

/-- What a left element gets from the classes, each seen through `f`. -/
theorem matching_groups {combine : β → δ → γ} {on : γ → Bool} {f : List α → δ} {b : β}
    (h : ∀ k' ∈ l.map key, on (combine b (f (withKey key k' l))) = true → k' = k) :
    matching combine on ((groups key l).map f) b =
      if withKey key k l ≠ [] ∧ on (combine b (f (withKey key k l))) = true then
        [combine b (f (withKey key k l))]
      else [] := by
  rw [matching, List.map_map, List.filter_map]
  change ((groups key l).filter fun g => on (combine b (f g))).map _ = _
  rw [filter_groups h]
  split <;> rfl

end SqlOptimizer.Logic.GroupedJoins
