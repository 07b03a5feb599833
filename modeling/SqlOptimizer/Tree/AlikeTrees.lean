import SqlOptimizer.Tree.Frames

/-!
Trees with the same nodes, and nodes that stand at one place. The exchange of such a node leaves
the nodes that are not above it as they are.
-/

set_option autoImplicit false
set_option relaxedAutoImplicit false

namespace SqlOptimizer.Tree.AlikeTrees

open Algebra.RelationalAlgebra
open Frames

/-- The same nodes at the same places, with operators that are related. -/
inductive Alike (U : UnaryOp → UnaryOp → Prop) (J : Join → Join → Prop) : RaNode → RaNode → Prop
  | hole : Alike U J .hole .hole
  | leaf (i : Nat) (op op' : LeafOp) : Alike U J (.leaf i op) (.leaf i op')
  | unary (i : Nat) {op op' : UnaryOp} {c c' : RaNode} :
      U op op' → Alike U J c c' → Alike U J (.unary i op c) (.unary i op' c')
  | join (i : Nat) {join join' : Join} {l l' r r' : RaNode} :
      J join join' → Alike U J l l' → Alike U J r r' →
        Alike U J (.join i join l r) (.join i join' l' r')

section

variable {U : UnaryOp → UnaryOp → Prop} {J : Join → Join → Prop} {t t' t'' : RaNode} {i : Nat}
  {f : RaNode → RaNode}

theorem Alike.refl (hU : ∀ op, U op op) (hJ : ∀ join, J join join) (t : RaNode) :
    Alike U J t t := by
  induction t with
  | hole => exact .hole
  | leaf i op => exact .leaf i op op
  | unary i op c ih => exact .unary i (hU op) ih
  | join i join l r ihl ihr => exact .join i (hJ join) ihl ihr

theorem Alike.trans (hU : ∀ a b c, U a b → U b c → U a c) (hJ : ∀ a b c, J a b → J b c → J a c)
    (h : Alike U J t t') (h' : Alike U J t' t'') : Alike U J t t'' := by
  induction h generalizing t'' with
  | hole => exact h'
  | leaf i op op' =>
    cases h' with
    | leaf _ _ op'' => exact .leaf i op op''
  | unary i hop _ ih =>
    cases h' with
    | unary _ hop' hc => exact .unary i (hU _ _ _ hop hop') (ih hc)
  | join i hjoin _ _ ihl ihr =>
    cases h' with
    | join _ hjoin' hl hr => exact .join i (hJ _ _ _ hjoin hjoin') (ihl hl) (ihr hr)

theorem Alike.ids_eq (h : Alike U J t t') : t'.ids = t.ids := by
  induction h with
  | hole => rfl
  | leaf i op op' => rfl
  | unary i _ _ ih => rw [RaNode.ids, RaNode.ids, ih]
  | join i _ _ _ ihl ihr => rw [RaNode.ids, RaNode.ids, ihl, ihr]

/-- What is found in one of the trees is found in the other one. -/
theorem Alike.find? (h : Alike U J t t') (x : Nat) :
    Option.Rel (Alike U J) (find? x t) (find? x t') := by
  induction h with
  | hole => exact .none
  | leaf i op op' =>
    rw [Frames.find?, Frames.find?]
    split
    · exact .some (.leaf i op op')
    · exact .none
  | unary i hop hc ih =>
    rw [Frames.find?, Frames.find?]
    split
    · exact .some (.unary i hop hc)
    · exact ih
  | @join i join join' l l' r r' hjoin hl hr ihl ihr =>
    rw [Frames.find?, Frames.find?]
    split
    · exact .some (.join i hjoin hl hr)
    · generalize Frames.find? x l = o at ihl ⊢
      generalize Frames.find? x l' = o' at ihl ⊢
      cases ihl with
      | none => exact ihr
      | some h => exact .some h

/-- A node of the second tree is found in the first one. -/
theorem Alike.of_find? (h : Alike U J t t') {x : Nat} {u' : RaNode}
    (hu : Frames.find? x t' = some u') : ∃ u, Frames.find? x t = some u ∧ Alike U J u u' := by
  have hrel := h.find? x
  rw [hu] at hrel
  generalize Frames.find? x t = o at hrel ⊢
  cases hrel with
  | some hu => exact ⟨_, rfl, hu⟩

theorem Alike.update (hU : ∀ op, U op op) (hJ : ∀ join, J join join)
    (hf : ∀ t, Alike U J t (f t)) (i : Nat) (t : RaNode) : Alike U J t (update i f t) := by
  induction t with
  | hole => exact .hole
  | leaf j op =>
    rw [Frames.update]
    split
    · exact hf _
    · exact .leaf j op op
  | unary j op c ih =>
    rw [Frames.update]
    split
    · exact hf _
    · exact .unary j (hU op) ih
  | join j join l r ihl ihr =>
    rw [Frames.update]
    split
    · exact hf _
    · exact .join j (hJ join) ihl ihr

end

section

variable {t u w : RaNode} {K : List Frame} {x y i : Nat} {f : RaNode → RaNode}

theorem mem_ids_of_find? (h : find? x t = some u) : x ∈ t.ids := by
  by_contra hmem
  rw [find?_eq_none hmem] at h
  cases h

theorem ids_subset_of_find? (h : find? x t = some u) : u.ids ⊆ t.ids := by
  obtain ⟨-, K, rfl⟩ := exists_plug_of_find? h
  exact fun i hi => mem_ids_plug.mpr (.inr hi)

/-- The place of a node that stands at one place. -/
theorem exists_plug_of_count (hone : t.ids.count x = 1) (h : find? x t = some u) :
    ∃ K, t = plug K u ∧ x ∉ contextIds K ∧ u.ids.count x = 1 := by
  obtain ⟨hid, K, rfl⟩ := exists_plug_of_find? h
  have hmem := List.count_pos_iff.mpr (id?_mem_ids hid)
  rw [(ids_plug K u).count_eq, List.count_append] at hone
  exact ⟨K, rfl, List.count_eq_zero.mp (by omega), by omega⟩

theorem mem_ids_update (hone : t.ids.count x ≤ 1) (h : i ∈ (update x f t).ids) :
    i ∈ t.ids ∨ ∃ u, find? x t = some u ∧ i ∈ (f u).ids := by
  induction t with
  | hole => cases h
  | leaf j op =>
    rw [update] at h
    split at h
    · next hj => exact .inr ⟨_, find?_of_id? (congrArg some hj), h⟩
    · exact .inl h
  | unary j op c ih =>
    rw [update] at h
    split at h
    · next hj => exact .inr ⟨_, find?_of_id? (congrArg some hj), h⟩
    · next hj =>
      rw [RaNode.ids, List.count_cons_of_ne hj] at hone
      rcases List.mem_cons.mp h with rfl | h
      · exact .inl List.mem_cons_self
      · rw [find?, if_neg hj]
        exact (ih hone h).imp_left (List.mem_cons_of_mem _)
  | join j join l r ihl ihr =>
    rw [update] at h
    split at h
    · next hj => exact .inr ⟨_, find?_of_id? (congrArg some hj), h⟩
    · next hj =>
      rw [RaNode.ids, List.count_cons_of_ne hj, List.count_append] at hone
      rw [find?, if_neg hj]
      rcases List.mem_cons.mp h with rfl | h
      · exact .inl List.mem_cons_self
      · rcases List.mem_append.mp h with h | h
        · rcases ihl (by omega) h with h | ⟨u, hu, h⟩
          · exact .inl (List.mem_cons_of_mem _ (List.mem_append_left _ h))
          · exact .inr ⟨u, by rw [hu]; rfl, h⟩
        · rcases ihr (by omega) h with h | ⟨u, hu, h⟩
          · exact .inl (List.mem_cons_of_mem _ (List.mem_append_right _ h))
          · have hr := List.count_pos_iff.mpr (mem_ids_of_find? hu)
            have hl : find? x l = none := find?_eq_none (List.count_eq_zero.mp (by omega))
            exact .inr ⟨u, by rw [hl]; exact hu, h⟩

/-- The exchange of a node does not reach a node that is neither above it nor below it. -/
theorem find?_update_other (hone : t.ids.count x ≤ 1) (hw : find? y t = some w) (hx : x ∉ w.ids)
    (hu : ∀ u, find? x t = some u → y ∉ u.ids ∧ y ∉ (f u).ids) :
    find? y (update x f t) = some w := by
  induction t with
  | hole => cases hw
  | leaf j op =>
    rw [find?, Option.ite_none_right_eq_some] at hw
    obtain ⟨hj, hw⟩ := hw
    cases hw
    rw [update_eq_self f hx, find?, if_pos hj]
  | unary j op c ih =>
    by_cases hj : j = y
    · rw [find?, if_pos hj] at hw
      cases hw
      rw [update_eq_self f hx, find?, if_pos hj]
    · rw [find?, if_neg hj] at hw
      by_cases hjx : j = x
      · have hself := (hu _ (find?_of_id? (congrArg some hjx))).1
        exact absurd (List.mem_cons_of_mem _ (mem_ids_of_find? hw)) hself
      · rw [RaNode.ids, List.count_cons_of_ne hjx] at hone
        rw [update, if_neg hjx, find?, if_neg hj]
        exact ih hone hw fun u hu' => hu u (by rw [find?, if_neg hjx]; exact hu')
  | join j join l r ihl ihr =>
    by_cases hj : j = y
    · rw [find?, if_pos hj] at hw
      cases hw
      rw [update_eq_self f hx, find?, if_pos hj]
    · have hmem : y ∈ (RaNode.join j join l r).ids := mem_ids_of_find? hw
      rw [find?, if_neg hj] at hw
      by_cases hjx : j = x
      · exact absurd hmem (hu _ (find?_of_id? (congrArg some hjx))).1
      · rw [RaNode.ids, List.count_cons_of_ne hjx, List.count_append] at hone
        have hleft (u : RaNode) (h : find? x l = some u) : y ∉ u.ids ∧ y ∉ (f u).ids :=
          hu u (by rw [find?, if_neg hjx, h]; rfl)
        have hright (u : RaNode) (h : find? x r = some u) : y ∉ u.ids ∧ y ∉ (f u).ids := by
          have hr := List.count_pos_iff.mpr (mem_ids_of_find? h)
          have hl : find? x l = none := find?_eq_none (List.count_eq_zero.mp (by omega))
          exact hu u (by rw [find?, if_neg hjx, hl]; exact h)
        rw [update, if_neg hjx, find?, if_neg hj]
        rcases Option.or_eq_some_iff.mp hw with hw | ⟨hnone, hw⟩
        · rw [ihl (by omega) hw hleft]
          rfl
        · have hl : y ∉ (update x f l).ids := by
            intro hmem
            rcases mem_ids_update (by omega) hmem with hold | ⟨u, hfind, hnew⟩
            · have hsome := find?_isSome_of_mem hold
              rw [hnone] at hsome
              cases hsome
            · exact (hleft u hfind).2 hnew
          rw [find?_eq_none hl]
          exact ihr (by omega) hw hright

/-- The address of a node comes first. -/
theorem ids_of_id? (h : t.id? = some x) : t.ids = x :: t.ids.tail := by
  cases t <;> cases h <;> rfl

end

/-- Nodes that stand at one place each, none of them below another one. -/
structure Spread (xs : List Nat) (t : RaNode) : Prop where
  nodup : xs.Nodup
  once : ∀ x ∈ xs, t.ids.count x = 1
  apart : ∀ x ∈ xs, ∀ u, find? x t = some u → ∀ y ∈ xs, y ∉ u.ids.tail

section

variable {t u u' : RaNode} {xs new : List Nat} {x n : Nat} {f : RaNode → RaNode}

/-- Spread nodes are so in a tree with the same nodes. -/
theorem Spread.of_alike {U : UnaryOp → UnaryOp → Prop} {J : Join → Join → Prop} {t' : RaNode}
    (h : Spread xs t) (halike : Alike U J t t') : Spread xs t' := by
  have hids := halike.ids_eq
  refine ⟨h.nodup, fun x hx => hids ▸ h.once x hx, fun x hx u' hu' y hy => ?_⟩
  obtain ⟨u, hu, hnodes⟩ := halike.of_find? hu'
  rw [hnodes.ids_eq]
  exact h.apart x hx u hu y hy

theorem Spread.perm {ys : List Nat} (h : Spread xs t) (hperm : xs.Perm ys) : Spread ys t :=
  ⟨hperm.nodup_iff.mp h.nodup, fun x hx => h.once x (hperm.mem_iff.mpr hx),
    fun x hx u hu y hy => h.apart x (hperm.mem_iff.mpr hx) u hu y (hperm.mem_iff.mpr hy)⟩

variable (h : Spread (x :: xs) t) (hfresh : ∀ i ∈ t.ids, i < n) (hu : find? x t = some u)
  (hf : f u = u') (hnew : ∀ y ∈ new, n ≤ y) (hids : ∀ i ∈ u'.ids, i ∈ u.ids ∨ n ≤ i)
  (hu' : Spread (x :: new) u')

include h hu in
/-- The others are not at the place of a spread node. -/
theorem Spread.notMem {y : Nat} (hy : y ∈ xs) : y ∉ u.ids := by
  rw [ids_of_id? (exists_plug_of_find? hu).1, List.mem_cons, not_or]
  refine ⟨?_, h.apart x List.mem_cons_self u hu y (List.mem_cons_of_mem x hy)⟩
  rintro rfl
  exact (List.nodup_cons.mp h.nodup).1 hy

include h hfresh hu hf hids in
/-- The others are found as before when a spread node is exchanged. -/
theorem Spread.find?_exchange {y : Nat} (hy : y ∈ xs) : find? y (update x f t) = find? y t := by
  have hone := h.once y (List.mem_cons_of_mem x hy)
  have hmem : y ∈ t.ids := List.count_pos_iff.mp (by omega)
  obtain ⟨w, hw⟩ := Option.isSome_iff_exists.mp (find?_isSome_of_mem hmem)
  have hx : x ∉ w.ids := by
    have hperm : (x :: xs).Perm (y :: x :: xs.erase y) :=
      ((List.perm_cons_erase hy).cons x).trans (List.Perm.swap y x _)
    exact (h.perm hperm).notMem hw List.mem_cons_self
  rw [hw]
  refine find?_update_other (Nat.le_of_eq (h.once x List.mem_cons_self)) hw hx fun v hv => ?_
  obtain rfl := Option.some.inj (hu.symm.trans hv)
  have hnot := h.notMem hu hy
  refine ⟨hnot, fun hin => ?_⟩
  rcases hids y (hf ▸ hin) with hin | hin
  · exact hnot hin
  · exact absurd (hfresh y hmem) (by omega)

include h hfresh hu hf hnew in
/-- The exchanged node and the new ones are found in the new tree at its place. -/
theorem Spread.find?_new {y : Nat} (hy : y ∈ x :: new) : find? y (update x f t) = find? y u' := by
  obtain ⟨K, rfl, hK, -⟩ := exists_plug_of_count (h.once x List.mem_cons_self) hu
  have hout : y ∉ contextIds K := by
    rcases List.mem_cons.mp hy with rfl | hy
    · exact hK
    · intro hmem
      exact absurd (hfresh y (mem_ids_plug.mpr (.inl hmem))) (Nat.not_lt.mpr (hnew y hy))
  rw [update_plug hK, update_of_id? f (exists_plug_of_find? hu).1, hf, find?_plug hout]

include h hfresh hu hf hnew hids hu' in
/-- The exchange of a spread node for a tree with new nodes that are spread in it. -/
theorem Spread.exchange : Spread (x :: (xs ++ new)) (update x f t) := by
  have hother {y : Nat} (hy : y ∈ xs) := h.find?_exchange hfresh hu hf hids hy
  have hhere {y : Nat} (hy : y ∈ x :: new) := h.find?_new hfresh hu hf hnew hy
  have hlt {y : Nat} (hy : y ∈ xs) : y < n := by
    have hone := h.once y (List.mem_cons_of_mem x hy)
    exact hfresh y (List.count_pos_iff.mp (by omega))
  have hnot {y : Nat} (hy : y ∈ xs) : y ∉ u'.ids := by
    intro hin
    rcases hids y hin with hin | hin
    · exact h.notMem hu hy hin
    · exact absurd (hlt hy) (by omega)
  have hmem {y : Nat} (hy : y ∈ x :: (xs ++ new)) : y ∈ xs ∨ y ∈ x :: new := by
    simp only [List.mem_cons, List.mem_append] at hy ⊢
    tauto
  refine ⟨?_, fun y hy => ?_, fun y hy w hw z hz => ?_⟩
  · have hx := List.nodup_cons.mp h.nodup
    have hx' := List.nodup_cons.mp hu'.nodup
    refine List.nodup_cons.mpr ⟨by simp [hx.1, hx'.1], List.nodup_append'.mpr ⟨hx.2, hx'.2, ?_⟩⟩
    intro y hy hy'
    exact absurd (hlt hy) (Nat.not_lt.mpr (hnew y hy'))
  · obtain ⟨K, rfl, hK, -⟩ := exists_plug_of_count (h.once x List.mem_cons_self) hu
    rw [update_plug hK, update_of_id? f (exists_plug_of_find? hu).1, hf,
      (ids_plug K u').count_eq, List.count_append]
    rcases hmem hy with hy | hy
    · have hone := h.once y (List.mem_cons_of_mem x hy)
      rw [(ids_plug K u).count_eq, List.count_append,
        List.count_eq_zero.mpr (h.notMem hu hy)] at hone
      rw [List.count_eq_zero.mpr (hnot hy)]
      exact hone
    · have hout : y ∉ contextIds K := by
        rcases List.mem_cons.mp hy with rfl | hy
        · exact hK
        · intro hmem
          exact absurd (hfresh y (mem_ids_plug.mpr (.inl hmem))) (Nat.not_lt.mpr (hnew y hy))
      rw [List.count_eq_zero.mpr hout, hu'.once y hy]
  · rcases hmem hy with hy | hy
    · rw [hother hy] at hw
      have hold := h.apart y (List.mem_cons_of_mem x hy) w hw
      rcases hmem hz with hz | hz
      · exact hold z (List.mem_cons_of_mem x hz)
      · rcases List.mem_cons.mp hz with rfl | hz
        · exact hold z List.mem_cons_self
        · intro hin
          exact absurd (hfresh z (ids_subset_of_find? hw (List.mem_of_mem_tail hin)))
            (Nat.not_lt.mpr (hnew z hz))
    · rw [hhere hy] at hw
      rcases hmem hz with hz | hz
      · exact fun hin => hnot hz (ids_subset_of_find? hw (List.mem_of_mem_tail hin))
      · exact hu'.apart y hy w hw z hz

end

end SqlOptimizer.Tree.AlikeTrees
