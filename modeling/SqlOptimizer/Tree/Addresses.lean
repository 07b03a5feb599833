import SqlOptimizer.Tree.Frames

/-!
Trees in which no node occurs twice and all addresses have been given. A new tree at a
position keeps this when it consists of nodes from there and of new ones.
-/

set_option autoImplicit false
set_option relaxedAutoImplicit false

namespace SqlOptimizer.Tree.Addresses

open Algebra.RelationalAlgebra
open Frames

/-- The tree has no node twice, and its addresses have been given. -/
structure Addressed (next : Nat) (t : RaNode) : Prop where
  distinct : Distinct t
  fresh : ∀ i ∈ t.ids, i < next

instance (next : Nat) (t : RaNode) : Decidable (Addressed next t) :=
  have : Decidable (Distinct t) := inferInstanceAs (Decidable t.ids.Nodup)
  decidable_of_iff (Distinct t ∧ ∀ i ∈ t.ids, i < next)
    ⟨fun h => ⟨h.1, h.2⟩, fun h => ⟨h.distinct, h.fresh⟩⟩

section

variable {next next' : Nat} {t : RaNode}

theorem Addressed.mono (h : Addressed next t) (hle : next ≤ next') : Addressed next' t :=
  ⟨h.distinct, fun i hi => Nat.lt_of_lt_of_le (h.fresh i hi) hle⟩

theorem Addressed.at_position {K : List Frame} (h : Addressed next (plug K t)) :
    Addressed next t :=
  ⟨(distinct_plug.mp h.distinct).2.1, fun i hi => h.fresh i (mem_ids_plug.mpr (.inr hi))⟩

/-- Another tree at a position, with nodes from there or new ones. -/
theorem Addressed.plug {K : List Frame} {x : RaNode} (h : Addressed next (plug K t))
    (hle : next ≤ next') (hx : Distinct x)
    (hids : ∀ i ∈ x.ids, i ∈ t.ids ∨ next ≤ i ∧ i < next') : Addressed next' (plug K x) := by
  obtain ⟨hK, -, hdisj⟩ := distinct_plug.mp h.distinct
  refine ⟨distinct_plug.mpr ⟨hK, hx, fun i hi hxi => ?_⟩, fun i hi => ?_⟩
  · rcases hids i hxi with ht | hnew
    · exact hdisj hi ht
    · have hlt := h.fresh i (mem_ids_plug.mpr (.inl hi))
      omega
  · rcases mem_ids_plug.mp hi with hi | hi
    · have hlt := h.fresh i (mem_ids_plug.mpr (.inl hi))
      omega
    · rcases hids i hi with ht | hnew
      · have hlt := h.fresh i (mem_ids_plug.mpr (.inr ht))
        omega
      · exact hnew.2

theorem Addressed.update {i : Nat} {f : RaNode → RaNode} (h : Addressed next t)
    (hle : next ≤ next')
    (hf : ∀ s, Addressed next s → Distinct (f s) ∧
      ∀ k ∈ (f s).ids, k ∈ s.ids ∨ next ≤ k ∧ k < next') :
    Addressed next' (update i f t) := by
  by_cases hi : i ∈ t.ids
  · obtain ⟨s, hs⟩ := Option.isSome_iff_exists.mp (find?_isSome_of_mem hi)
    obtain ⟨hid, K, rfl⟩ := exists_plug_of_find? hs
    rw [update_plug_of_id? h.distinct hid]
    obtain ⟨hd, hids⟩ := hf s h.at_position
    exact h.plug hle hd hids
  · rw [update_eq_self f hi]
    exact h.mono hle

theorem Addressed.find? {i : Nat} {s : RaNode} (h : Addressed next t)
    (hfind : find? i t = some s) : Addressed next s := by
  obtain ⟨-, K, rfl⟩ := exists_plug_of_find? hfind
  exact h.at_position

theorem Addressed.childNodes {c : RaNode} (h : Addressed next t) (hc : c ∈ t.childNodes) :
    Addressed next c := by
  have hframe : ∃ f : Frame, t = f.plug c := by
    cases t with
    | hole => cases hc
    | leaf i op => cases hc
    | unary i op c' =>
      cases c' with
      | hole => cases hc
      | _ => exact ⟨.unary i op, List.mem_singleton.mp hc ▸ rfl⟩
    | join i join l r =>
      have hmem : c = l ∨ c = r := by
        cases l <;> cases r <;> simp_all [RaNode.childNodes]
      rcases hmem with rfl | rfl
      · exact ⟨.left i join r, rfl⟩
      · exact ⟨.right i join l, rfl⟩
  obtain ⟨f, rfl⟩ := hframe
  exact Addressed.at_position (K := [f]) h

end

end SqlOptimizer.Tree.Addresses
