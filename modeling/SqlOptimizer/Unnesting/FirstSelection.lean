import SqlOptimizer.Tree.Addresses
import SqlOptimizer.Unnesting.ExistsIn

/-!
The first Selection of an EXISTS or IN subquery and what the rewriting leaves of it: a
condition without some of its conjuncts, or the tree below it.
-/

set_option autoImplicit false
set_option relaxedAutoImplicit false

namespace SqlOptimizer.Unnesting.FirstSelection

open Algebra.RelationalAlgebra
open Tree.Addresses Tree.Frames Tree.Walks
open Logic.NumberedNames Logic.Triples
open Objects Attributes Markers ExistsIn

/-- The first Selection has a position. -/
theorem exists_plug_of_getFirstSelection {t : RaNode} {i : Nat} {p : Expr}
    (h : getFirstSelection t = some (i, p)) : ∃ K c, t = plug K (.selection i p c) := by
  induction t with
  | hole => cases h
  | leaf j op => cases h
  | unary j op c ih =>
    have hbelow (h : getFirstSelection c = some (i, p)) :
        ∃ K c', .unary j op c = plug K (.selection i p c') := by
      obtain ⟨K, c', rfl⟩ := ih h
      exact ⟨K ++ [.unary j op], c', by simp [Frame.plug]⟩
    cases op with
    | selection p' =>
      cases h
      exact ⟨[], c, rfl⟩
    | _ => exact hbelow h
  | join j join l r ihl ihr =>
    rcases Option.or_eq_some_iff.mp h with hl | ⟨-, hr⟩
    · obtain ⟨K, c', rfl⟩ := ihl hl
      exact ⟨K ++ [.left j join r], c', by simp [Frame.plug]⟩
    · obtain ⟨K, c', rfl⟩ := ihr hr
      exact ⟨K ++ [.right j join l], c', by simp [Frame.plug]⟩

section

variable {relationsAliases : List (String × String)}

theorem getCorrelatingPredicates_predicate {l r : Expr} {op : String}
    {qs : List CorrelatingPredicate}
    (h : getCorrelatingPredicates relationsAliases (.predicate l r op) = some qs) :
    qs = (isCorrelatingPredicate relationsAliases l r op).toList := by
  cases l <;> first | (cases h; done) | (cases h; rfl) | (cases r <;> cases h <;> rfl)

/-- A correlating predicate compares an inner attribute with an outer one, in either order. -/
theorem isCorrelatingPredicate_eq_some {l r : Expr} {op : String} {q : CorrelatingPredicate}
    (h : isCorrelatingPredicate relationsAliases l r op = some q) :
    q.binaryOperator = op ∧ foundRelation relationsAliases q.inner = true ∧
      foundRelation relationsAliases q.outer = false ∧
      (l = .attribute q.inner.1 q.inner.2 ∧ r = .attribute q.outer.1 q.outer.2 ∨
        l = .attribute q.outer.1 q.outer.2 ∧ r = .attribute q.inner.1 q.inner.2) := by
  unfold isCorrelatingPredicate at h
  split at h
  · split at h
    · cases h
    · split at h
      · cases h
      · split at h <;> cases h <;> simp_all
  · cases h

/-- The inner attribute of a correlating predicate belongs to a relation of the subquery. -/
theorem foundRelation_inner {p : Expr} {qs : List CorrelatingPredicate}
    (h : getCorrelatingPredicates relationsAliases p = some qs) {q : CorrelatingPredicate}
    (hq : q ∈ qs) : foundRelation relationsAliases q.inner = true := by
  induction p using Expr.ind generalizing qs with
  | boolPredicate op args ih =>
    replace h : getAllCorrelatingPredicates relationsAliases args = some qs := h
    induction args generalizing qs with
    | nil =>
      cases h
      cases hq
    | cons e es ihes =>
      rw [List.forall_mem_cons] at ih
      simp only [getAllCorrelatingPredicates, Option.bind_eq_some_iff,
        Option.map_eq_some_iff] at h
      obtain ⟨ps, hps, ps', hps', rfl⟩ := h
      rcases List.mem_append.mp hq with hq | hq
      · exact ih.1 hps hq
      · exact ihes ih.2 hq hps'
  | predicate l r op =>
    rw [getCorrelatingPredicates_predicate h] at hq
    exact (isCorrelatingPredicate_eq_some (Option.mem_toList.mp hq)).2.1
  | nullptr => cases h
  | _ =>
    cases h
    cases hq

end

section

variable {f : Frame} {K : List Frame} {sel : Nat} {p : Expr} {c t : RaNode}

/-- The Selection is taken out at its position. -/
theorem removeSelection_plug_iff (hd : Distinct (plug (f :: K) (.selection sel p c))) :
    removeSelection sel (plug (f :: K) (.selection sel p c)) = some t ↔
      (∃ i op, f = .unary i op) ∧ c.isHole = false ∧ t = plug (f :: K) c := by
  have hparent := getNodeParent_plug hd (rfl : (RaNode.selection sel p c).id? = some sel)
  have hfind := find?_plug_of_id? hd (rfl : (RaNode.selection sel p c).id? = some sel)
  rw [removeSelection, hparent, hfind]
  cases f with
  | unary i op =>
    have hupdate : update i (setOnlyChild c) (plug (.unary i op :: K) (.selection sel p c)) =
        plug (.unary i op :: K) c :=
      update_plug_of_id? (plug_cons (.unary i op) K _ ▸ hd) rfl _
    simp only [Frame.plug, Option.ite_none_left_eq_some, Option.some.injEq, Bool.not_eq_true]
    constructor
    · rintro ⟨hc, rfl⟩
      exact ⟨⟨i, op, rfl⟩, hc, hupdate⟩
    · rintro ⟨-, hc, rfl⟩
      exact ⟨hc, hupdate⟩
  | left i join r => simp [Frame.plug]
  | right i join l => simp [Frame.plug]

end

/-- The Selection can be taken out: it is no child of a join. -/
def Removable (sel : Nat) (subquery : RaNode) : Prop := (removeSelection sel subquery).isSome = true

instance (sel : Nat) (subquery : RaNode) : Decidable (Removable sel subquery) :=
  inferInstanceAs (Decidable (_ = true))

/-- What is left of the Selection over `c`: its condition, or nothing. -/
def leftOver (sel : Nat) (c : RaNode) : Option Expr → RaNode
  | none => c
  | some e => .selection sel e c

section

variable {K : List Frame} {sel i : Nat} {pr : Projection} {p : Expr} {c t : RaNode}

/-- The Selection is taken out below a projection. -/
private theorem removeSelection_projection_iff
    (hd : Distinct (.projection i pr (plug K (.selection sel p c)))) :
    removeSelection sel (.projection i pr (plug K (.selection sel p c))) = some t ↔
      ((∀ f ∈ K.head?, ∃ i op, f = .unary i op) ∧ c.isHole = false) ∧
        t = .projection i pr (plug K c) := by
  have htop (x : RaNode) : RaNode.projection i pr (plug K x) =
      plug (K ++ [.unary i (.projection pr)]) x := by
    simp [Frame.plug]
  rw [htop] at hd ⊢
  rw [htop]
  cases K with
  | nil =>
    rw [List.nil_append, removeSelection_plug_iff hd]
    simp
  | cons f K =>
    rw [List.cons_append] at hd ⊢
    rw [removeSelection_plug_iff hd]
    simp [and_assoc]

theorem removable_iff (hd : Distinct (.projection i pr (plug K (.selection sel p c)))) :
    Removable sel (.projection i pr (plug K (.selection sel p c))) ↔
      (∀ f ∈ K.head?, ∃ i op, f = .unary i op) ∧ c.isHole = false := by
  rw [Removable, Option.isSome_iff_exists]
  simp only [removeSelection_projection_iff hd, exists_eq_right]

/-- The CTE body, with what is left of the first Selection in its place. -/
theorem removeCorrelatingPredicates_iff {n m : Nat} {pr' : Projection}
    (hd : Distinct (.projection i pr (plug K (.selection sel p c))))
    (hm : m ∉ (plug K (.selection sel p c)).ids) :
    removeCorrelatingPredicates sel p n (.projection m pr' (plug K (.selection sel p c))) = some t ↔
      ∃ rest, remainingPredicate p n = some rest ∧
        (rest = none → Removable sel (.projection i pr (plug K (.selection sel p c)))) ∧
        t = .projection m pr' (plug K (leftOver sel c rest)) := by
  have hbody : Distinct (plug K (.selection sel p c)) := (List.nodup_cons.mp hd).2
  have hd' : Distinct (.projection m pr' (plug K (.selection sel p c))) :=
    List.nodup_cons.mpr ⟨hm, hbody⟩
  have hne : m ≠ sel := by
    rintro rfl
    exact hm (mem_ids_plug.mpr (.inr List.mem_cons_self))
  rw [removeCorrelatingPredicates, Option.bind_eq_some_iff]
  refine exists_congr fun rest => and_congr_right fun _ => ?_
  cases rest with
  | none =>
    rw [removable_iff hd]
    simpa [leftOver] using removeSelection_projection_iff hd'
  | some e =>
    have hupdate : update sel (setSelectionPredicate e)
        (.projection m pr' (plug K (.selection sel p c))) =
          .projection m pr' (plug K (.selection sel e c)) := by
      rw [update, if_neg hne, update_plug_of_id? hbody rfl]
      rfl
    simp [leftOver, hupdate, eq_comm]

end

end SqlOptimizer.Unnesting.FirstSelection
