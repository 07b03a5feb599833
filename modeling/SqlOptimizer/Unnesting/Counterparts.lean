import SqlOptimizer.Semantics.RowsAbove
import SqlOptimizer.Unnesting.Decouple

/-!
What `can_decouple` finds: for every attribute of D that is used above the dependent join, the
other side of the first equality for it on the way up.
-/

set_option autoImplicit false
set_option relaxedAutoImplicit false

namespace SqlOptimizer.Unnesting.Counterparts

open Algebra.RelationalAlgebra
open Tree.Frames Tree.Walks
open Logic.ThreeValued
open Semantics.Evaluation Semantics.References Semantics.RowsAbove
open Objects Attributes Markers Decouple

section

variable (name : String)

mutual

/-- The attribute that a condition equates with the attribute `name` of D. -/
def counterpart : Expr → Option AttributeRef
  | .boolPredicate .and args => anyCounterpart args
  | .predicate (.attribute l la) (.attribute r ra) op =>
      if op = "=" then
        if la = "d" ∧ l = name ∧ ra ≠ "d" then some (r, ra)
        else if ra = "d" ∧ r = name ∧ la ≠ "d" then some (l, la)
        else none
      else none
  | _ => none

def anyCounterpart : List Expr → Option AttributeRef
  | [] => none
  | e :: es => (counterpart e).or (anyCounterpart es)

end

/-- The rename map with the entry for the attribute. -/
def withCounterpart (m : RenameMap) (b : AttributeRef) : RenameMap := m.set "d" name b.2 b.1

theorem hasEquivalentAttribute_eq (e : Expr) (m : RenameMap) :
    hasEquivalentAttribute name e m = (counterpart name e).map (withCounterpart name m) := by
  induction e using Expr.ind with
  | boolPredicate op args ih =>
    cases op with
    | and =>
      rw [hasEquivalentAttribute, counterpart]
      induction args with
      | nil => rfl
      | cons e es ihes =>
        rw [List.forall_mem_cons] at ih
        rw [anyEquivalentAttribute, anyCounterpart, ih.1, ihes ih.2, Option.map_or]
    | _ => rfl
  | predicate l r op =>
    cases l with
    | «attribute» n a =>
      cases r with
      | «attribute» n' a' =>
        rw [hasEquivalentAttribute, counterpart]
        split
        · split
          · rfl
          · split <;> rfl
        · rfl
      | _ => rfl
    | _ => rfl
  | _ => rfl

theorem findSome?_hasEquivalentAttribute (predicates : List Expr) (m : RenameMap) :
    (predicates.findSome? fun p => hasEquivalentAttribute name p m) =
      (predicates.findSome? (counterpart name)).map (withCounterpart name m) := by
  induction predicates with
  | nil => rfl
  | cons p ps ih =>
    rw [List.findSome?_cons, List.findSome?_cons, hasEquivalentAttribute_eq]
    cases counterpart name p with
    | none => exact ih
    | some b => rfl

/-- The counterpart is no attribute of D. -/
theorem alias_of_counterpart {e : Expr} {b : AttributeRef} (h : counterpart name e = some b) :
    b.2 ≠ "d" := by
  induction e using Expr.ind with
  | boolPredicate op args ih =>
    cases op with
    | and =>
      rw [counterpart] at h
      induction args with
      | nil => cases h
      | cons e es ihes =>
        rw [List.forall_mem_cons] at ih
        rcases Option.or_eq_some_iff.mp h with h | ⟨-, h⟩
        · exact ih.1 h
        · exact ihes ih.2 h
    | _ => cases h
  | predicate l r op =>
    cases l with
    | «attribute» n a =>
      cases r with
      | «attribute» n' a' =>
        rw [counterpart] at h
        split at h
        · split at h
          · next hside =>
            cases h
            exact hside.2.2
          · split at h
            · next hside =>
              cases h
              exact hside.2.2
            · cases h
        · cases h
      | _ => cases h
    | _ => cases h
  | _ => cases h

end

/-- Equality that is true is equality of values. -/
def TrueEquality {V : Type} (I : Interpretation V) : Prop :=
  ∀ v w : Option V, I.compare "=" [v] [w] = .tt → v = w ∧ v ≠ none

section

variable {V : Type} [DecidableEq V] {I : Interpretation V}

theorem truth_args_of_and {c : Context V} {args : List Expr}
    (h : truth I c (.boolPredicate .and args) = .tt) : ∀ e ∈ args, truth I c e = .tt := by
  intro e he
  have hconj : Truth.conj ((meanings I args).map fun m => m.truth c) = .tt := h
  rw [Truth.conj_eq_tt] at hconj
  refine hconj _ (List.mem_map.mpr ⟨meaning I e, ?_, rfl⟩)
  rw [meanings_eq_map]
  exact List.mem_map_of_mem he

/-- On a row that satisfies the condition the equality holds, one way or the other. -/
theorem compare_counterpart {name : String} {e : Expr} {b : AttributeRef}
    (h : counterpart name e = some b) {c : Context V} (htruth : truth I c e = .tt) :
    I.compare "=" [(lookup c.scope (.column name "d")).1] [(lookup c.scope (.column b.1 b.2)).1] =
        .tt ∨
      I.compare "=" [(lookup c.scope (.column b.1 b.2)).1] [(lookup c.scope (.column name "d")).1] =
        .tt := by
  induction e using Expr.ind with
  | boolPredicate op args ih =>
    cases op with
    | and =>
      have hargs := truth_args_of_and htruth
      clear htruth
      rw [counterpart] at h
      induction args with
      | nil => cases h
      | cons e es ihes =>
        rw [List.forall_mem_cons] at ih hargs
        rcases Option.or_eq_some_iff.mp h with h | ⟨-, h⟩
        · exact ih.1 h hargs.1
        · exact ihes ih.2 h hargs.2
    | _ => cases h
  | predicate l r op =>
    cases l with
    | «attribute» n a =>
      cases r with
      | «attribute» n' a' =>
        rw [counterpart] at h
        split at h
        · next hop =>
          subst hop
          split at h
          · next hside =>
            obtain ⟨rfl, rfl, -⟩ := hside
            cases h
            exact .inl htruth
          · split at h
            · next hside =>
              obtain ⟨rfl, rfl, -⟩ := hside
              cases h
              exact .inr htruth
            · cases h
        · cases h
      | _ => cases h
    | _ => cases h
  | _ => cases h

/-- On a row that satisfies the condition both sides of the equality have one value. -/
theorem lookup_counterpart (hI : TrueEquality I) {name : String} {e : Expr} {b : AttributeRef}
    (h : counterpart name e = some b) {scope : Row V} (htruth : truth I ⟨scope, []⟩ e = .tt) :
    (lookup scope (.column name "d")).1 = (lookup scope (.column b.1 b.2)).1 ∧
      (lookup scope (.column name "d")).1 ≠ none := by
  rcases compare_counterpart h htruth with heq | heq
  · exact hI _ _ heq
  · obtain ⟨hsame, hsome⟩ := hI _ _ heq
    exact ⟨hsame.symm, fun hnone => hsome (hsame.trans hnone)⟩

end

/-- All entries of the map are for attributes of D. -/
def RenamesD (m : RenameMap) : Prop := ∀ e ∈ m, e.1.1 = "d"

theorem lookup_withCounterpart {n name : String} {m : RenameMap} {b : AttributeRef} :
    (withCounterpart name m b).lookup ("d", n) =
      if n = name then some (b.2, b.1) else m.lookup ("d", n) := by
  rw [withCounterpart, RenameMap.set, List.lookup_cons]
  by_cases h : n = name
  · simp [h]
  · have hbeq : (("d", n) == ("d", name)) = false := by simpa using h
    rw [hbeq, if_neg h]

/-- The loop over the attributes of D succeeds when each has a counterpart, and enters them. -/
theorem findEquivalents_eq_true {predicates : List Expr} {as : List AttributeRef}
    {m m' : RenameMap} (h : findEquivalents predicates as m = (true, m')) :
    (∀ a ∈ as, ∃ b, predicates.findSome? (counterpart a.1) = some b ∧
      m'.lookup ("d", a.1) = some (b.2, b.1)) ∧
    (∀ n, n ∉ as.map Prod.fst → m'.lookup ("d", n) = m.lookup ("d", n)) ∧
    (RenamesD m → RenamesD m') := by
  induction as generalizing m with
  | nil =>
    cases h
    exact ⟨by simp, fun _ _ => rfl, id⟩
  | cons a as ih =>
    rw [findEquivalents, findSome?_hasEquivalentAttribute] at h
    cases hb : predicates.findSome? (counterpart a.1) with
    | none =>
      rw [hb] at h
      cases h
    | some b =>
      rw [hb] at h
      obtain ⟨hrest, hother, hkeys⟩ := ih h
      refine ⟨?_, ?_, fun hm => hkeys ?_⟩
      · rw [List.forall_mem_cons]
        refine ⟨⟨b, hb, ?_⟩, hrest⟩
        by_cases hagain : a.1 ∈ as.map Prod.fst
        · obtain ⟨a', ha', heq⟩ := List.mem_map.mp hagain
          obtain ⟨b', hb', hlookup⟩ := hrest a' ha'
          rw [heq] at hb' hlookup
          rw [hlookup, Option.some.inj (hb'.symm.trans hb)]
        · rw [hother _ hagain, lookup_withCounterpart, if_pos rfl]
      · intro n hn
        rw [List.map_cons, List.mem_cons, not_or] at hn
        rw [hother n hn.2, lookup_withCounterpart, if_neg hn.1]
      · intro e he
        rcases List.mem_cons.mp he with rfl | he
        · rfl
        · exact hm e he

theorem renamed_of_lookup {m : RenameMap} {n : String} {b : AttributeRef}
    (h : m.lookup ("d", n) = some (b.2, b.1)) : renamed m n "d" = b := by
  rw [renamed, h]

/-- Other attributes keep their names. -/
theorem renamed_of_ne {m : RenameMap} (hm : RenamesD m) {n a : String} (ha : a ≠ "d") :
    renamed m n a = (n, a) := by
  have hnone (x : String) : m.lookup (a, x) = none := by
    rw [List.lookup_eq_none_iff]
    intro e he
    have hne : (a, x) ≠ e.1 := fun heq => ha ((congrArg Prod.fst heq).trans (hm e he))
    simpa using hne
  rw [renamed, hnone, hnone]

section

variable {i : Nat}

theorem ancestors_eq_none {t : RaNode} (h : i ∉ t.ids) : ancestors i t = none := by
  induction t with
  | hole => rfl
  | leaf j op => rfl
  | unary j op c ih =>
    have hc := List.not_mem_of_not_mem_cons h
    rw [ancestors, if_neg fun hid => hc (id?_mem_ids hid), ih hc]
    rfl
  | join j join l r ihl ihr =>
    have hlr := List.not_mem_of_not_mem_cons h
    rw [List.mem_append, not_or] at hlr
    have hne : ¬ (l.id? = some i ∨ r.id? = some i) := by
      rintro (hid | hid)
      · exact hlr.1 (id?_mem_ids hid)
      · exact hlr.2 (id?_mem_ids hid)
    rw [ancestors, if_neg hne, ihl hlr.1, ihr hlr.2]
    rfl

/-- The trees at the operators above a position. -/
def treesAlong : List Frame → RaNode → List RaNode
  | [], _ => []
  | f :: K, t => f.plug t :: treesAlong K (f.plug t)

theorem treesAlong_append (K L : List Frame) (t : RaNode) :
    treesAlong (K ++ L) t = treesAlong K t ++ treesAlong L (plug K t) := by
  induction K generalizing t with
  | nil => rfl
  | cons f K ih => rw [List.cons_append, treesAlong, treesAlong, ih, plug_cons, List.cons_append]

private theorem ancestors_frame {f : Frame} {t : RaNode} (hf : i ∉ f.ids) (ht : t.id? ≠ some i) :
    ancestors i (f.plug t) = (ancestors i t).map (· ++ [f.plug t]) := by
  cases f with
  | unary j op => rw [Frame.plug, ancestors, if_neg ht]
  | left j join r =>
    have hr : i ∉ r.ids := List.not_mem_of_not_mem_cons hf
    rw [Frame.plug, ancestors, if_neg (by simp [ht, mt id?_mem_ids hr]), ancestors_eq_none hr,
      Option.or_none]
  | right j join l =>
    have hl : i ∉ l.ids := List.not_mem_of_not_mem_cons hf
    rw [Frame.plug, ancestors, if_neg (by simp [ht, mt id?_mem_ids hl]), ancestors_eq_none hl,
      Option.none_or]

/-- The nodes above a node, seen from its position. -/
theorem ancestors_plug {K : List Frame} {t : RaNode} (ht : t.id? = some i)
    (hK : i ∉ contextIds K) (hne : K ≠ []) : ancestors i (plug K t) = some (treesAlong K t) := by
  induction K using List.reverseRecOn with
  | nil => exact absurd rfl hne
  | append_singleton K f ih =>
    rw [contextIds_append, List.mem_append, not_or, contextIds_cons, contextIds_nil,
      List.append_nil] at hK
    rw [plug_append, plug_cons, plug_nil, treesAlong_append]
    cases K with
    | nil =>
      rw [plug_nil]
      cases f with
      | unary j op => rw [Frame.plug, ancestors, if_pos ht]; rfl
      | left j join r => rw [Frame.plug, ancestors, if_pos (.inl ht)]; rfl
      | right j join l => rw [Frame.plug, ancestors, if_pos (.inr ht)]; rfl
    | cons g K =>
      have hid : (plug (g :: K) t).id? ≠ some i := by
        intro h
        obtain ⟨f', K', hlast⟩ : ∃ f' K', g :: K = K' ++ [f'] :=
          ⟨_, _, (List.dropLast_append_getLast (List.cons_ne_nil g K)).symm⟩
        rw [hlast, plug_append, plug_cons, plug_nil, Frame.id?_plug, Option.some.injEq] at h
        refine hK.1 ?_
        rw [hlast, contextIds_append, List.mem_append, contextIds_cons]
        refine .inr (List.mem_append_left _ ?_)
        cases f' <;> simp [Frame.ids, Frame.id, ← h]
      rw [ancestors_frame hK.2 hid, ih hK.1 (List.cons_ne_nil g K)]
      rfl

end

/-- No projection is among the operators. -/
def NoProjection (K : List Frame) : Prop := ∀ i pr, Frame.unary i (.projection pr) ∉ K

/-- The conditions that `can_decouple` looks at on the way up. -/
def conditionsAlong (K : List Frame) : List Expr := (K.filterMap conditionOf).filter Expr.isPresent

private theorem predicateOf_plug (f : Frame) (t : RaNode) : predicateOf (f.plug t) = conditionOf f := by
  cases f with
  | unary i op => cases op <;> rfl
  | left i join r => rfl
  | right i join l => rfl

private theorem upToProjection_treesAlong {K : List Frame} (h : NoProjection K) (t : RaNode)
    (i : Nat) (pr : Projection) (c : RaNode) :
    (upToProjection (treesAlong K t ++ [.projection i pr c])).filterMap predicateOf =
      K.filterMap conditionOf := by
  induction K generalizing t with
  | nil => rfl
  | cons f K ih =>
    have hrest := ih (fun j pr' hmem => h j pr' (List.mem_cons_of_mem _ hmem)) (f.plug t)
    have hf : upToProjection (f.plug t :: (treesAlong K (f.plug t) ++ [.projection i pr c])) =
        f.plug t :: upToProjection (treesAlong K (f.plug t) ++ [.projection i pr c]) := by
      cases f with
      | unary j op =>
        cases op with
        | projection pr' => exact absurd List.mem_cons_self (h j pr')
        | _ => rfl
      | left j join r => rfl
      | right j join l => rfl
    rw [treesAlong, List.cons_append, hf, List.filterMap_cons, List.filterMap_cons,
      predicateOf_plug, hrest]

/-- `can_decouple` at a dependent join below a projection. -/
theorem canDecouple_plug {i depJoin : Nat} {pr : Projection} {K : List Frame} {j : Join}
    {d r : RaNode} {m : RenameMap} {result : Bool × RenameMap} (hi : i ≠ depJoin)
    (hK : depJoin ∉ contextIds K) (hproj : NoProjection K)
    (h : canDecouple depJoin (.projection i pr (plug K (.join depJoin j d r))) m = some result) :
    ∃ attributes, findAttributesUsingAlias ["d"] (some depJoin) false
        (.projection i pr (plug K (.join depJoin j d r))) = some attributes ∧
      findEquivalents (conditionsAlong (.right depJoin j d :: K)) attributes m = result := by
  have htop : RaNode.projection i pr (plug K (.join depJoin j d r)) =
      plug (K ++ [.unary i (.projection pr)]) (.join depJoin j d r) := by
    simp [Frame.plug]
  have hid : (RaNode.join depJoin j d r).id? = some depJoin := rfl
  have hK' : depJoin ∉ contextIds (K ++ [.unary i (.projection pr)]) := by
    rw [contextIds_append, List.mem_append, not_or]
    exact ⟨hK, by simpa [contextIds, Frame.ids] using Ne.symm hi⟩
  have habove := ancestors_plug hid hK' (by simp)
  have hfind : find? depJoin (plug (K ++ [.unary i (.projection pr)]) (.join depJoin j d r)) =
      some (.join depJoin j d r) := find?_plug_of_notMem hK' hid
  rw [htop] at h ⊢
  rw [canDecouple, habove, hfind, treesAlong_append] at h
  obtain ⟨attributes, hattributes, hfound⟩ := Option.map_eq_some_iff.mp h
  refine ⟨attributes, hattributes, ?_⟩
  rw [← hfound, conditionsAlong, List.filterMap_cons, List.filterMap_cons]
  have hup := upToProjection_treesAlong hproj (.join depJoin j d r) i pr
    (plug K (.join depJoin j d r))
  simp only [treesAlong, Frame.plug, hup]
  rfl

end SqlOptimizer.Unnesting.Counterparts
