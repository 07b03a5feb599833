import SqlOptimizer.Deparse.DeparseRaToSql
import SqlOptimizer.Parse.FreshRoots
import SqlOptimizer.Parse.ParsedTree
import SqlOptimizer.Semantics.Evaluation

/-!
The order of the FROM items. The loop of `parse_from` puts every item in front of the ones before
it, and the printer writes the items from left to right, so the list comes out reversed.
-/

set_option autoImplicit false
set_option relaxedAutoImplicit false

namespace SqlOptimizer.Parse.FromOrder

open Algebra.RelationalAlgebra
open Tree.Frames
open Deparse.DeparseRaToSql Semantics.Evaluation
open PgQuery Builder ParseSqlToRa ParsedTree FreshRoots

/-- A cross product that stands for a comma. -/
def isComma (join : Join) : Bool :=
  join.type = .crossProduct && join.marker = 0 && join.aliasName = ""

/-- The FROM items that a tree lists, from left to right. -/
def listedItems : RaNode → List RaNode
  | .leaf _ .dummy => []
  | .join i join l r => if isComma join then listedItems l ++ listedItems r else [.join i join l r]
  | t => [t]

/-- The given items are printed one after the other, with commas between. -/
def deparseItems (subs : Nat → Option Subquery) (layer : Nat) :
    List RaNode → Clauses → Option Clauses
  | [], c => some c
  | [r], c => deparseRaNode subs r layer c
  | r :: rs, c =>
      (deparseRaNode subs r layer c).bind fun c =>
        deparseItems subs layer rs { c with fromText := c.fromText ++ ", " }

/-- The tree consists of the items and of cross products over them. -/
inductive Lists : RaNode → List RaNode → Prop
  | item (r : RaNode) (h : IsFromItem r) : Lists r [r]
  | comma (i : Nat) (l r : RaNode) (ls rs : List RaNode) (left : Lists l ls) (right : Lists r rs) :
      Lists (.join i crossJoin l r) (ls ++ rs)

theorem listedItems_item {r : RaNode} (h : IsFromItem r) : listedItems r = [r] := by
  cases h with
  | relation i name aliasName => rfl
  | derived i pr c => rfl
  | join i join l r type marker =>
    have hcomma : isComma join = false := by
      rcases type with h | h <;> simp [isComma, h]
    rw [listedItems, hcomma]
    rfl

namespace Lists

variable {t : RaNode} {rs : List RaNode}

theorem ne_nil (h : Lists t rs) : rs ≠ [] := by
  induction h with
  | item r h => simp
  | comma i l r ls rs _ _ ihl _ => simp [ihl]

theorem isHole_eq (h : Lists t rs) : t.isHole = false := by
  cases h with
  | item r h => cases h <;> rfl
  | comma i l r ls rs _ _ => rfl

theorem listedItems_eq (h : Lists t rs) : listedItems t = rs := by
  induction h with
  | item r h => exact listedItems_item h
  | comma i l r ls rs _ _ ihl ihr =>
    have hcomma : isComma crossJoin = true := rfl
    rw [listedItems, if_pos hcomma, ihl, ihr]

end Lists

private theorem deparseItems_append (subs : Nat → Option Subquery) (layer : Nat)
    {ls rs : List RaNode} (hls : ls ≠ []) (hrs : rs ≠ []) (c : Clauses) :
    deparseItems subs layer (ls ++ rs) c =
      (deparseItems subs layer ls c).bind fun c =>
        deparseItems subs layer rs { c with fromText := c.fromText ++ ", " } := by
  induction ls generalizing c with
  | nil => exact absurd rfl hls
  | cons l ls ih =>
    obtain ⟨r, rs', rfl⟩ := List.exists_cons_of_ne_nil hrs
    cases ls with
    | nil => rfl
    | cons l' ls =>
      have hrest := ih (by simp)
      simp only [List.cons_append, deparseItems, Option.bind_assoc] at hrest ⊢
      exact congrArg _ (funext fun c => hrest _)

/-- The printer writes the listed items from left to right. -/
theorem Lists.deparse {t : RaNode} {rs : List RaNode} (h : Lists t rs)
    (subs : Nat → Option Subquery) (layer : Nat) (c : Clauses) :
    deparseRaNode subs t layer c = deparseItems subs layer rs c := by
  induction h generalizing c with
  | item r h => rfl
  | comma i l r ls rs hl hr ihl ihr =>
    have hfull : (RaNode.join i crossJoin l r).isFull = true := by
      rw [RaNode.isFull, hl.isHole_eq, hr.isHole_eq]
      rfl
    have hcomma : deparseRaNode subs (.join i crossJoin l r) layer c =
        (deparseRaNode subs l layer c).bind fun c =>
          deparseRaNode subs r layer { c with fromText := c.fromText ++ ", " } := by
      rw [deparseRaNode, hfull]
      rfl
    rw [hcomma, deparseItems_append subs layer hl.ne_nil hr.ne_nil, ← ihl]
    simp only [ihr]

/-- The columns of `select *` are those of the listed items, from left to right. -/
theorem Lists.columns {t : RaNode} {rs : List RaNode} (h : Lists t rs) {V : Type}
    (db : Database V) :
    starColumns "" (nullRow db t) =
      rs.flatMap fun r => starColumns "" (nullRow db r) := by
  induction h with
  | item r h => simp
  | comma i l r ls rs _ _ ihl ihr =>
    have hrow : nullRow db (.join i crossJoin l r) = nullRow db l ++ nullRow db r := by
      simp [nullRow, crossJoin, renameJoin]
    rw [hrow, List.flatMap_append, ← ihl, ← ihr]
    simp [starColumns]

private theorem isFromItem_ne_hole {r : RaNode} (h : IsFromItem r) : r ≠ .hole := by
  cases h <;> simp

private theorem attachTo_item {K : List Frame} {i : Nat} {r sub t : RaNode} {s s' : ParserState}
    (hK : ∀ f ∈ K, ∃ i join r, f = .left i join r ∧ r ≠ .hole)
    (h : attachTo (plug K (.join i crossJoin .hole r)) sub s = some (t, s')) :
    sub ≠ .hole ∧ t = plug K (insertChild sub (.join i crossJoin .hole r)) := by
  obtain ⟨hsub, -, ht⟩ := (addSubtree_cross_eq_some hK).mp (attachTo_eq_some.mp h).1
  exact ⟨hsub, ht⟩

/-- The loop of `parse_from`: from the lowest cross product on, the items that are still to come
stand to the left of those before them. -/
theorem lists_addRelations {rs : List RaNode} (hlen : 2 ≤ rs.length)
    (hrs : ∀ r ∈ rs, r ≠ .hole → IsFromItem r) :
    ∀ (K : List Frame) (i : Nat) (s s' : ParserState) (t : RaNode),
      (∀ f ∈ K, ∃ i join r, f = .left i join r ∧ r ≠ .hole) →
      addRelations (plug K (.join i crossJoin .hole .hole)) rs s = some (t, s') →
      ∃ x, t = plug K x ∧ Lists x rs.reverse := by
  induction rs with
  | nil => cases hlen
  | cons r rs ih =>
    intro K i s s' t hK ht
    rw [List.forall_mem_cons] at hrs
    have hcross (hr : r ≠ .hole) (sub : RaNode) :
        insertChild sub (.join i crossJoin .hole r) = .join i crossJoin sub r := by
      cases r <;> first | rfl | exact absurd rfl hr
    match rs, hlen with
    | [r'], _ =>
      simp only [List.mem_singleton, forall_eq] at hrs
      rw [addRelations] at ht
      obtain ⟨base, s₁, hbase, ht⟩ := bind_eq_some.mp ht
      obtain ⟨hr, rfl⟩ := attachTo_item hK hbase
      obtain ⟨hr', rfl⟩ := attachTo_item hK ht
      refine ⟨_, rfl, ?_⟩
      rw [hcross hr]
      exact .comma i r' r [r'] [r] (.item r' (hrs.2 hr')) (.item r (hrs.1 hr))
    | r' :: r'' :: rs', _ =>
      rw [addRelations] at ht
      · obtain ⟨base, s₁, hbase, ht⟩ := bind_eq_some.mp ht
        obtain ⟨hr, rfl⟩ := attachTo_item hK hbase
        obtain ⟨j, s₂, hj, ht⟩ := bind_eq_some.mp ht
        obtain ⟨base, s₃, hbase, ht⟩ := bind_eq_some.mp ht
        obtain ⟨-, rfl⟩ := attachTo_item hK hbase
        rw [hcross hr] at ht
        have hK' : ∀ f ∈ Frame.left i crossJoin r :: K, ∃ i join r, f = .left i join r ∧ r ≠ .hole :=
          List.forall_mem_cons.mpr ⟨⟨i, crossJoin, r, rfl, hr⟩, hK⟩
        obtain ⟨x, rfl, hx⟩ := ih (by simp) hrs.2 (.left i crossJoin r :: K) j _ _ _ hK' ht
        refine ⟨.join i crossJoin x r, rfl, ?_⟩
        rw [List.reverse_cons]
        exact .comma i x r _ [r] hx (.item r (hrs.1 hr))
      all_goals simp

/-- An entry of a FROM clause: a relation, a join or a derived table. -/
def isFromEntry : PgNode → Bool
  | .rangeVar _ _ => true
  | .rangeSubselect _ _ => true
  | .joinExpr _ _ _ _ _ => true
  | _ => false

/-- The items get addresses one after the other, so no item occurs twice. -/
private theorem parseFromItems_spec {ns : List PgNode} (hns : ∀ n ∈ ns, isFromEntry n = true)
    {s s' : ParserState} {rs : List RaNode} (h : parseFromItems ns s = some (rs, s')) :
    rs.length = ns.length ∧ s.nextId ≤ s'.nextId ∧
      (∀ r ∈ rs, r ≠ .hole → IsFromItem r ∧ ∃ i, r.id? = some i ∧ s.nextId ≤ i ∧ i < s'.nextId) ∧
      (RaNode.hole ∉ rs → rs.Nodup) := by
  induction ns generalizing s rs with
  | nil =>
    obtain ⟨rfl, rfl⟩ := Prod.mk.inj (pure_eq_some.mp h)
    simp
  | cons n ns ih =>
    rw [List.forall_mem_cons] at hns
    rw [parseFromItems] at h
    obtain ⟨item, s₁, hitem, h⟩ := bind_eq_some.mp h
    obtain ⟨rs', s₂, hrs', h⟩ := bind_eq_some.mp h
    obtain ⟨rfl, rfl⟩ := Prod.mk.inj (pure_eq_some.mp h)
    obtain ⟨r, rfl⟩ : ∃ r, item = some r := by
      cases n with
      | rangeVar relname a =>
        obtain ⟨r, _, -, hr⟩ := bind_eq_some.mp hitem
        exact ⟨r, (Prod.mk.inj (pure_eq_some.mp hr)).1⟩
      | rangeSubselect subquery a =>
        obtain ⟨r, _, -, hr⟩ := bind_eq_some.mp hitem
        exact ⟨r, (Prod.mk.inj (pure_eq_some.mp hr)).1⟩
      | joinExpr type larg rarg quals a =>
        obtain ⟨r, _, -, hr⟩ := bind_eq_some.mp hitem
        exact ⟨r, (Prod.mk.inj (pure_eq_some.mp hr)).1⟩
      | _ => cases hns.1
    obtain ⟨hlen, hle, hrest, hnodup⟩ := ih hns.2 hrs'
    have hstep := grows_fromItem n _ _ _ hitem
    refine ⟨by simp [hlen], by omega, ?_, fun hhole => ?_⟩
    · simp only [Option.toList_some, List.singleton_append, List.forall_mem_cons]
      refine ⟨fun hr => ?_, fun r' hr' hne => ?_⟩
      · obtain ⟨hr, i, hi, hge, hlt⟩ := parseFromItem_root hitem hr
        exact ⟨hr, i, hi, hge, by omega⟩
      · obtain ⟨hr, i, hi, hge, hlt⟩ := hrest r' hr' hne
        exact ⟨hr, i, hi, by omega, hlt⟩
    · simp only [Option.toList_some, List.singleton_append, List.mem_cons, not_or] at hhole
      refine List.nodup_cons.mpr ⟨fun hmem => ?_, hnodup hhole.2⟩
      obtain ⟨-, i, hi, -, hlt⟩ := parseFromItem_root hitem (Ne.symm hhole.1)
      obtain ⟨-, j, hj, hge, -⟩ := hrest r hmem (Ne.symm hhole.1)
      rw [hi, Option.some.injEq] at hj
      omega

private theorem not_nodup_reverse_eq {α : Type} {l : List α} (hlen : 2 ≤ l.length) (hl : l.Nodup) :
    l.reverse ≠ l := by
  intro h
  have hfirst : l.reverse[0]? = l[0]? := by rw [h]
  rw [List.getElem?_reverse (by omega)] at hfirst
  have hidx := (List.getElem?_inj (by omega) hl).mp hfirst
  omega

/-- `parse_from` on its items. -/
private theorem lists_parseFrom {ns : List PgNode} (hns : ∀ n ∈ ns, isFromEntry n = true)
    {s s₁ s' : ParserState} {rs : List RaNode} {t : RaNode}
    (hrs : parseFromItems ns s = some (rs, s₁))
    (ht : parseFrom ns.isEmpty (parseFromItems ns) s = some (t, s')) (hlen : 2 ≤ ns.length) :
    Lists t rs.reverse ∧ rs.Nodup := by
  obtain ⟨hlength, -, hitems, hnodup⟩ := parseFromItems_spec hns hrs
  have hempty : ns.isEmpty = false := by
    cases ns <;> first | rfl | cases hlen
  rw [parseFrom, hempty, if_neg (by simp)] at ht
  obtain ⟨rs', s₂, hrs', ht⟩ := bind_eq_some.mp ht
  obtain ⟨rfl, rfl⟩ := Prod.mk.inj (Option.some.inj (hrs'.symm.trans hrs))
  rw [← hlength] at hlen
  have hlists : Lists t rs'.reverse := by
    rcases rs' with _ | ⟨r, _ | ⟨r', rs''⟩⟩
    · simp at hlen
    · simp at hlen
    · obtain ⟨i, s₃, -, ht⟩ := bind_eq_some.mp ht
      obtain ⟨x, rfl, hx⟩ := lists_addRelations hlen (fun r hr hne => (hitems r hr hne).1) [] i
        _ _ _ (by simp) ht
      exact hx
  refine ⟨hlists, hnodup fun hhole => ?_⟩
  have hall (t : RaNode) (rs : List RaNode) (h : Lists t rs) : RaNode.hole ∉ rs := by
    induction h with
    | item r h =>
      rw [List.mem_singleton]
      exact (isFromItem_ne_hole h).symm
    | comma i l r ls rs _ _ ihl ihr => simp [ihl, ihr]
  exact hall _ _ hlists (List.mem_reverse.mpr hhole)

/-- The FROM tree is printed, and its columns are listed, in the order of `listedItems`; that is
the order of the FROM clause exactly when the clause has at most one item. -/
theorem parseFrom_order_iff {ns : List PgNode} (hns : ∀ n ∈ ns, isFromEntry n = true)
    {s s₁ s' : ParserState} {rs : List RaNode} {t : RaNode}
    (hrs : parseFromItems ns s = some (rs, s₁))
    (ht : parseFrom ns.isEmpty (parseFromItems ns) s = some (t, s')) :
    (∀ subs layer c, deparseRaNode subs t layer c = deparseItems subs layer (listedItems t) c) ∧
      (∀ (V : Type) (db : Database V), starColumns "" (nullRow db t) =
        (listedItems t).flatMap fun r => starColumns "" (nullRow db r)) ∧
      (listedItems t = rs ↔ ns.length ≤ 1) := by
  rcases Nat.lt_or_ge 1 ns.length with hlen | hlen
  · obtain ⟨hlists, hnodup⟩ := lists_parseFrom hns hrs ht hlen
    have hlength := (parseFromItems_spec hns hrs).1
    rw [hlists.listedItems_eq]
    refine ⟨hlists.deparse, fun V db => hlists.columns db, ?_⟩
    have hne := not_nodup_reverse_eq (by omega) hnodup
    simp only [hne, false_iff]
    omega
  · match ns, hlen with
    | [], _ =>
      obtain ⟨rfl, -⟩ := Prod.mk.inj (pure_eq_some.mp hrs)
      obtain ⟨i, _, -, ht⟩ := bind_eq_some.mp ht
      obtain ⟨rfl, -⟩ := Prod.mk.inj (pure_eq_some.mp ht)
      exact ⟨fun _ _ _ => rfl, fun _ _ => rfl, by simp [listedItems]⟩
    | [n], _ =>
      obtain ⟨hlength, -, hitems, -⟩ := parseFromItems_spec hns hrs
      obtain ⟨r, rfl⟩ := List.length_eq_one_iff.mp hlength
      rw [parseFrom, List.isEmpty_cons, if_neg (by simp)] at ht
      obtain ⟨rs', s₂, hrs', ht⟩ := bind_eq_some.mp ht
      obtain ⟨rfl, rfl⟩ := Prod.mk.inj (Option.some.inj (hrs'.symm.trans hrs))
      obtain ⟨rfl, -⟩ := Prod.mk.inj (pure_eq_some.mp ht)
      have hlisted : listedItems t = [t] := by
        by_cases ht : t = .hole
        · rw [ht]
          rfl
        · exact listedItems_item (hitems t (List.mem_singleton_self t) ht).1
      rw [hlisted]
      exact ⟨fun _ _ _ => rfl, fun _ _ => by simp, by simp⟩

/-- The FROM clause of `select * from students s`. -/
theorem oneTable_in_order :
    ∃ rs s₁ t s', parseFromItems [.rangeVar "students" (some ⟨"s", []⟩)] {} = some (rs, s₁) ∧
      parseFrom false (parseFromItems [.rangeVar "students" (some ⟨"s", []⟩)]) {} = some (t, s') ∧
      listedItems t = rs := by
  have hentries : ∀ n ∈ [.rangeVar "students" (some ⟨"s", []⟩)], isFromEntry n = true := by decide
  refine ⟨_, _, _, _, rfl, rfl, ?_⟩
  exact (parseFrom_order_iff hentries rfl rfl).2.2.mpr (by decide)

/-- The FROM clause of `select * from students, profs, exams, lectures`. -/
def fourTables : List PgNode :=
  [.rangeVar "students" none, .rangeVar "profs" none, .rangeVar "exams" none,
    .rangeVar "lectures" none]

theorem fourTables_reversed :
    ∃ rs s₁ t s', parseFromItems fourTables {} = some (rs, s₁) ∧
      parseFrom fourTables.isEmpty (parseFromItems fourTables) {} = some (t, s') ∧
      listedItems t ≠ rs ∧
      (deparseRaNode (fun _ => none) t 1 {}).map Clauses.fromText =
        some "lectures, exams, profs, students" := by
  refine ⟨_, _, _, _, rfl, rfl, fun h => ?_, by decide⟩
  have hids := congrArg (List.map RaNode.id?) h
  revert hids
  decide

end SqlOptimizer.Parse.FromOrder
