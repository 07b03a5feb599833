import SqlOptimizer.Parse.ParseSqlToRa
import SqlOptimizer.Semantics.References
import SqlOptimizer.Tree.PushDownRun

/-!
Which relations the rows hold that a conjunct is checked on. `find_lowest_child_insert_selection`
searches for the names that `get_predicate_relations` collects, and these are not all that the
attributes of the conjunct refer to.
-/

set_option autoImplicit false
set_option relaxedAutoImplicit false

namespace SqlOptimizer.Tree.PlacedConditions

open Algebra.RelationalAlgebra
open Frames Walks PushDown PushDownRun
open Parse.PgQuery (PgNode)
open Parse.ParseSqlToRa (parse)
open Semantics.Evaluation Semantics.References

mutual

/-- The attributes and markers that `get_expression_relations` comes to. -/
def seenInExpression : Expr → List Reference
  | .attribute name aliasName => [.column name aliasName]
  | .expression l r _ => seenInExpression l ++ seenInExpression r
  | .funcCall _ args _ _ => seenInExpressions args
  | .typeCast _ _ e => seenInExpression e
  | .whereSubqueryMarker m _ => [.marker m]
  | _ => []

def seenInExpressions : List Expr → List Reference
  | [] => []
  | e :: es => seenInExpression e ++ seenInExpressions es

end

mutual

/-- The attributes and markers that `get_predicate_relations` comes to. -/
def seenInPredicate : Expr → List Reference
  | .predicate l r _ => seenInExpression l ++ seenInExpression r
  | .whereSubqueryMarker m _ => [.marker m]
  | .boolPredicate _ args => seenInPredicates args
  | .nullTest e _ => seenInExpression e
  | _ => []

def seenInPredicates : List Expr → List Reference
  | [] => []
  | e :: es => seenInPredicate e ++ seenInPredicates es

end

mutual

/-- No operand that `get_expression_relations` comes to is missing; that of a unary operator
is. -/
def hasOperands : Expr → Bool
  | .nullptr => false
  | .expression l r _ => hasOperands l && hasOperands r
  | .funcCall _ args _ _ => haveOperands args
  | .typeCast _ _ e => hasOperands e
  | _ => true

def haveOperands : List Expr → Bool
  | [] => true
  | e :: es => hasOperands e && haveOperands es

end

mutual

/-- The same for `get_predicate_relations`. -/
def hasConditions : Expr → Bool
  | .nullptr => false
  | .predicate l r _ => hasOperands l && hasOperands r
  | .boolPredicate _ args => haveConditions args
  | .nullTest e _ => hasOperands e
  | _ => true

def haveConditions : List Expr → Bool
  | [] => true
  | e :: es => hasConditions e && haveConditions es

end

/-- The name by which the program looks for the relation of a reference. -/
def relationOf : Reference → String
  | .column name aliasName => getRelationFromAttribute name aliasName
  | .marker m => "marker_" ++ toString m

/-- The names that the program looks for when it places a conjunct. -/
def soughtRelations (c : Expr) : List String := (seenInPredicate c).map relationOf

/-- Two lists of which both are collected, or none when one of them is missing. -/
private theorem collected_append (a b : Bool) (xs ys : List Reference) :
    ((if a then some (xs.map relationOf) else none).bind fun l =>
        (if b then some (ys.map relationOf) else none).map fun r => l ++ r) =
      if a && b then some ((xs ++ ys).map relationOf) else none := by
  cases a <;> cases b <;> simp

private theorem getExpressionRelations_eq (e : Expr) : getExpressionRelations e =
    if hasOperands e then some ((seenInExpression e).map relationOf) else none := by
  induction e using Expr.ind with
  | expression l r op ihl ihr =>
    rw [getExpressionRelations, ihl, ihr, collected_append]
    rfl
  | funcCall f args g d ih =>
    rw [getExpressionRelations, hasOperands, seenInExpression]
    induction args with
    | nil => rfl
    | cons e es iht =>
      rw [List.forall_mem_cons] at ih
      rw [getExpressionsRelations, ih.1, iht ih.2, collected_append]
      rfl
  | typeCast t m e ih => exact ih
  | _ => rfl

theorem getPredicateRelations_eq (c : Expr) : getPredicateRelations c =
    if hasConditions c then some (soughtRelations c) else none := by
  rw [soughtRelations]
  induction c using Expr.ind with
  | predicate l r op _ _ =>
    rw [getPredicateRelations, getExpressionRelations_eq, getExpressionRelations_eq,
      collected_append]
    rfl
  | boolPredicate op args ih =>
    rw [getPredicateRelations, hasConditions, seenInPredicate]
    induction args with
    | nil => rfl
    | cons e es iht =>
      rw [List.forall_mem_cons] at ih
      rw [getPredicatesRelations, ih.1, iht ih.2, collected_append]
      rfl
  | nullTest e t _ =>
    rw [getPredicateRelations, getExpressionRelations_eq]
    rfl
  | _ => rfl

variable {V : Type} (db : Database V)

/-- The relations, derived tables, join aliases and markers that a row of the tree holds, each
under the address of its node. -/
def items : RaNode → List (Nat × Binding V)
  | .hole => []
  | .leaf i op => (nullRow db (.leaf i op)).map (i, ·)
  | .unary i (.projection pr) c => (nullRow db (.projection i pr c)).map (i, ·)
  | .unary _ _ c => items c
  | .join i join l r =>
      if join.aliasName ≠ "" then (nullRow db (.join i join l r)).map (i, ·)
      else if join.marker ≠ 0 then items l ++ [(i, .subquery join.marker none .unknown)]
      else match join.type with
        | .crossProduct | .inner | .left | .fullOuter | .dependentInnerLeft => items l ++ items r
        | _ => items l

/-- The bindings of the items are the row. -/
theorem map_snd_items (t : RaNode) : (items db t).map Prod.snd = nullRow db t := by
  induction t with
  | hole => rfl
  | leaf i op => simp [items]
  | unary i op c ih =>
    cases op with
    | projection pr => simp [items]
    | _ => exact ih
  | join i join l r ihl ihr =>
    rw [items]
    split
    · simp
    · next halias =>
      rw [nullRow, renameJoin, if_neg halias]
      split
      · rw [List.map_append, ihl]
        rfl
      · cases join.type <;> simp only [List.map_append, ihl, ihr]

/-- The addresses of the items. -/
def itemIds (t : RaNode) : List Nat := (items db t).map Prod.fst

/-- The relation that a reference refers to in the rows of a tree. -/
def refersTo (t : RaNode) (r : Reference) : Option Nat :=
  ((items db t).find? fun x => (resolve r x.2).isSome).map Prod.fst

/-- The relations below the Selection of a conjunct that its references refer to. -/
def referredTo (child : RaNode) (c : Expr) : List Nat :=
  (references c).filterMap (refersTo db child)

/-- The relations that the condition of a node can refer to. -/
def visibleAt : RaNode → List Nat
  | .selection _ _ c => itemIds db c
  | .join _ join l r =>
      if join.marker ≠ 0 then itemIds db l else itemIds db l ++ itemIds db r
  | _ => []

/-- The conjunct gets a place, and every relation that one of its references refers to is
visible there. -/
def IsPlacedOverItsRelations (cp : Bool) (t : RaTree) (selection : Nat) (child : RaNode)
    (c : Expr) : Prop :=
  ∃ rels pos node, getPredicateRelations c = some rels ∧
    stepPosition cp t selection c rels = some pos ∧
    find? (pos.receiver t.nextId) (attach c t pos).root = some node ∧
    ∀ r ∈ references c, ∀ i, refersTo db child r = some i → i ∈ visibleAt db node

/-- Wherever all names that are looked for are defined by one input of a node, no relation that
is referred to is the node itself or in its other input. -/
def LeavesNone (intoJoin : Bool) (sought : List String) (referred : List Nat) : RaNode → Prop
  | .hole => True
  | .leaf _ _ => True
  | .unary i _ c =>
      hasRelationsDefined c sought = true → i ∉ referred ∧ LeavesNone intoJoin sought referred c
  | .join i _ l r =>
      if hasRelationsDefined l sought then
        (i ∉ referred ∧ ∀ x ∈ r.ids, x ∉ referred) ∧ LeavesNone intoJoin sought referred l
      else if hasRelationsDefined r sought then
        (i ∉ referred ∧ ∀ x ∈ l.ids, x ∉ referred) ∧ LeavesNone intoJoin sought referred r
      -- a condition that goes into the join does not see its alias
      else intoJoin = true → i ∉ referred

/-- The items that a condition sees which is checked on the rows of a node, or which goes into
the condition of a join. -/
private def placedItems (intoJoin : Bool) : RaNode → List Nat
  | .join i join l r =>
      if intoJoin then visibleAt db (.join i join l r) else itemIds db (.join i join l r)
  | t => itemIds db t

section

variable {db}

private theorem mem_ids_of_itemIds {t : RaNode} {x : Nat} (hx : x ∈ itemIds db t) : x ∈ t.ids := by
  have hself {i : Nat} {row : Row V} (h : x ∈ (row.map (i, ·)).map Prod.fst) : x = i := by
    simp only [List.map_map, List.mem_map, Function.comp_apply] at h
    obtain ⟨b, -, rfl⟩ := h
    rfl
  induction t with
  | hole => exact hx
  | leaf i op => exact hself hx ▸ List.mem_cons_self
  | unary i op c ih =>
    cases op with
    | projection pr => exact hself hx ▸ List.mem_cons_self
    | _ => exact List.mem_cons_of_mem _ (ih hx)
  | join i join l r ihl ihr =>
    have hl (h : x ∈ itemIds db l) : x ∈ (RaNode.join i join l r).ids :=
      List.mem_cons_of_mem _ (List.mem_append_left _ (ihl h))
    rw [itemIds, items] at hx
    split at hx
    · exact hself hx ▸ List.mem_cons_self
    · split at hx
      · rw [List.map_append, List.mem_append] at hx
        rcases hx with hx | hx
        · exact hl hx
        · exact List.mem_singleton.mp hx ▸ List.mem_cons_self
      · have hboth (h : x ∈ (items db l ++ items db r).map Prod.fst) :
            x ∈ (RaNode.join i join l r).ids := by
          rw [List.map_append, List.mem_append] at h
          rcases h with h | h
          · exact hl h
          · exact List.mem_cons_of_mem _ (List.mem_append_right _ (ihr h))
        cases htype : join.type <;> rw [htype] at hx <;> first | exact hboth hx | exact hl hx

/-- What a join shows is the join itself or visible to its condition. -/
private theorem mem_itemIds_join {i : Nat} {join : Join} {l r : RaNode} {x : Nat}
    (hx : x ∈ itemIds db (.join i join l r)) : x = i ∨ x ∈ visibleAt db (.join i join l r) := by
  rw [itemIds, items] at hx
  rw [visibleAt]
  split at hx
  · simp only [List.map_map, List.mem_map, Function.comp_apply] at hx
    obtain ⟨b, -, rfl⟩ := hx
    exact .inl rfl
  · split at hx
    · next hmarker =>
      rw [List.map_append, List.mem_append] at hx
      rw [if_pos hmarker]
      exact hx.symm.imp_left List.mem_singleton.mp
    · next hmarker =>
      rw [if_neg hmarker, List.mem_append]
      have hboth (h : x ∈ (items db l ++ items db r).map Prod.fst) :
          x ∈ itemIds db l ∨ x ∈ itemIds db r := by
        rw [List.map_append, List.mem_append] at h
        exact h
      apply Or.inr
      cases htype : join.type <;> rw [htype] at hx <;> first | exact hboth hx | exact .inl hx

private theorem mem_of_visibleAt {i : Nat} {join : Join} {l r : RaNode} {x : Nat}
    (hx : x ∈ visibleAt db (.join i join l r)) : x ∈ itemIds db l ∨ x ∈ itemIds db r := by
  rw [visibleAt] at hx
  split at hx
  · exact .inl hx
  · exact List.mem_append.mp hx

private theorem mem_itemIds_unary {i : Nat} {op : UnaryOp} {c : RaNode} {x : Nat}
    (hx : x ∈ itemIds db (.unary i op c)) : x = i ∨ x ∈ itemIds db c := by
  cases op with
  | projection pr =>
    simp only [itemIds, items, List.map_map, List.mem_map, Function.comp_apply] at hx
    obtain ⟨b, -, rfl⟩ := hx
    exact .inl rfl
  | _ => exact .inr hx

private theorem mem_ids_of_placedItems {b : Bool} {t : RaNode} {x : Nat}
    (hx : x ∈ placedItems db b t) : x ∈ t.ids := by
  cases t with
  | join i join l r =>
    rw [placedItems] at hx
    split at hx
    · rcases mem_of_visibleAt hx with hx | hx
      · exact List.mem_cons_of_mem _ (List.mem_append_left _ (mem_ids_of_itemIds hx))
      · exact List.mem_cons_of_mem _ (List.mem_append_right _ (mem_ids_of_itemIds hx))
    · exact mem_ids_of_itemIds hx
  | _ => exact mem_ids_of_itemIds hx

/-- One step down: what is left behind is exactly what the input does not have. -/
private theorem leavesNone_step (intoJoin : Bool) (behind : Nat → Prop) {sought : List String}
    {referred : List Nat} {t c it : RaNode}
    (hrest : (∀ x ∈ referred, x ∈ itemIds db c) →
      (LeavesNone intoJoin sought referred c ↔ ∀ x ∈ referred, x ∈ placedItems db intoJoin it))
    (hitems : ∀ x ∈ itemIds db t, behind x ∨ x ∈ itemIds db c)
    (hbehind : ∀ x ∈ c.ids, ¬ behind x) (hit : ∀ x ∈ it.ids, x ∈ c.ids)
    (hvisible : ∀ x ∈ referred, x ∈ itemIds db t) :
    ((∀ x ∈ referred, ¬ behind x) ∧ LeavesNone intoJoin sought referred c) ↔
      ∀ x ∈ referred, x ∈ placedItems db intoJoin it := by
  have hstill (h : ∀ x ∈ referred, ¬ behind x) : ∀ x ∈ referred, x ∈ itemIds db c :=
    fun x hx => (hitems x (hvisible x hx)).resolve_left (h x hx)
  constructor
  · rintro ⟨hnone, hleaves⟩
    exact (hrest (hstill hnone)).mp hleaves
  · intro hplaced
    have hnone : ∀ x ∈ referred, ¬ behind x :=
      fun x hx => hbehind x (hit x (mem_ids_of_placedItems (hplaced x hx)))
    exact ⟨hnone, (hrest (hstill hnone)).mpr hplaced⟩

/-- The search leaves none of the relations behind exactly when all of them are visible at the
node that it finds. -/
private theorem leavesNone_iff {intoJoin : Bool} {sought : List String} {referred : List Nat}
    {t it : RaNode} (hd : Distinct t) (hfull : t.Full)
    (hit : findNodeWhereRelationsDefined sought t = some it)
    (hvisible : ∀ x ∈ referred, x ∈ itemIds db t) :
    LeavesNone intoJoin sought referred t ↔ ∀ x ∈ referred, x ∈ placedItems db intoJoin it := by
  have hbelow {s u : RaNode} (hs : s.Full) (h : findNodeWhereRelationsDefined sought s = some u) :
      ∀ x ∈ u.ids, x ∈ s.ids := by
    intro x hx
    cases hdef : hasRelationsDefined s sought with
    | true =>
      obtain ⟨v, hv, hplug, -⟩ := (findNode_spec sought hs).1 hdef
      cases h.symm.trans hv
      rw [hplug]
      exact mem_ids_plug.mpr (.inr hx)
    | false => cases h.symm.trans ((findNode_spec sought hs).2 hdef)
  have hfound {s : RaNode} (hs : s.Full) (hdef : hasRelationsDefined s sought = true) :
      ∃ u, findNodeWhereRelationsDefined sought s = some u := by
    obtain ⟨u, hu, -⟩ := (findNode_spec sought hs).1 hdef
    exact ⟨u, hu⟩
  induction t with
  | hole => exact hfull.elim
  | leaf i op =>
    rw [findNodeWhereRelationsDefined, Option.ite_none_right_eq_some] at hit
    obtain ⟨-, hit⟩ := hit
    cases hit
    exact ⟨fun _ => hvisible, fun _ => trivial⟩
  | unary i op c ih =>
    rw [findNodeWhereRelationsDefined, Option.ite_none_right_eq_some] at hit
    obtain ⟨-, hit⟩ := hit
    have hnd := List.nodup_cons.mp hd
    cases hc : hasRelationsDefined c sought with
    | true =>
      obtain ⟨u, hu⟩ := hfound (s := c) hfull hc
      rw [hu] at hit
      cases hit
      have hstep := leavesNone_step intoJoin (fun x => x = i)
        (ih hnd.2 hfull hu) (fun x hx => mem_itemIds_unary hx)
        (fun x hx h => hnd.1 (h ▸ hx)) (hbelow hfull hu) hvisible
      rw [← hstep, LeavesNone]
      simp only [hc, forall_const]
      exact and_congr_left' ⟨fun h x hx hxi => h (hxi ▸ hx), fun h hi => h i hi rfl⟩
    | false =>
      rw [(findNode_spec sought (t := c) hfull).2 hc] at hit
      cases hit
      refine ⟨fun _ => hvisible, fun _ h => ?_⟩
      rw [hc] at h
      cases h
  | join i join l r ihl ihr =>
    rw [findNodeWhereRelationsDefined, Option.ite_none_right_eq_some] at hit
    obtain ⟨-, hit⟩ := hit
    have hnd := List.nodup_cons.mp hd
    have hlr := List.nodup_append'.mp hnd.2
    have hi {x : Nat} (hx : x ∈ l.ids ∨ x ∈ r.ids) : x ≠ i :=
      fun h => hnd.1 (List.mem_append.mpr (h ▸ hx))
    have hitems (x : Nat) (hx : x ∈ itemIds db (.join i join l r)) :
        x = i ∨ x ∈ itemIds db l ∨ x ∈ itemIds db r :=
      (mem_itemIds_join hx).imp_right mem_of_visibleAt
    have hbehind (s : RaNode) : (∀ x ∈ referred, ¬ (x = i ∨ x ∈ s.ids)) ↔
        i ∉ referred ∧ ∀ x ∈ s.ids, x ∉ referred := by
      refine ⟨fun h => ⟨fun hx => h i hx (.inl rfl), fun x hs hx => h x hx (.inr hs)⟩, ?_⟩
      rintro ⟨hi, hs⟩ x hx (rfl | h)
      · exact hi hx
      · exact hs x h hx
    rw [LeavesNone]
    cases hl : hasRelationsDefined l sought with
    | true =>
      obtain ⟨u, hu⟩ := hfound hfull.1 hl
      rw [hu] at hit
      cases hit
      have hstep := leavesNone_step intoJoin (fun x => x = i ∨ x ∈ r.ids)
        (ihl hlr.1 hfull.1 hu) (fun x hx => ?_) (fun x hx h => ?_) (hbelow hfull.1 hu) hvisible
      · rw [if_pos rfl, ← hstep, hbehind]
      · rcases hitems x hx with h | h | h
        · exact .inl (.inl h)
        · exact .inr h
        · exact .inl (.inr (mem_ids_of_itemIds h))
      · exact h.elim (hi (.inl hx)) (hlr.2.2 hx)
    | false =>
      rw [(findNode_spec sought hfull.1).2 hl, Option.none_or] at hit
      rw [if_neg Bool.false_ne_true]
      cases hr : hasRelationsDefined r sought with
      | true =>
        obtain ⟨u, hu⟩ := hfound hfull.2 hr
        rw [hu] at hit
        cases hit
        have hstep := leavesNone_step intoJoin (fun x => x = i ∨ x ∈ l.ids)
          (ihr hlr.2.1 hfull.2 hu) (fun x hx => ?_) (fun x hx h => ?_) (hbelow hfull.2 hu) hvisible
        · rw [if_pos rfl, ← hstep, hbehind]
        · rcases hitems x hx with h | h | h
          · exact .inl (.inl h)
          · exact .inl (.inr (mem_ids_of_itemIds h))
          · exact .inr h
        · exact h.elim (hi (.inr hx)) fun h => hlr.2.2 h hx
      | false =>
        rw [(findNode_spec sought hfull.2).2 hr, Option.getD_none, Option.some.injEq] at hit
        subst hit
        rw [if_neg Bool.false_ne_true, placedItems]
        cases intoJoin with
        | false => exact ⟨fun _ => hvisible, fun _ h => absurd h Bool.false_ne_true⟩
        | true =>
          simp only [forall_const, if_true]
          constructor
          · intro hself x hx
            rcases mem_itemIds_join (hvisible x hx) with rfl | h
            · exact absurd hx hself
            · exact h
          · intro h hx
            exact hi ((mem_of_visibleAt (h i hx)).imp mem_ids_of_itemIds mem_ids_of_itemIds) rfl

/-- What the condition of the node sees that got the conjunct. -/
private theorem visibleAt_carrier {cp : Bool} {c : Expr} {it after : RaNode}
    (h : Carrier cp c it after) :
    visibleAt db after = placedItems db (cp && !predicateContainsSubquery c) it := by
  cases h with
  | selection j p hit =>
    cases it with
    | join i join l r =>
      rw [isJoinFor] at hit
      rw [placedItems, hit]
      rfl
    | _ => rfl
  | join i join l r heq hit =>
    subst heq
    rw [isJoinFor] at hit
    rw [placedItems, hit]
    rfl

end

/-- The node that a conjunct is attached to sees all relations that are referred to if and only
if the search leaves none of them behind. -/
private theorem stepPosition_node (cp : Bool) {t : RaTree} (ht : WellFormed t) {i : Nat}
    {p : Expr} {child : RaNode} (hfind : find? i t.root = some (.selection i p child)) (c : Expr) :
    ∃ pos node, stepPosition cp t i c (soughtRelations c) = some pos ∧
      find? (pos.receiver t.nextId) (attach c t pos).root = some node ∧
      ∀ referred : List Nat, (∀ x ∈ referred, x ∈ itemIds db child) →
        ((∀ x ∈ referred, x ∈ visibleAt db node) ↔
          (hasRelationsDefined child (soughtRelations c) = true →
            LeavesNone (cp && !predicateContainsSubquery c) (soughtRelations c) referred child)) := by
  obtain ⟨-, K, hroot⟩ := exists_plug_of_find? hfind
  have hfull : child.Full := (full_plug.mp (hroot ▸ ht.full : (plug K (.selection i p child)).Full)).2
  have hselection : Distinct (.selection i p child) :=
    (distinct_plug.mp (hroot ▸ ht.distinct : Distinct (plug K (.selection i p child)))).2.1
  have hd : Distinct child := (List.nodup_cons.mp hselection).2
  simp only [stepPosition, hfind, position]
  cases hdef : hasRelationsDefined child (soughtRelations c) with
  | true =>
    obtain ⟨it, hit, hchild, hfull', -⟩ := (findNode_spec _ hfull).1 hdef
    have hroot' : t.root =
        plug (descent (soughtRelations c) child ++ .unary i (.selection p) :: K) it := by
      rw [plug_append, ← hchild, hroot]
      rfl
    obtain ⟨f, L, hfL⟩ : ∃ f L,
        descent (soughtRelations c) child ++ .unary i (.selection p) :: K = f :: L :=
      List.exists_cons_of_ne_nil (by simp)
    rw [hfL] at hroot'
    obtain ⟨pos, inner, before, after, hpos, hatt, -, hcarrier⟩ :=
      insertPosition_spec cp ht.distinct hroot' hfull' c
    refine ⟨pos, after, by rw [hit]; exact hpos, hatt.find?_receiver ht, fun referred hvisible => ?_⟩
    rw [visibleAt_carrier hcarrier]
    simp only [forall_const]
    exact (leavesNone_iff hd hfull hit hvisible).symm
  | false =>
    rw [(findNode_spec _ hfull).2 hdef]
    refine ⟨.selection i, _, rfl, (attachedAt_selection ht.distinct hroot c).find?_receiver ht,
      fun referred hvisible => ?_⟩
    exact ⟨fun _ h => absurd h Bool.false_ne_true, fun _ => hvisible⟩

/-- A conjunct is placed over all relations that it refers to if and only if the collectors
come to no missing operand and the search leaves none of these relations behind. -/
theorem isPlacedOverItsRelations_iff (cp : Bool) {t : RaTree} (ht : WellFormed t) {i : Nat}
    {p : Expr} {child : RaNode} (hfind : find? i t.root = some (.selection i p child)) (c : Expr) :
    IsPlacedOverItsRelations db cp t i child c ↔ hasConditions c = true ∧
      (hasRelationsDefined child (soughtRelations c) = true →
        LeavesNone (cp && !predicateContainsSubquery c) (soughtRelations c)
          (referredTo db child c) child) := by
  have hreferred (ids : List Nat) : (∀ x ∈ referredTo db child c, x ∈ ids) ↔
      ∀ r ∈ references c, ∀ i, refersTo db child r = some i → i ∈ ids := by
    simp only [referredTo, List.mem_filterMap]
    exact ⟨fun h r hr i hi => h i ⟨r, hr, hi⟩, fun h x ⟨r, hr, hx⟩ => h r hr x hx⟩
  have hvisible : ∀ x ∈ referredTo db child c, x ∈ itemIds db child := by
    rw [hreferred]
    intro r _ x hx
    obtain ⟨y, hy, rfl⟩ := Option.map_eq_some_iff.mp hx
    exact List.mem_map_of_mem (List.mem_of_find?_eq_some hy)
  rw [IsPlacedOverItsRelations, getPredicateRelations_eq]
  cases hcs : hasConditions c with
  | false =>
    refine ⟨fun ⟨_, _, _, h, _⟩ => ?_, fun h => absurd h.1 Bool.false_ne_true⟩
    cases h
  | true =>
    obtain ⟨pos, node, hpos, hnode, hplaced⟩ := stepPosition_node db cp ht hfind c
    have hiff : (∀ r ∈ references c, ∀ i, refersTo db child r = some i → i ∈ visibleAt db node) ↔
        (hasRelationsDefined child (soughtRelations c) = true →
          LeavesNone (cp && !predicateContainsSubquery c) (soughtRelations c)
            (referredTo db child c) child) := by
      rw [← hreferred]
      exact hplaced _ hvisible
    constructor
    · rintro ⟨rels, pos', node', hrels, hpos', hnode', h⟩
      cases hrels
      cases hpos'.symm.trans hpos
      cases hnode'.symm.trans hnode
      exact ⟨rfl, hiff.mp h⟩
    · rintro ⟨-, h⟩
      exact ⟨_, pos, node, rfl, hpos, hnode, hiff.mpr h⟩

/-- Every table has the columns `a` and `b`. -/
def emptyTables : Database Unit := fun _ => ⟨["a", "b"], [], by simp⟩

/-- `r, s` as the parser builds it. -/
def crossed : RaNode := .join 4 { type := .crossProduct } (.relation 3 "s" "") (.relation 2 "r" "")

/-- `select * from r, s where condition`. -/
def crossedWhere (condition : Expr) : RaTree where
  root := .projection 0 { args := [.selectExpression (.attribute "*" "") ""] }
    (.selection 1 condition crossed)
  nextId := 5

private theorem wellFormed_crossedWhere (p : Expr) : WellFormed (crossedWhere p) := by
  refine ⟨?_, ⟨trivial, trivial⟩, ?_, rfl⟩
  · simp only [Distinct, crossedWhere, crossed, RaNode.ids]
    decide
  · simp only [crossedWhere, crossed, RaNode.ids]
    decide

/-- `s.b = r.a` goes to the cross product of both tables. -/
theorem comparison_placed_over_both : IsPlacedOverItsRelations emptyTables true
    (crossedWhere (.predicate (.attribute "b" "s") (.attribute "a" "r") "=")) 1 crossed
    (.predicate (.attribute "b" "s") (.attribute "a" "r") "=") := by
  refine (isPlacedOverItsRelations_iff emptyTables true (wellFormed_crossedWhere _) rfl _).mpr
    ⟨rfl, fun _ => ?_⟩
  show true = true → 4 ∉ referredTo emptyTables crossed _
  decide

/-- `case when s.b=1 then 1 else 0 end = r.a`. -/
def caseCondition : Expr :=
  .predicate (.caseExpr [.caseWhen (.predicate (.attribute "b" "s") (.constant "1" .int) "=")
    (.constant "1" .int)] (.constant "0" .int)) (.attribute "a" "r") "="

/-- `select * from r, s where case when s.b=1 then 1 else 0 end = r.a`. -/
def caseQuery : PgNode :=
  .selectStmt false [.resTarget "" (.columnRef ["*"])] [.rangeVar "r" none, .rangeVar "s" none]
    (.aExpr .op "=" (.caseExpr [.caseWhen (.aExpr .op "=" (.columnRef ["s", "b"])
      (.aConst (.integer 1))) (.aConst (.integer 1))] (.aConst (.integer 0)))
      (.columnRef ["r", "a"])) [] .nullptr [] []

/-- `s.b` is not seen inside the case expression, so the condition goes to `r` alone. -/
theorem caseExpression_placed_without_s :
    (parse caseQuery).map Prod.fst = some (crossedWhere caseCondition).root ∧
      ∀ cp, ¬ IsPlacedOverItsRelations emptyTables cp (crossedWhere caseCondition) 1 crossed
        caseCondition := by
  refine ⟨rfl, fun cp ⟨rels, pos, node, hrels, hpos, hnode, h⟩ => ?_⟩
  cases hrels
  have hposition : pos = .newSelection 4 1 (.relation 2 "r" "") := by
    cases cp <;> exact (Option.some.inj hpos).symm
  subst hposition
  cases hnode
  have hmem := h (.column "b" "s") (by decide) 3 (by decide)
  revert hmem
  decide

end SqlOptimizer.Tree.PlacedConditions
