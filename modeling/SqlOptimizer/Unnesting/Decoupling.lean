import SqlOptimizer.Parse.Inventory
import SqlOptimizer.Tree.OuterJoins
import SqlOptimizer.Unnesting.Renaming

/-!
When a dependent join can be dropped. On the rows above it every attribute of D must equal the
attribute that takes its place, and none of these rows may get lost with the join.
-/

set_option autoImplicit false
set_option relaxedAutoImplicit false

namespace SqlOptimizer.Unnesting.Decoupling

open Algebra.RelationalAlgebra
open Tree.Frames Tree.Walks
open Tree.OuterJoins (equality oneRow)
open Parse.Inventory (unaryExprs)
open Logic.ThreeValued
open Semantics.Evaluation Semantics.References Semantics.RowShape Semantics.Equivalence
open Semantics.RowsAbove
open Objects Attributes Markers Decouple Counterparts Renaming

/-- A Selection, or a cross product, an inner or a left join of rows. -/
def isSelectionOrJoin : Frame → Bool
  | .unary _ (.selection _) => true
  | .unary _ _ => false
  | .left _ join _ => join.aliasName = "" ∧ join.marker = 0 ∧
      (join.type = .crossProduct ∨ join.type = .inner ∨ join.type = .left)
  | .right _ join _ => join.aliasName = "" ∧ join.marker = 0 ∧
      (join.type = .crossProduct ∨ join.type = .inner ∨ join.type = .left)

/-- An operator that works on groups or orders rows. -/
def isGrouping : Frame → Bool
  | .unary _ (.groupBy _ _) => true
  | .unary _ (.having _) => true
  | .unary _ (.orderBy _ _) => true
  | _ => false

/-- A dependent join with D below a stack of Selections and joins. Above the stack are the operators
on groups, if there are any, and the parent projection. -/
structure Place where
  projectionId : Nat
  projection : Projection
  grouping : List Frame
  stack : List Frame
  depJoin : Nat
  join : Join
  dId : Nat
  dProjection : Projection
  dChild : RaNode
  right : RaNode
  grouping_ok : ∀ f ∈ grouping, isGrouping f = true
  stack_ok : ∀ f ∈ stack, isSelectionOrJoin f = true
  join_ok : isPlainJoin join = true
  alias_d : dProjection.subqueryAlias = "d"
  once : depJoin ≠ projectionId ∧ depJoin ∉ contextIds (stack ++ grouping)

namespace Place

variable (w : Place)

def d : RaNode := .projection w.dId w.dProjection w.dChild

/-- The dependent join and the operators of the stack. -/
def path : List Frame := .right w.depJoin w.join w.d :: w.stack

/-- The tree whose rows reach the first operator on groups, or the projection. -/
def below : RaNode := plug w.path w.right

def parentProjection : RaNode := .projection w.projectionId w.projection (plug w.grouping w.below)

/-- The expressions above the stack. -/
def used : List Expr :=
  w.projection.args ++ w.grouping.flatMap fun f =>
    match f with
    | .unary _ op => unaryExprs op
    | _ => []

/-- The attributes of D that `can_decouple` collects. -/
def collected : List AttributeRef :=
  (findAttributesUsingAlias ["d"] (some w.depJoin) false w.parentProjection).getD []

/-- The conditions of the stack. -/
def conditions : List Expr := conditionsAlong w.stack

end Place

/-- The renaming in the condition of an operator of the stack. -/
def renameFrame (m : RenameMap) : Frame → Frame
  | .unary i (.selection p) => .unary i (.selection (renameExpression m p))
  | .unary i op => .unary i op
  | .left i join r => .left i { join with predicate := renameExpression m join.predicate } r
  | .right i join l => .right i { join with predicate := renameExpression m join.predicate } l

/-- The tree without the join with D. -/
def Place.withoutD (w : Place) (m : RenameMap) : RaNode :=
  plug (w.stack.map (renameFrame m)) w.right

/-- On every row that reaches the grouping or the projection an attribute of D equals the one it is
mapped to, and without the join there is a row with the same values in its place. -/
structure Replaceable {V : Type} [DecidableEq V] (w : Place) (m : RenameMap) (db : Database V)
    (I : Interpretation V) (env : Row V) : Prop where
  equal : ∀ t ∈ evaluate db I w.below env, ∀ n, .column n "d" ∈ allReferences w.used →
    lookup (t.row ++ env) (.column n "d") =
      lookup (t.row ++ env) (renamedReference m (.column n "d"))
  kept : ∀ t ∈ evaluate db I w.below env, ∃ t' ∈ evaluate db I (w.withoutD m) env,
    ∀ r ∈ allReferences w.used,
      lookup (t'.row ++ env) (renamedReference m r) = lookup (t.row ++ env) r

/-- The attribute that the operator's condition equates with an attribute of D. -/
def suppliedBy (n : String) (f : Frame) : Option AttributeRef := (conditionOf f).bind (counterpart n)

/-- A reference with the counterpart of an attribute of D in its place. -/
def replaced (w : Place) : Reference → Reference
  | .column n "d" =>
      match w.path.findSome? (suppliedBy n) with
      | some b => .column b.1 b.2
      | none => .column n "d"
  | r => r

/-- The condition: no left join of the stack has the dependent join on its nullable side, the first
equality for an attribute of D is not in the condition of a left join, all attributes of D are
found and renamed, and the names are not ambiguous. -/
structure Decouplable {V : Type} (w : Place) (db : Database V) : Prop where
  preserved : ∀ f ∈ w.stack, isStackFrame f = true
  supplied : ∀ a ∈ w.collected, ∀ f ∈ w.path.find? fun f => (suppliedBy a.1 f).isSome,
    isLeftJoin f = false
  found : ∀ n, .column n "d" ∈ allReferences (w.used ++ w.conditions) →
    n ∈ w.collected.map Prod.fst
  reached : ∀ p ∈ w.conditions, Reached p
  visible : ∀ K f L, w.path = K ++ f :: L → ∀ p ∈ conditionsAlong K, ∀ r ∈ references p,
    ¬ Offers (siblingRow db f) r ∧ ¬ Offers (siblingRow db f) (replaced w r)
  unambiguous : ∀ r ∈ allReferences (w.used ++ w.conditions), ¬ Offers (nullRow db w.d) (replaced w r)

theorem conditionsAlong_cons (f : Frame) (K : List Frame) :
    conditionsAlong (f :: K) = conditionsAlong [f] ++ conditionsAlong K := by
  rw [conditionsAlong, conditionsAlong, conditionsAlong, ← List.filter_append,
    ← List.filterMap_append]
  rfl

theorem conditionsAlong_append (K L : List Frame) :
    conditionsAlong (K ++ L) = conditionsAlong K ++ conditionsAlong L := by
  rw [conditionsAlong, conditionsAlong, conditionsAlong, ← List.filter_append,
    ← List.filterMap_append]

theorem isPresent_of_mem_references {p : Expr} {r : Reference} (hr : r ∈ references p) :
    p.isPresent = true := by
  cases p <;> first | rfl | cases hr

theorem mem_conditionsAlong {f : Frame} {K : List Frame} {p : Expr} (hp : conditionOf f = some p)
    (hpresent : p.isPresent = true) : p ∈ conditionsAlong (f :: K) :=
  List.mem_filter.mpr ⟨List.mem_filterMap.mpr ⟨f, List.mem_cons_self, hp⟩, hpresent⟩

theorem conditionsAlong_grouping {K : List Frame} (h : ∀ f ∈ K, isGrouping f = true) :
    conditionsAlong K = [] := by
  have hnone : K.filterMap conditionOf = [] := by
    rw [List.filterMap_eq_nil_iff]
    intro f hf
    have hg := h f hf
    cases f with
    | unary i op => cases op <;> first | rfl | cases hg
    | _ => cases hg
  rw [conditionsAlong, hnone]
  rfl

/-- Both sides of the equality occur in the condition. -/
theorem mem_references_of_counterpart {n : String} {p : Expr} {b : AttributeRef}
    (h : counterpart n p = some b) :
    .column n "d" ∈ references p ∧ .column b.1 b.2 ∈ references p := by
  induction p using Expr.ind with
  | boolPredicate op args ih =>
    cases op with
    | and =>
      rw [counterpart] at h
      have hmem : ∃ e ∈ args, counterpart n e = some b := by
        clear ih
        induction args with
        | nil => cases h
        | cons e es ihes =>
          rcases Option.or_eq_some_iff.mp h with h | ⟨-, h⟩
          · exact ⟨e, List.mem_cons_self, h⟩
          · obtain ⟨e', he', h⟩ := ihes h
            exact ⟨e', List.mem_cons_of_mem _ he', h⟩
      obtain ⟨e, he, hb⟩ := hmem
      exact (ih e he hb).imp (mem_allReferences he) (mem_allReferences he)
    | _ => cases h
  | predicate l r op =>
    cases l with
    | «attribute» x a =>
      cases r with
      | «attribute» x' a' =>
        rw [counterpart] at h
        split at h
        · split at h
          · next hside =>
            obtain ⟨rfl, rfl, -⟩ := hside
            cases h
            simp [references]
          · split at h
            · next hside =>
              obtain ⟨rfl, rfl, -⟩ := hside
              cases h
              simp [references]
            · cases h
        · cases h
      | _ => cases h
    | _ => cases h
  | _ => cases h

theorem findSome?_conditionsAlong (n : String) (K : List Frame) :
    (conditionsAlong K).findSome? (counterpart n) = K.findSome? (suppliedBy n) := by
  induction K with
  | nil => rfl
  | cons f K ih =>
    rw [conditionsAlong_cons, List.findSome?_append, ih, List.findSome?_cons]
    cases hf : conditionOf f with
    | none => simp [conditionsAlong, suppliedBy, hf]
    | some p =>
      cases hp : p.isPresent with
      | true => cases hb : counterpart n p <;> simp [conditionsAlong, suppliedBy, hf, hp, hb]
      | false =>
        cases p with
        | nullptr => simp [conditionsAlong, suppliedBy, hf, counterpart, Expr.isPresent]
        | _ => cases hp

section

variable {V : Type} [DecidableEq V] {db : Database V} {I : Interpretation V} {env : Row V} {w : Place}

omit [DecidableEq V] in
theorem isStackFrame_path (h : Decouplable w db) : ∀ f ∈ w.path, isStackFrame f = true := by
  rw [Place.path, List.forall_mem_cons]
  exact ⟨w.join_ok, h.preserved⟩

/-- On all rows above the stack an attribute of D has the value of its counterpart, and is not
NULL. -/
theorem lookup_of_supplied (h : Decouplable w db) (hI : TrueEquality I) {n : String}
    {b : AttributeRef} (hn : n ∈ w.collected.map Prod.fst)
    (hb : w.path.findSome? (suppliedBy n) = some b) :
    ∀ t ∈ evaluate db I w.below env,
      lookup (t.row ++ env) (.column n "d") = lookup (t.row ++ env) (.column b.1 b.2) ∧
        (lookup (t.row ++ env) (.column n "d")).1 ≠ none := by
  obtain ⟨K, f, L, hpath, hf, hK⟩ := List.findSome?_eq_some_iff.mp hb
  obtain ⟨a, ha, rfl⟩ := List.mem_map.mp hn
  have hleft : isLeftJoin f = false := by
    refine h.supplied a ha f (List.find?_eq_some_iff_append.mpr ⟨?_, K, L, hpath, fun g hg => ?_⟩)
    · rw [hf]
      rfl
    · rw [hK g hg]
      rfl
  obtain ⟨p, hp, hbp⟩ := Option.bind_eq_some_iff.mp hf
  obtain ⟨hleftSide, hrightSide⟩ := mem_references_of_counterpart hbp
  have hframes := isStackFrame_path h
  rw [Place.below, hpath, plug_append, plug_cons]
  rw [hpath] at hframes
  refine forall_evaluate_plug (fun g hg => hframes g (by simp [hg])) (fun u hu => ?_) ?_
  · -- the rows that have passed the condition
    obtain ⟨u', -, hext⟩ := (mem_evaluate_plug (hframes f (by simp))).mp hu
    have htruth : truth I ⟨u.row ++ env, []⟩ p = .tt := by
      simpa [satisfies] using satisfies_of_extends hext hleft hp
    obtain ⟨heq, hsome⟩ := lookup_counterpart hI hbp htruth
    refine ⟨Prod.ext heq ?_, hsome⟩
    rw [lookup_column_snd, lookup_column_snd]
  · rintro g hg u t hext ⟨heq, hsome⟩
    obtain ⟨L₁, L₂, rfl⟩ := List.append_of_mem hg
    have hvisible := h.visible (K ++ f :: L₁) g L₂ (by simp [hpath]) p (by
      rw [conditionsAlong_append]
      exact List.mem_append_right _ (mem_conditionsAlong hp
        (isPresent_of_mem_references hleftSide)))
    have hg' := hframes g (by simp)
    have hleft := @lookup_of_extends _ _ db I env _ _ _ hext hg' _ (hvisible _ hleftSide).1
    have hright := @lookup_of_extends _ _ db I env _ _ _ hext hg' _ (hvisible _ hrightSide).1
    exact ⟨by rw [hleft, hright, heq], by rw [hleft]; exact hsome⟩

end

section

variable {V : Type} (db : Database V) (d : RaNode)

/-- The second row is the first one without the bindings of D. -/
def WithoutD (t t' : Tuple V) : Prop :=
  ∃ before dRow after, t.row = before ++ dRow ++ after ∧ t'.row = before ++ after ∧
    dRow.map erase = nullRow db d

variable {db d} {env : Row V}

theorem lookup_withoutD {t t' : Tuple V} (h : WithoutD db d t t') {r : Reference}
    (hoff : ¬ Offers (nullRow db d) r) : lookup (t'.row ++ env) r = lookup (t.row ++ env) r := by
  obtain ⟨before, dRow, after, ht, ht', hd⟩ := h
  have hoff' : ¬ Offers dRow r := by
    rw [← offers_erase, hd]
    exact hoff
  rw [ht, ht', List.append_assoc, List.append_assoc, List.append_assoc]
  exact lookup_append_congr (lookup_append_left hoff').symm

theorem WithoutD.append {t t' : Tuple V} (h : WithoutD db d t t') (b : Tuple V) :
    WithoutD db d (beside t b) (beside t' b) := by
  obtain ⟨before, dRow, after, ht, ht', hd⟩ := h
  exact ⟨before, dRow, after ++ b.row, by simp [beside, ht], by simp [beside, ht'], hd⟩

theorem WithoutD.prepend {t t' : Tuple V} (h : WithoutD db d t t') (a : Tuple V) :
    WithoutD db d (beside a t) (beside a t') := by
  obtain ⟨before, dRow, after, ht, ht', hd⟩ := h
  exact ⟨a.row ++ before, dRow, after, by simp [beside, ht], by simp [beside, ht'], hd⟩

/-- The row offers what D offers. -/
theorem WithoutD.offers {t t' : Tuple V} (h : WithoutD db d t t') {r : Reference}
    (hr : Offers (nullRow db d) r) : Offers t.row r := by
  obtain ⟨before, dRow, after, ht, -, hd⟩ := h
  rw [← hd, offers_erase] at hr
  rw [ht, offers_append, offers_append]
  exact .inl (.inr hr)

/-- On the row the conditions read what they will read after the renaming, and no attribute of D in
them is NULL. -/
def ReadsRenamed (env : Row V) (m : RenameMap) (conditions : List Expr) (t : Tuple V) : Prop :=
  ∀ p ∈ conditions, ∀ r ∈ references p,
    lookup (t.row ++ env) (renamedReference m r) = lookup (t.row ++ env) r ∧
      ∀ n, r = .column n "d" → (lookup (t.row ++ env) r).1 ≠ none

/-- A row of NULLs has no values. -/
theorem lookup_nullRow {x : RaNode} {r : Reference} (hr : Offers (nullRow db x) r) :
    (lookup (nullRow db x ++ env) r).1 = none := by
  have hnull : ∀ b ∈ nullRow db x, ∀ v, resolve r b = some v → v.1 = none := by
    intro b hb v hv
    rw [← nullRow_erase] at hb
    obtain ⟨b', -, rfl⟩ := List.mem_map.mp hb
    cases b' with
    | source q cs =>
      cases r with
      | marker k => cases hv
      | column n a =>
        have hcs (w : Option V) (hw : (cs.map fun c => (c.1, (none : Option V))).lookup n = some w) :
            w = none := by
          obtain ⟨l₁, l₂, heq, -⟩ := List.lookup_eq_some_iff.mp hw
          have hmem : (n, w) ∈ cs.map fun c => (c.1, (none : Option V)) := by simp [heq]
          obtain ⟨c, -, hc⟩ := List.mem_map.mp hmem
          exact (congrArg Prod.snd hc).symm
        rw [erase, resolve] at hv
        split at hv
        · obtain ⟨w, hw, rfl⟩ := Option.map_eq_some_iff.mp hv
          exact hcs w hw
        · rw [Option.ite_none_right_eq_some] at hv
          obtain ⟨-, hv⟩ := hv
          cases hv
          cases hw : (cs.map fun c => (c.1, (none : Option V))).lookup n with
          | none => rfl
          | some w => exact hcs w hw
    | subquery k v h =>
      cases r with
      | column n a => cases hv
      | marker k' =>
        rw [erase, resolve, Option.ite_none_right_eq_some] at hv
        obtain ⟨-, hv⟩ := hv
        cases hv
        rfl
  obtain ⟨b, hb, hsome⟩ := hr
  cases hfind : (nullRow db x).findSome? (resolve r) with
  | none =>
    rw [List.findSome?_eq_none_iff] at hfind
    rw [hfind b hb] at hsome
    cases hsome
  | some v =>
    obtain ⟨b', hb', hv⟩ := List.exists_of_findSome?_eq_some hfind
    rw [lookup, List.findSome?_append, hfind]
    exact hnull b' hb' v hv

variable [DecidableEq V] {I : Interpretation V} {m : RenameMap}

/-- The renamed condition on the row without D. -/
theorem satisfies_rename (hm : RenamesD m) {p : Expr} (hreached : Reached p) {t t' : Tuple V}
    (hdrop : WithoutD db d t t')
    (hoff : ∀ r ∈ references p, ¬ Offers (nullRow db d) (renamedReference m r))
    (hreads : ∀ r ∈ references p,
      lookup (t.row ++ env) (renamedReference m r) = lookup (t.row ++ env) r) :
    satisfies I env (renameExpression m p) t' = satisfies I env p t := by
  have hsame : SameMeaning I (t.row ++ env) (t'.row ++ env) p (renameExpression m p) :=
    sameMeaning_renameExpression hm
      (fun r hr => (lookup_withoutD hdrop (hoff r hr)).trans (hreads r hr)) hreached
  have htruth : truth I ⟨t'.row ++ env, []⟩ (renameExpression m p) = truth I ⟨t.row ++ env, []⟩ p :=
    hsame.truth
  simp only [satisfies, htruth]

theorem isStackFrame_renameFrame (m : RenameMap) (f : Frame) :
    isStackFrame (renameFrame m f) = isStackFrame f := by
  cases f with
  | unary i op => cases op <;> rfl
  | _ => rfl

/-- Above a left join whose left side has no match: the condition of the join on the row with
another right side. -/
private theorem lookup_beside_of_padded {u b : Tuple V} {r : RaNode}
    (hb : b ∈ evaluate db I r env) {x y : Reference} (hx : Offers u.row x)
    (hsome : (lookup (u.row ++ nullRow db r ++ env) x).1 ≠ none)
    (heq : lookup (u.row ++ nullRow db r ++ env) y = lookup (u.row ++ nullRow db r ++ env) x) :
    lookup (u.row ++ b.row ++ env) y = lookup (u.row ++ b.row ++ env) x := by
  have hown {z : Reference} (hz : Offers u.row z) (after : Row V) :
      lookup (u.row ++ after ++ env) z = lookup (u.row ++ env) z := by
    obtain ⟨b, hb, hsome⟩ := hz
    cases hfind : u.row.findSome? (resolve z) with
    | none =>
      rw [List.findSome?_eq_none_iff] at hfind
      rw [hfind b hb] at hsome
      cases hsome
    | some v => simp [lookup, List.findSome?_append, hfind]
  rw [hown hx] at heq hsome ⊢
  by_cases hy : Offers u.row y
  · rw [hown hy] at heq ⊢
    exact heq
  · rw [List.append_assoc, lookup_append_left hy] at heq ⊢
    by_cases hnull : Offers (nullRow db r) y
    · exact absurd ((congrArg Prod.fst heq).symm.trans (lookup_nullRow hnull)) hsome
    · have hb' : ¬ Offers b.row y := by
        rw [← offers_erase, shape_evaluate db I r env b hb]
        exact hnull
      rw [lookup_append_left hnull] at heq
      rw [lookup_append_left hb']
      exact heq

section

variable {f : Frame} {x x' : RaNode} {conditions : List Expr} (hm : RenamesD m)
  (hoffers : ∀ n, Offers (nullRow db d) (.column n "d")) (hf : isStackFrame f = true)
  (hvisible : ∀ p ∈ conditions, ∀ r ∈ references p,
    ¬ Offers (siblingRow db f) r ∧ ¬ Offers (siblingRow db f) (renamedReference m r))
  (hreached : ∀ p, conditionOf f = some p → Reached p)
  (hoff : ∀ p, conditionOf f = some p → ∀ r ∈ references p,
    ¬ Offers (nullRow db d) (renamedReference m r))

include hm hoffers hf hvisible hreached hoff

/-- One operator: a row above it, and the row above it that is left without D. -/
private theorem exists_withoutD_frame
    (hx : ∀ u ∈ evaluate db I x env, ReadsRenamed env m conditions u →
      ∃ u' ∈ evaluate db I x' env, WithoutD db d u u') :
    ∀ t ∈ evaluate db I (f.plug x) env,
      ReadsRenamed env m (conditions ++ conditionsAlong [f]) t →
      ∃ t' ∈ evaluate db I ((renameFrame m f).plug x') env, WithoutD db d t t' := by
  intro t ht hreads
  obtain ⟨u, hu, hext⟩ := (mem_evaluate_plug hf).mp ht
  have hreadsBelow : ReadsRenamed env m conditions u := by
    intro p hp r hr
    have hbelow {r : Reference} (h : ¬ Offers (siblingRow db f) r) :
        lookup (t.row ++ env) r = lookup (u.row ++ env) r := lookup_of_extends hext hf h
    obtain ⟨heq, hsome⟩ := hreads p (List.mem_append_left _ hp) r hr
    rw [hbelow (hvisible p hp r hr).1, hbelow (hvisible p hp r hr).2] at heq
    refine ⟨heq, fun n hn => ?_⟩
    rw [← hbelow (hvisible p hp r hr).1]
    exact hsome n hn
  have hown {p : Expr} (hp : conditionOf f = some p) {r : Reference} (hr : r ∈ references p) :=
    hreads p (List.mem_append_right _
      (mem_conditionsAlong hp (isPresent_of_mem_references hr))) r hr
  obtain ⟨u', hu', hdrop⟩ := hx u hu hreadsBelow
  have hsat {p : Expr} (hp : conditionOf f = some p) {t' : Tuple V} (hdrop' : WithoutD db d t t') :
      satisfies I env (renameExpression m p) t' = satisfies I env p t :=
    satisfies_rename hm (hreached p hp) hdrop' (hoff p hp) fun r hr => (hown hp hr).1
  suffices ∃ t', Extends db I env (renameFrame m f) u' t' ∧ WithoutD db d t t' by
    obtain ⟨t', hext', hdrop'⟩ := this
    exact ⟨t', (mem_evaluate_plug ((isStackFrame_renameFrame m f).trans hf)).mpr
      ⟨u', hu', hext'⟩, hdrop'⟩
  cases f with
  | unary i op =>
    cases op with
    | selection p =>
      obtain ⟨rfl, hp⟩ := hext
      exact ⟨u', ⟨rfl, (hsat rfl hdrop).trans hp⟩, hdrop⟩
    | _ => cases hf
  | left i join r =>
    rcases hext with ⟨b, hb, rfl, hp⟩ | ⟨htype, rfl, hnone⟩
    · exact ⟨beside u' b, .inl ⟨b, hb, rfl, (hsat rfl (hdrop.append b)).trans hp⟩, hdrop.append b⟩
    · refine ⟨_, .inr ⟨htype, rfl, fun b hb => ?_⟩, hdrop.append _⟩
      rw [← hnone b hb]
      refine satisfies_rename hm (hreached _ rfl) (hdrop.append b) (hoff _ rfl) fun r' hr' => ?_
      obtain ⟨heq, hsome⟩ := hown rfl hr'
      by_cases hd : ∃ n, r' = .column n "d"
      · obtain ⟨n, rfl⟩ := hd
        exact lookup_beside_of_padded hb (hdrop.offers (hoffers n)) (hsome n rfl) heq
      · rw [renamedReference_of_ne hm fun n hn => hd ⟨n, hn⟩]
  | right i join l =>
    obtain ⟨a, ha, rfl, hp⟩ := hext
    exact ⟨beside a u', ⟨a, ha, rfl, (hsat rfl (hdrop.prepend a)).trans hp⟩, hdrop.prepend a⟩

end

/-- The whole stack. -/
private theorem exists_withoutD_stack (hm : RenamesD m)
    (hoffers : ∀ n, Offers (nullRow db d) (.column n "d")) {L : List Frame} {x x' : RaNode}
    {conditions : List Expr} (hL : ∀ f ∈ L, isStackFrame f = true)
    (hvisible : ∀ K f M, L = K ++ f :: M → ∀ p ∈ conditions ++ conditionsAlong K,
      ∀ r ∈ references p,
        ¬ Offers (siblingRow db f) r ∧ ¬ Offers (siblingRow db f) (renamedReference m r))
    (hreached : ∀ f ∈ L, ∀ p, conditionOf f = some p → Reached p)
    (hoff : ∀ f ∈ L, ∀ p, conditionOf f = some p → ∀ r ∈ references p,
      ¬ Offers (nullRow db d) (renamedReference m r))
    (hx : ∀ u ∈ evaluate db I x env, ReadsRenamed env m conditions u →
      ∃ u' ∈ evaluate db I x' env, WithoutD db d u u') :
    ∀ t ∈ evaluate db I (plug L x) env, ReadsRenamed env m (conditions ++ conditionsAlong L) t →
      ∃ t' ∈ evaluate db I (plug (L.map (renameFrame m)) x') env, WithoutD db d t t' := by
  induction L generalizing x x' conditions with
  | nil => simpa [conditionsAlong] using hx
  | cons f L ih =>
    rw [List.forall_mem_cons] at hL hreached hoff
    rw [conditionsAlong_cons, ← List.append_assoc]
    refine ih hL.2 (fun K g M hLK p hp => ?_) hreached.2 hoff.2 ?_
    · refine hvisible (f :: K) g M (by rw [hLK, List.cons_append]) p ?_
      rwa [conditionsAlong_cons, ← List.append_assoc]
    · refine exists_withoutD_frame hm hoffers hL.1 (fun p hp => ?_) hreached.1 hoff.1 hx
      exact hvisible [] f L rfl p (List.mem_append_left _ hp)

end

section

variable {V : Type} [DecidableEq V] {db : Database V} {I : Interpretation V} {w : Place}
  {m m' : RenameMap}

/-- What a call that succeeds has entered for the attributes of D that are used. -/
theorem canDecouple_found (hm : RenamesD m)
    (h : canDecouple w.depJoin w.parentProjection m = some (true, m')) :
    RenamesD m' ∧ ∀ n ∈ w.collected.map Prod.fst, ∃ b,
      w.path.findSome? (suppliedBy n) = some b ∧ renamed m' n "d" = b := by
  have htree : w.parentProjection = .projection w.projectionId w.projection
      (plug (w.stack ++ w.grouping) (.join w.depJoin w.join w.d w.right)) := by
    rw [plug_append]
    rfl
  have hproj : NoProjection (w.stack ++ w.grouping) := by
    intro i pr hmem
    rcases List.mem_append.mp hmem with hmem | hmem
    · cases w.stack_ok _ hmem
    · cases w.grouping_ok _ hmem
  rw [htree] at h
  obtain ⟨attributes, hattributes, hfound⟩ :=
    canDecouple_plug (Ne.symm w.once.1) w.once.2 hproj h
  have hconditions : conditionsAlong (.right w.depJoin w.join w.d :: (w.stack ++ w.grouping)) =
      conditionsAlong w.path := by
    rw [← List.cons_append, conditionsAlong_append, conditionsAlong_grouping w.grouping_ok,
      List.append_nil]
    rfl
  rw [hconditions] at hfound
  obtain ⟨hall, -, hkeys⟩ := findEquivalents_eq_true hfound
  have hcollected : w.collected = attributes := by
    rw [Place.collected, htree, hattributes]
    rfl
  refine ⟨hkeys hm, fun n hn => ?_⟩
  rw [hcollected] at hn
  obtain ⟨a, ha, rfl⟩ := List.mem_map.mp hn
  obtain ⟨b, hb, hlookup⟩ := hall a ha
  rw [findSome?_conditionsAlong] at hb
  exact ⟨b, hb, renamed_of_lookup hlookup⟩

omit [DecidableEq V] in
/-- D offers all attributes with its name as qualifier. -/
theorem offers_d (w : Place) (n : String) : Offers (nullRow db w.d) (.column n "d") := by
  rw [Place.d, nullRow, projectRow, w.alias_d]
  exact ⟨_, List.mem_singleton_self _, by simp [resolve]⟩

/-- `can_decouple` is right under the condition. -/
theorem canDecouple_replaceable (hm : RenamesD m)
    (h : canDecouple w.depJoin w.parentProjection m = some (true, m')) (hw : Decouplable w db)
    (hI : TrueEquality I) (env : Row V) : Replaceable w m' db I env := by
  obtain ⟨hm', hfound⟩ := canDecouple_found hm h
  have hequal (n : String) (hn : n ∈ w.collected.map Prod.fst) :
      ∀ t ∈ evaluate db I w.below env,
        lookup (t.row ++ env) (.column n "d") =
          lookup (t.row ++ env) (renamedReference m' (.column n "d")) ∧
        (lookup (t.row ++ env) (.column n "d")).1 ≠ none := by
    obtain ⟨b, hb, hrenamed⟩ := hfound n hn
    rw [renamedReference, hrenamed]
    exact lookup_of_supplied hw hI hn hb
  -- the map replaces as the condition says
  have hreplaced {r : Reference} (hr : ∀ n, r = .column n "d" → n ∈ w.collected.map Prod.fst) :
      replaced w r = renamedReference m' r := by
    by_cases hd : ∃ n, r = .column n "d"
    · obtain ⟨n, rfl⟩ := hd
      obtain ⟨b, hb, hrenamed⟩ := hfound n (hr n rfl)
      rw [renamedReference, hrenamed, replaced, hb]
    · rw [renamedReference_of_ne hm' fun n hn => hd ⟨n, hn⟩]
      unfold replaced
      split
      · next n => exact absurd ⟨n, rfl⟩ hd
      · rfl
  have hall {r : Reference} (hr : r ∈ allReferences (w.used ++ w.conditions)) (n : String)
      (hn : r = .column n "d") : n ∈ w.collected.map Prod.fst := hw.found n (hn ▸ hr)
  have hused {r : Reference} (hr : r ∈ allReferences w.used) :
      r ∈ allReferences (w.used ++ w.conditions) := by
    rw [allReferences_eq_flatMap] at hr ⊢
    rw [List.flatMap_append]
    exact List.mem_append_left _ hr
  have hcond {p : Expr} (hp : p ∈ w.conditions) {r : Reference} (hr : r ∈ references p) :
      r ∈ allReferences (w.used ++ w.conditions) :=
    mem_allReferences (List.mem_append_right _ hp) hr
  have hoff {r : Reference} (hr : r ∈ allReferences (w.used ++ w.conditions)) :
      ¬ Offers (nullRow db w.d) (renamedReference m' r) := by
    rw [← hreplaced (hall hr)]
    exact hw.unambiguous r hr
  refine ⟨fun t ht n hn => (hequal n (hw.found n (hused hn)) t ht).1, fun t ht => ?_⟩
  have hreads : ReadsRenamed env m' w.conditions t := by
    intro p hp r hr
    by_cases hd : ∃ n, r = .column n "d"
    · obtain ⟨n, rfl⟩ := hd
      obtain ⟨heq, hsome⟩ := hequal n (hw.found n (hcond hp hr)) t ht
      exact ⟨heq.symm, fun _ _ => hsome⟩
    · exact ⟨by rw [renamedReference_of_ne hm' fun n hn => hd ⟨n, hn⟩],
        fun n hn => absurd ⟨n, hn⟩ hd⟩
  have hown {f : Frame} (hf : f ∈ w.stack) {p : Expr} (hp : conditionOf f = some p)
      (hpresent : p.isPresent = true) : p ∈ w.conditions := by
    obtain ⟨K, L, hKL⟩ := List.append_of_mem hf
    rw [Place.conditions, hKL, conditionsAlong_append]
    exact List.mem_append_right _ (mem_conditionsAlong hp hpresent)
  have hvisible : ∀ K f M, w.stack = K ++ f :: M → ∀ p ∈ [] ++ conditionsAlong K,
      ∀ r ∈ references p, ¬ Offers (siblingRow db f) r ∧
        ¬ Offers (siblingRow db f) (renamedReference m' r) := by
    intro K f M hKM p hp r hr
    have hp' : p ∈ w.conditions := by
      rw [Place.conditions, hKM, conditionsAlong_append]
      exact List.mem_append_left _ hp
    rw [← hreplaced (hall (hcond hp' hr))]
    refine hw.visible (.right w.depJoin w.join w.d :: K) f M (by rw [Place.path, hKM]; rfl) p ?_ r hr
    rw [conditionsAlong_cons]
    exact List.mem_append_right _ hp
  have hreached : ∀ f ∈ w.stack, ∀ p, conditionOf f = some p → Reached p := by
    intro f hf p hp n hn
    have hpresent : p.isPresent = true := by
      cases p <;> first | rfl | cases hn
    exact hw.reached p (hown hf hp hpresent) n hn
  -- the dependent join itself
  have hbase : ∀ u ∈ evaluate db I (.join w.depJoin w.join w.d w.right) env,
      ReadsRenamed env m' [] u → ∃ u' ∈ evaluate db I w.right env, WithoutD db w.d u u' := by
    intro u hu _
    obtain ⟨u', hu', a, ha, rfl, -⟩ :=
      (mem_evaluate_plug (f := .right w.depJoin w.join w.d) w.join_ok).mp hu
    exact ⟨u', hu', [], a.row, u'.row, rfl, rfl, shape_evaluate db I w.d env a ha⟩
  obtain ⟨t', ht', hdrop⟩ := exists_withoutD_stack hm' (offers_d w) hw.preserved hvisible hreached
    (fun f hf p hp r hr => hoff (hcond (hown hf hp (isPresent_of_mem_references hr)) hr)) hbase
    t ht hreads
  refine ⟨t', ht', fun r hr => (lookup_withoutD hdrop (hoff (hused hr))).trans ?_⟩
  by_cases hd : ∃ n, r = .column n "d"
  · obtain ⟨n, rfl⟩ := hd
    exact (hequal n (hw.found n (hused hr)) t ht).1.symm
  · rw [renamedReference_of_ne hm' fun n hn => hd ⟨n, hn⟩]

end

/-- `sum(s.k)` for every `d.k`, over `d` and `s` below an operator with the condition `l = d.k`. -/
private def sumPlace (f : Frame) (hf : isSelectionOrJoin f = true) (hid : 3 ∉ f.ids) : Place where
  projectionId := 1
  projection := { args := [.funcCall "sum" [.attribute "k" "s"] true false, .attribute "k" "d"] }
  grouping := [.unary 2 (.groupBy [.attribute "k" "d"] false)]
  stack := [f]
  depJoin := 3
  join := { type := .crossProduct }
  dId := 5
  dProjection := { args := [.attribute "k" ""], subqueryAlias := "d", subqueryColumns := ["k"] }
  dChild := .relation 6 "r" ""
  right := .relation 7 "s" ""
  grouping_ok := by simp [isGrouping]
  stack_ok := by simpa using hf
  join_ok := rfl
  alias_d := rfl
  once := by
    refine ⟨by decide, ?_⟩
    rw [contextIds, List.singleton_append, List.flatMap_cons, List.mem_append]
    exact fun h => h.elim hid (by decide)

private def equalsD (l : String) : Expr := .predicate (.attribute "k" l) (.attribute "k" "d") "="

/-- `select sum(s.k) from s where s.k = r.k` after the dependent join has been pushed down. -/
private def selectionPlace : Place :=
  sumPlace (.unary 4 (.selection (equalsD "s"))) rfl (by decide)

/-- `select sum(s.k) from s left join u on u.k = r.k`, in the same way. -/
private def leftJoinPlace : Place :=
  sumPlace (.left 4 { type := .left, predicate := equalsD "u" } (.relation 8 "u" "")) rfl (by decide)

/-- All tables have the single row 1, but `u` is empty. -/
def withoutU : Database Nat := fun name => if name = "u" then ⟨["k"], [], by simp⟩ else oneRow name

private theorem trueEquality_equality : TrueEquality equality := by
  intro v w h
  cases v with
  | none => cases h
  | some v =>
    cases w with
    | none => cases h
    | some w =>
      by_cases heq : v = w
      · exact ⟨congrArg some heq, Option.some_ne_none v⟩
      · simp [equality, Truth.ofBool, heq] at h

/-- `d.k` is entered once for each of its occurrences. -/
private def kOf (a : String) : RenameMap := List.replicate 3 (("d", "k"), (a, "k"))

private theorem references_selectionPlace :
    allReferences (selectionPlace.used ++ selectionPlace.conditions) =
      [.column "k" "s", .column "k" "d", .column "k" "d", .column "k" "s", .column "k" "d"] := rfl

private theorem selectionPlace_decouplable : Decouplable selectionPlace oneRow where
  preserved := by
    intro f hf
    rw [List.mem_singleton.mp hf]
    rfl
  supplied := by
    intro a ha f hf
    have hcollected : selectionPlace.collected = [("k", "d"), ("k", "d"), ("k", "d")] := by
      decide +kernel
    have ha : a = ("k", "d") := by
      simpa [hcollected] using ha
    subst ha
    have hfind : selectionPlace.path.find? (fun f => (suppliedBy "k" f).isSome) =
        some (.unary 4 (.selection (equalsD "s"))) := rfl
    rw [hfind] at hf
    cases hf
    rfl
  found := by
    intro n hn
    have hn : n = "k" := by
      simpa [references_selectionPlace] using hn
    subst hn
    decide +kernel
  reached := by
    intro p hp n
    have hp : p = equalsD "s" := List.mem_singleton.mp hp
    subst hp
    exact List.not_mem_nil
  visible := by
    intro K f L hpath p hp
    cases K with
    | nil => cases hp
    | cons g K =>
      obtain ⟨hg, hK⟩ := List.cons.inj hpath
      subst hg
      cases K with
      | nil => cases hp
      | cons g K =>
        have hlength := congrArg List.length hK
        simp [selectionPlace, sumPlace] at hlength
  unambiguous := by
    have hd : nullRow oneRow selectionPlace.d = [.source "d" [("k", none)]] := rfl
    have hs : ¬ Offers [.source "d" [("k", none)]] (.column "k" "s" : Reference) (V := Nat) := by
      simp [Offers, resolve]
    intro r hr
    rw [hd]
    rw [references_selectionPlace] at hr
    simp only [List.mem_cons, List.not_mem_nil, or_false] at hr
    rcases hr with rfl | rfl | rfl | rfl | rfl <;> exact hs

/-- With the equality in a Selection the attribute of D can be replaced. -/
theorem selection_replaceable : Replaceable selectionPlace (kOf "s") oneRow equality [] :=
  canDecouple_replaceable (m := []) (by simp [RenamesD]) (by decide +kernel)
    selectionPlace_decouplable trueEquality_equality []

/-- With the equality in the condition of a left join a row of `s` without a match has a value of
`d.k`, but none of `u.k`. -/
theorem leftJoin_not_replaceable :
    canDecouple leftJoinPlace.depJoin leftJoinPlace.parentProjection [] = some (true, kOf "u") ∧
      TrueEquality equality ∧ ¬ Replaceable leftJoinPlace (kOf "u") withoutU equality [] := by
  refine ⟨by decide +kernel, trueEquality_equality, fun h => ?_⟩
  have hrow : (⟨[.source "d" [("k", some 1)], .source "s" [("k", some 1)], .source "u" [("k", none)]],
      []⟩ : Tuple Nat) ∈ evaluate withoutU equality leftJoinPlace.below [] := by
    decide +kernel
  have hequal := h.equal _ hrow "k" (by decide +kernel)
  exact absurd hequal (by decide +kernel)

end SqlOptimizer.Unnesting.Decoupling
