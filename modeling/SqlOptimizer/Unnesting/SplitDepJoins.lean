import SqlOptimizer.Logic.DependentJoins
import SqlOptimizer.Logic.SplitJoins
import SqlOptimizer.Semantics.References
import SqlOptimizer.Tree.OuterJoins
import SqlOptimizer.Unnesting.PushDownDepJoin

/-!
A dependent join over a cross product or an inner join of which both inputs use attributes of D
becomes the join of two projections with a dependent join below each. The two are joined on the
attributes of D that are used on both sides, by their names.
-/

set_option autoImplicit false
set_option relaxedAutoImplicit false

namespace SqlOptimizer.Unnesting.SplitDepJoins

open Algebra.RelationalAlgebra
open Tree.Frames Tree.Walks
open Logic.DependentJoins Logic.NestedLoops Logic.NumberedNames Logic.SplitJoins
open Logic.ThreeValued Logic.Triples
open Semantics.Evaluation Semantics.References
open Objects Attributes PushDownDepJoin
open Tree.OuterJoins (equality)

/-- A dependent join as `decorrelate_subquery` makes it. -/
abbrev dependent : Join := { type := .dependentInnerLeft }

section

variable {V : Type} [DecidableEq V] (db : Database V) (I : Interpretation V) (env : Row V)

/-- The row of a projection for a row of D and a row that was computed for it. -/
def passRow (pr : Projection) (t u : Tuple V) : Tuple V :=
  ⟨projectRow pr (value I ((beside t u).context env)) (beside t u).row, []⟩

/-- The rows of a projection over a dependent join that come from one row of D. -/
def rowsFor (pr : Projection) (c : RaNode) (t : Tuple V) : List (Tuple V) :=
  (evaluate db I c (t.row ++ env)).map (passRow I env pr t)

/-- The right side of a dependent join is evaluated for every row of D. -/
theorem evaluate_dependent (j : Nat) (d c : RaNode) :
    evaluate db I (.join j dependent d c) env =
      eachWith beside (evaluate db I d env) fun t => evaluate db I c (t.row ++ env) := by
  have hcondition : satisfies I env (.nullptr : Expr) = fun _ => true := by
    funext t
    simp [satisfies, truth, meaning, Meaning.ofTruth]
  have hrename : (renameTuple dependent : Tuple V → Tuple V) = id := by
    funext t
    rfl
  simp only [evaluate, ne_eq, not_true_eq_false, if_false, hcondition, hrename, List.map_id]
  exact dependentJoin_true beside _ _

/-- The rows of the projection, one row of D after the other. -/
theorem evaluate_projection_dependent (i j : Nat) {pr : Projection} (hpr : pr.distinct = false)
    (d c : RaNode) :
    evaluate db I (.projection i pr (.join j dependent d c)) env =
      (evaluate db I d env).flatMap (rowsFor db I env pr c) := by
  have hprojection : evaluate db I (.projection i pr (.join j dependent d c)) env =
      (evaluate db I (.join j dependent d c) env).map fun t =>
        ⟨projectRow pr (value I (t.context env)) t.row, []⟩ := by
    simp only [evaluate, hpr, if_false, Bool.false_eq_true]
  rw [hprojection, evaluate_dependent, eachWith, List.map_flatMap]
  refine List.flatMap_congr fun t _ => ?_
  rw [List.map_map]
  rfl

/-- The value that a projection over the listed attributes gives under a name. -/
def passedValue (attributes : List AttributeRef) (x : String) (t : Tuple V) : Option V :=
  ((renameColumns (attributes.map Prod.fst) (attributes.flatMap fun a =>
    selectColumn (value I (t.context env)) t.row
      (.selectExpression (.attribute a.1 a.2) ""))).lookup x).join

/-- The columns with the names are equal on both sides. -/
def AgreeOn (names : List String) (left right : List AttributeRef) (t u : Tuple V) : Prop :=
  ∀ x ∈ names, I.compare "=" [passedValue I env left x t] [passedValue I env right x u] = .tt

/-- The names of D's attributes that are used on both sides. -/
def sharedNames (left right : List AttributeRef) : List String :=
  (right.filter fun r => left.any fun l => r.1 = l.1).map Prod.fst

omit [DecidableEq V] in
private theorem mem_naturalJoinPredicates {leftAlias rightAlias : String}
    {l r : List AttributeRef} {p : Expr} :
    p ∈ naturalJoinPredicates leftAlias rightAlias l r ↔ ∃ x ∈ sharedNames l r,
      p = .predicate (.attribute x leftAlias) (.attribute x rightAlias) "=" := by
  simp only [naturalJoinPredicates, List.mem_filterMap, Option.map_eq_some_iff, sharedNames,
    List.mem_map, List.mem_filter, List.any_eq_true, decide_eq_true_eq]
  constructor
  · rintro ⟨a, ha, b, hb, rfl⟩
    have hab : a.1 = b.1 := by simpa using List.find?_some hb
    exact ⟨a.1, ⟨a, ⟨ha, b, List.mem_of_find?_eq_some hb, hab⟩, rfl⟩, by rw [hab]⟩
  · rintro ⟨x, ⟨a, ⟨ha, b, hb, hab⟩, rfl⟩, rfl⟩
    obtain ⟨c, hc⟩ : ∃ c, l.find? (fun b => a.1 = b.1) = some c := by
      rw [← Option.isSome_iff_exists, List.find?_isSome]
      exact ⟨b, hb, by simpa using hab⟩
    have hac : a.1 = c.1 := by simpa using List.find?_some hc
    exact ⟨a, ha, c, hc, by rw [hac]⟩

/-- The condition of the join is that all of its equalities are true. -/
private theorem satisfies_naturalJoin {join : Join} (hjoin : join.predicate.isPresent = false)
    (ps : List Expr) (t : Tuple V) :
    satisfies I env (naturalJoin join ps).predicate t = true ↔
      ∀ p ∈ ps, truth I ⟨t.row ++ env, []⟩ p = .tt := by
  rw [satisfies, decide_eq_true_eq]
  rcases ps with _ | ⟨p, _ | ⟨q, ps⟩⟩
  · have hnull : join.predicate = .nullptr := by
      cases hp : join.predicate <;> simp [hp, Expr.isPresent] at hjoin ⊢
    rw [naturalJoin, hnull]
    exact ⟨fun _ => List.forall_mem_nil _, fun _ => rfl⟩
  · simp [naturalJoin]
  · have hand : (naturalJoin join (p :: q :: ps)).predicate = .boolPredicate .and (p :: q :: ps) :=
      rfl
    rw [hand, truth, meaning, Meaning.ofTruth, Truth.conj_eq_tt, meanings_eq_map, List.map_map,
      List.forall_mem_map]
    rfl

/-- A column of a temp projection. -/
private theorem lookup_passRow (aliasName : String) (attributes : List AttributeRef) (x : String)
    (t u : Tuple V) (haliasName : aliasName ≠ "") (rest : Row V) :
    (lookup ((passRow I env (tempProjection aliasName attributes) t u).row ++ rest)
      (.column x aliasName)).1 = passedValue I env attributes x (beside t u) := by
  rw [passedValue, passRow, projectRow, tempProjection, List.flatMap_map]
  simp only [List.cons_append, List.nil_append, lookup, List.findSome?_cons, resolve,
    if_neg haliasName, if_true, Option.getD_some]

/-- The first of two projections has no column under the qualifier of the second. -/
private theorem not_offers_passRow {aliasName qualifier : String} (hne : aliasName ≠ qualifier)
    (hqualifier : qualifier ≠ "") (attributes : List AttributeRef) (x : String) (t u : Tuple V) :
    ¬ Offers (passRow I env (tempProjection aliasName attributes) t u).row
      (.column x qualifier) := by
  rintro ⟨b, hb, hsome⟩
  cases List.mem_singleton.mp hb
  have hsubquery : (tempProjection aliasName attributes).subqueryAlias ≠ qualifier := hne
  rw [resolve, if_neg hqualifier, if_neg hsubquery] at hsome
  cases hsome

/-- The condition of the join holds for two rows when they agree on the shared names. -/
theorem satisfies_naturalJoin_iff {join : Join} (hjoin : join.predicate.isPresent = false)
    {leftAlias rightAlias : String} (hne : leftAlias ≠ rightAlias) (hleft : leftAlias ≠ "")
    (hright : rightAlias ≠ "") (l r left right : List AttributeRef) (t u t' u' : Tuple V) :
    satisfies I env (naturalJoin join (naturalJoinPredicates leftAlias rightAlias l r)).predicate
        (beside (passRow I env (tempProjection leftAlias left) t u)
          (passRow I env (tempProjection rightAlias right) t' u')) = true ↔
      AgreeOn I env (sharedNames l r) left right (beside t u) (beside t' u') := by
  have htruth (x : String) : truth I
      ⟨(beside (passRow I env (tempProjection leftAlias left) t u)
        (passRow I env (tempProjection rightAlias right) t' u')).row ++ env, []⟩
      (.predicate (.attribute x leftAlias) (.attribute x rightAlias) "=") =
        I.compare "=" [passedValue I env left x (beside t u)]
          [passedValue I env right x (beside t' u')] := by
    rw [← lookup_passRow I env leftAlias left x t u hleft
      ((passRow I env (tempProjection rightAlias right) t' u').row ++ env),
      ← lookup_passRow I env rightAlias right x t' u' hright env,
      ← lookup_append_left (not_offers_passRow I env hne hright left x t u), ← List.append_assoc]
    rfl
  rw [satisfies_naturalJoin I env hjoin]
  constructor
  · intro h x hx
    rw [← htruth]
    exact h _ (mem_naturalJoinPredicates.mpr ⟨x, hx, rfl⟩)
  · intro h p hp
    obtain ⟨x, hx, rfl⟩ := mem_naturalJoinPredicates.mp hp
    rw [htruth]
    exact h x hx

end

/-- The dependent join and the join below it stand at one place of the main tree only, below the
projection of the subquery; no node is below itself, D alone may stand at other places too, and
new addresses are free. -/
structure SplitPlace (s : State) (K : List Frame) (depJoin rightProjection : Nat) (d : RaNode)
    (childJoin : Nat) (join : Join) (a b : RaNode) : Prop where
  root : s.tree.root = plug K (.join depJoin dependent d (.join childJoin join a b))
  top : ∃ f ∈ K, f.id = rightProjection
  depJoin_outside : depJoin ∉ contextIds K
  childJoin_outside : childJoin ∉ contextIds K
  distinct : depJoin ≠ childJoin
  depJoin_inside : depJoin ∉ d.ids ++ a.ids ++ b.ids
  childJoin_inside : childJoin ∉ d.ids ++ a.ids ++ b.ids
  spine : ∀ f ∈ K, f.id ∉ d.ids
  apart : ∀ i ∈ contextIds K, i ∉ a.ids ++ b.ids
  fresh : ∀ i ∈ s.tree.root.ids, i < s.tree.nextId

section

variable {s s' : State} {K : List Frame} {depJoin rightProjection childJoin next : Nat}
  {d a b : RaNode} {join : Join}

/-- A call that splits the dependent join. -/
theorem splitDepJoin_eq_ok (h : outcome (splitDepJoin depJoin rightProjection dependent d childJoin
      join a b) s = (.ok next, s')) :
    ∃ root it leftAbove l rightAbove r renames visited renamed,
      findAttributesUsingAlias ["d"] none false a = some l ∧
      findAttributesUsingAlias ["d"] none false b = some r ∧
      find? rightProjection root = some it ∧
      renameVisits (some childJoin) it = some visited ∧
      renamed = updateAll (renameNode renames) visited root ∧
      root = update depJoin (replaceJoin
        (splitTree depJoin (s.tree.nextId + 2) s.tree.nextId (s.tree.nextId + 1) dependent d
          childJoin join (tempProjection (numbered "temp_" s.tree.counter) [])
          (tempProjection (numbered "temp_" (s.tree.counter + 1)) []) a b)) s.tree.root ∧
      join.predicate.isPresent = false ∧ next = s.tree.nextId + 2 ∧
      s'.tree.root = update childJoin (finishSplit
        (naturalJoin join (naturalJoinPredicates (numbered "temp_" s.tree.counter)
          (numbered "temp_" (s.tree.counter + 1)) l r))
        (tempProjection (numbered "temp_" s.tree.counter) (passedAttributes leftAbove l))
        (tempProjection (numbered "temp_" (s.tree.counter + 1)) (passedAttributes rightAbove r)))
        renamed := by
  unfold splitDepJoin at h
  simp only [outcome_bind_eq_ok, outcome_orCrash_eq_ok, outcome_newNode, outcome_newName,
    outcome_assert_eq_ok] at h
  obtain ⟨leftPr, s₁, h₁, h⟩ := h
  cases h₁
  obtain ⟨rightPr, s₂, h₂, h⟩ := h
  cases h₂
  obtain ⟨depJoinRight, s₃, h₃, h⟩ := h
  cases h₃
  obtain ⟨leftAlias, s₄, h₄, h⟩ := h
  cases h₄
  obtain ⟨rightAlias, s₅, h₅, h⟩ := h
  cases h₅
  obtain ⟨_, s₆, h₆, h⟩ := h
  cases h₆
  obtain ⟨root, s₇, h₇, h⟩ := h
  cases h₇
  obtain ⟨it, s₈, ⟨hit, rfl⟩, h⟩ := h
  obtain ⟨leftAbove, s₉, ⟨hleftAbove, rfl⟩, h⟩ := h
  obtain ⟨l, s₁₀, ⟨hl, rfl⟩, h⟩ := h
  obtain ⟨rightAbove, s₁₁, ⟨hrightAbove, rfl⟩, h⟩ := h
  obtain ⟨r, s₁₂, ⟨hr, rfl⟩, h⟩ := h
  obtain ⟨root', s₁₃, h₁₃, h⟩ := h
  cases h₁₃
  obtain ⟨renamed, s₁₄, ⟨hrenamed, rfl⟩, h⟩ := h
  obtain ⟨_, s₁₅, h₁₅, h⟩ := h
  cases h₁₅
  obtain ⟨_, s₁₆, ⟨hpredicate, rfl⟩, h⟩ := h
  obtain ⟨_, s₁₇, h₁₇, h⟩ := h
  cases h₁₇
  cases h
  obtain ⟨visited, hvisited, rfl⟩ := Option.map_eq_some_iff.mp hrenamed
  exact ⟨_, it, leftAbove, l, rightAbove, r, _, visited, _, hl, hr, hit, hvisited, rfl, rfl,
    hpredicate, rfl, rfl⟩

end

section

variable {m : RenameMap} {i : Nat}

private theorem ids_renameNode (t : RaNode) : (renameNode m t).ids = t.ids := by
  cases t with
  | unary j op c => cases op <;> rfl
  | _ => rfl

private theorem ids_update_renameNode (t : RaNode) : (update i (renameNode m) t).ids = t.ids := by
  induction t with
  | hole => rfl
  | leaf j op =>
    rw [update]
    split
    · exact ids_renameNode _
    · rfl
  | unary j op c ih =>
    rw [update]
    split
    · exact ids_renameNode _
    · rw [RaNode.ids, ih, RaNode.ids]
  | join j join l r ihl ihr =>
    rw [update]
    split
    · exact ids_renameNode _
    · rw [RaNode.ids, ihl, ihr, RaNode.ids]

/-- A frame with the same addresses. -/
private def SameIds (f g : Frame) : Prop := g.id = f.id ∧ g.ids = f.ids

private theorem renameNode_frame (f : Frame) :
    ∃ g, SameIds f g ∧ ∀ t, renameNode m (f.plug t) = g.plug t := by
  cases f with
  | unary j op =>
    cases op with
    | projection pr =>
      exact ⟨.unary j (.projection { pr with args := renameExpressions m pr.args }), ⟨rfl, rfl⟩,
        fun _ => rfl⟩
    | selection p => exact ⟨.unary j (.selection (renameExpression m p)), ⟨rfl, rfl⟩, fun _ => rfl⟩
    | groupBy args g =>
      exact ⟨.unary j (.groupBy (renameExpressions m args) g), ⟨rfl, rfl⟩, fun _ => rfl⟩
    | _ => exact ⟨_, ⟨rfl, rfl⟩, fun _ => rfl⟩
  | left j join r =>
    exact ⟨.left j { join with predicate := renameExpression m join.predicate } r, ⟨rfl, rfl⟩,
      fun _ => rfl⟩
  | right j join l =>
    exact ⟨.right j { join with predicate := renameExpression m join.predicate } l, ⟨rfl, rfl⟩,
      fun _ => rfl⟩

private theorem update_frame {f : Frame} (hi : f.id ≠ i) : ∃ g, SameIds f g ∧
    ∀ t, update i (renameNode m) (f.plug t) = g.plug (update i (renameNode m) t) := by
  cases f with
  | unary j op =>
    have hj : j ≠ i := hi
    exact ⟨.unary j op, ⟨rfl, rfl⟩, fun t => by rw [Frame.plug, Frame.plug, update, if_neg hj]⟩
  | left j join r =>
    have hj : j ≠ i := hi
    refine ⟨.left j join (update i (renameNode m) r), ⟨rfl, ?_⟩, fun t => ?_⟩
    · rw [Frame.ids, Frame.ids, ids_update_renameNode]
    · rw [Frame.plug, Frame.plug, update, if_neg hj]
  | right j join l =>
    have hj : j ≠ i := hi
    refine ⟨.right j join (update i (renameNode m) l), ⟨rfl, ?_⟩, fun t => ?_⟩
    · rw [Frame.ids, Frame.ids, ids_update_renameNode]
    · rw [Frame.plug, Frame.plug, update, if_neg hj]

/-- The renaming at one address keeps the place of a subtree that has no node of its spine. -/
private theorem update_plug_renameNode {K : List Frame} {t : RaNode}
    (hspine : ∀ f ∈ K, f.id ∉ t.ids) : ∃ L, List.Forall₂ SameIds K L ∧
      update i (renameNode m) (plug K t) = plug L (update i (renameNode m) t) := by
  induction K using List.reverseRecOn with
  | nil => exact ⟨[], .nil, rfl⟩
  | append_singleton K f ih =>
    have hplug (g : Frame) (L : List Frame) (u : RaNode) : plug (L ++ [g]) u = g.plug (plug L u) := by
      rw [plug_append]
      rfl
    have hself : List.Forall₂ SameIds K K := List.forall₂_same.mpr fun _ _ => ⟨rfl, rfl⟩
    rw [hplug]
    by_cases hi : f.id = i
    · obtain ⟨g, hg, hrename⟩ := renameNode_frame (m := m) f
      have ht : i ∉ t.ids := hi ▸ hspine f (by simp)
      refine ⟨K ++ [g], List.rel_append hself (.cons hg .nil), ?_⟩
      rw [update_of_id? _ (f.id?_plug _ ▸ congrArg some hi), hrename, hplug, update_eq_self _ ht]
    · obtain ⟨g, hg, hframe⟩ := update_frame (m := m) hi
      obtain ⟨L, hL, hupdate⟩ := ih fun f hf => hspine f (by simp [hf])
      refine ⟨L ++ [g], List.rel_append hL (.cons hg .nil), ?_⟩
      rw [hframe, hupdate, hplug]

private theorem forall_spine {K L : List Frame} (h : List.Forall₂ SameIds K L) {is : List Nat}
    (hK : ∀ f ∈ K, f.id ∉ is) : ∀ f ∈ L, f.id ∉ is := by
  induction h with
  | nil => exact hK
  | cons hfg _ ih =>
    rw [List.forall_mem_cons] at hK ⊢
    exact ⟨hfg.1 ▸ hK.1, ih hK.2⟩

private theorem contextIds_eq {K L : List Frame} (h : List.Forall₂ SameIds K L) :
    contextIds L = contextIds K := by
  induction h with
  | nil => rfl
  | cons hfg _ ih => rw [contextIds_cons, contextIds_cons, hfg.2, ih]

/-- The same for a whole renaming. -/
private theorem updateAll_plug_renameNode {K : List Frame} {t : RaNode}
    (hspine : ∀ f ∈ K, f.id ∉ t.ids) (is : List Nat) : ∃ L, contextIds L = contextIds K ∧
      updateAll (renameNode m) is (plug K t) = plug L (updateAll (renameNode m) is t) := by
  induction is generalizing K t with
  | nil => exact ⟨K, rfl, rfl⟩
  | cons i is ih =>
    obtain ⟨L, hL, hupdate⟩ := update_plug_renameNode (m := m) (i := i) hspine
    have hspine' := forall_spine hL hspine
    rw [← ids_update_renameNode (m := m) (i := i) t] at hspine'
    obtain ⟨L', hL', hrest⟩ := ih hspine'
    refine ⟨L', hL'.trans (contextIds_eq hL), ?_⟩
    rw [updateAll, List.foldl_cons, hupdate]
    exact hrest

/-- A node that the renaming leaves alone. -/
private theorem update_join_fixed {j : Nat} {join : Join} {l r : RaNode}
    (hjoin : join.predicate = .nullptr) (hl : j ∉ l.ids) (hr : j ∉ r.ids) :
    update i (renameNode m) (.join j join l r) =
      .join j join (update i (renameNode m) l) (update i (renameNode m) r) := by
  have hsame : ({ join with predicate := renameExpression m join.predicate } : Join) = join := by
    cases join
    cases hjoin
    rfl
  rw [update]
  by_cases hj : j = i
  · subst hj
    rw [if_pos rfl, update_eq_self _ hl, update_eq_self _ hr, renameNode, hsame]
  · rw [if_neg hj]

private theorem update_projection_fixed {j : Nat} {pr : Projection} {c : RaNode}
    (hpr : pr.args = []) (hc : j ∉ c.ids) :
    update i (renameNode m) (.projection j pr c) = .projection j pr (update i (renameNode m) c) := by
  rw [update]
  by_cases hj : j = i
  · subst hj
    rw [if_pos rfl, update_eq_self _ hc, renameNode, hpr, renameExpressions, ← hpr]
  · rw [if_neg hj]

/-- The addresses of a split dependent join are new or stand at its top only. -/
structure SplitIds (depJoin depJoinRight leftPr rightPr childJoin : Nat) (d a b : RaNode) :
    Prop where
  dep : depJoin ∉ d.ids ∧ depJoin ∉ a.ids
  depRight : depJoinRight ∉ d.ids ∧ depJoinRight ∉ b.ids
  projLeft : leftPr ≠ depJoin ∧ leftPr ∉ d.ids ∧ leftPr ∉ a.ids
  projRight : rightPr ≠ depJoinRight ∧ rightPr ∉ d.ids ∧ rightPr ∉ b.ids
  left : childJoin ≠ leftPr ∧ childJoin ≠ depJoin ∧ childJoin ∉ d.ids ∧ childJoin ∉ a.ids
  right : childJoin ≠ rightPr ∧ childJoin ≠ depJoinRight ∧ childJoin ∉ b.ids

/-- A renaming changes the inputs of a split dependent join only. -/
private theorem update_splitTree {depJoin depJoinRight leftPr rightPr childJoin : Nat}
    {d a b : RaNode} {join : Join} {left right : Projection}
    (h : SplitIds depJoin depJoinRight leftPr rightPr childJoin d a b)
    (hjoin : join.predicate = .nullptr) (hleft : left.args = []) (hright : right.args = []) :
    update i (renameNode m)
        (splitTree depJoin depJoinRight leftPr rightPr dependent d childJoin join left right a b) =
      splitTree depJoin depJoinRight leftPr rightPr dependent (update i (renameNode m) d) childJoin
        join left right (update i (renameNode m) a) (update i (renameNode m) b) := by
  have hl : leftPr ∉ (RaNode.join depJoin dependent d a).ids := by
    simp [RaNode.ids, h.projLeft]
  have hr : rightPr ∉ (RaNode.join depJoinRight dependent d b).ids := by
    simp [RaNode.ids, h.projRight]
  have hcl : childJoin ∉ (RaNode.projection leftPr left (.join depJoin dependent d a)).ids := by
    simp [RaNode.ids, h.left]
  have hcr : childJoin ∉
      (RaNode.projection rightPr right (.join depJoinRight dependent d b)).ids := by
    simp [RaNode.ids, h.right, h.left]
  rw [splitTree, update_join_fixed hjoin hcl hcr, update_projection_fixed hleft hl,
    update_projection_fixed hright hr, update_join_fixed rfl h.dep.1 h.dep.2,
    update_join_fixed rfl h.depRight.1 h.depRight.2]
  rfl

private theorem updateAll_splitTree {depJoin depJoinRight leftPr rightPr childJoin : Nat}
    {d a b : RaNode} {join : Join} {left right : Projection}
    (h : SplitIds depJoin depJoinRight leftPr rightPr childJoin d a b)
    (hjoin : join.predicate = .nullptr) (hleft : left.args = []) (hright : right.args = [])
    (is : List Nat) :
    updateAll (renameNode m) is
        (splitTree depJoin depJoinRight leftPr rightPr dependent d childJoin join left right a b) =
      splitTree depJoin depJoinRight leftPr rightPr dependent (updateAll (renameNode m) is d)
        childJoin join left right (updateAll (renameNode m) is a)
        (updateAll (renameNode m) is b) := by
  induction is generalizing d a b with
  | nil => rfl
  | cons i is ih =>
    have hids (t : RaNode) : (update i (renameNode m) t).ids = t.ids := ids_update_renameNode t
    have h' : SplitIds depJoin depJoinRight leftPr rightPr childJoin (update i (renameNode m) d)
        (update i (renameNode m) a) (update i (renameNode m) b) := by
      obtain ⟨h₁, h₂, h₃, h₄, h₅, h₆⟩ := h
      constructor <;> simpa only [hids]
    rw [updateAll, List.foldl_cons, update_splitTree h hjoin hleft hright]
    exact ih h'

end

section

variable {K : List Frame} {t it : RaNode} {p c : Nat} {is : List Nat}

private theorem renameVisits_unary {stop : Option Nat} {j : Nat} {op : UnaryOp}
    (h : renameVisits stop (.unary j op t) = some is) :
    is = [] ∨ some j ≠ stop ∧ ∃ js, renameVisits stop t = some js ∧ is = j :: js := by
  rw [renameVisits] at h
  split at h
  · exact .inl (Option.some.inj h).symm
  · next hj =>
    have hvisit (es : List Expr) (hes : (if stop.isNone || allVisitNodes es then
        (renameVisits stop t).map (j :: ·) else none) = some is) :
        ∃ js, renameVisits stop t = some js ∧ is = j :: js := by
      split at hes
      · obtain ⟨js, hjs, rfl⟩ := Option.map_eq_some_iff.mp hes
        exact ⟨js, hjs, rfl⟩
      · cases hes
    cases op with
    | projection pr => exact .inr ⟨hj, hvisit _ h⟩
    | selection p => exact .inr ⟨hj, hvisit _ h⟩
    | groupBy args g => exact .inr ⟨hj, hvisit _ h⟩
    | _ => exact .inl (Option.some.inj h).symm

private theorem renameVisits_join {stop : Option Nat} {j : Nat} {join : Join} {l r : RaNode}
    (h : renameVisits stop (.join j join l r) = some is) :
    is = [] ∨ some j ≠ stop ∧ ∃ ls rs, renameVisits stop l = some ls ∧
      renameVisits stop r = some rs ∧ is = j :: (ls ++ rs) := by
  rw [renameVisits] at h
  split at h
  · exact .inl (Option.some.inj h).symm
  · next hj =>
    split at h
    · obtain ⟨ls, hls, hrest⟩ := Option.bind_eq_some_iff.mp h
      obtain ⟨rs, hrs, rfl⟩ := Option.map_eq_some_iff.mp hrest
      exact .inr ⟨hj, ls, rs, hls, hrs, rfl⟩
    · cases h

/-- A renaming visits nodes of its subtree. -/
private theorem renameVisits_subset {stop : Option Nat} (h : renameVisits stop t = some is) :
    is ⊆ t.ids := by
  induction t generalizing is with
  | hole => cases h
  | leaf j op =>
    cases h
    exact List.nil_subset _
  | unary j op c ih =>
    rcases renameVisits_unary h with rfl | ⟨-, js, hjs, rfl⟩
    · exact List.nil_subset _
    · exact List.cons_subset_cons j (ih hjs)
  | join j join l r ihl ihr =>
    rcases renameVisits_join h with rfl | ⟨-, ls, rs, hls, hrs, rfl⟩
    · exact List.nil_subset _
    · apply List.cons_subset_cons
      exact List.append_subset.mpr ⟨List.subset_append_of_subset_left _ (ihl hls),
        List.subset_append_of_subset_right _ (ihr hrs)⟩

/-- A renaming that stops at a subtree visits nodes around it only. -/
private theorem renameVisits_plug (ht : t.id? = some c)
    (h : renameVisits (some c) (plug K t) = some is) : is ⊆ contextIds K := by
  induction K using List.reverseRecOn generalizing is with
  | nil =>
    cases t with
    | hole => cases ht
    | leaf j op =>
      cases h
      exact List.nil_subset _
    | unary j op c' =>
      rcases renameVisits_unary h with rfl | ⟨hj, -⟩
      · exact List.nil_subset _
      · exact absurd ht hj
    | join j join l r =>
      rcases renameVisits_join h with rfl | ⟨hj, -⟩
      · exact List.nil_subset _
      · exact absurd ht hj
  | append_singleton K f ih =>
    rw [plug_append, plug_cons, plug_nil] at h
    rw [contextIds_append, contextIds_cons, contextIds_nil, List.append_nil]
    cases f with
    | unary j op =>
      rcases renameVisits_unary h with rfl | ⟨-, js, hjs, rfl⟩
      · exact List.nil_subset _
      · apply List.cons_subset.mpr
        exact ⟨by simp [Frame.ids], List.subset_append_of_subset_left _ (ih hjs)⟩
    | left j join r =>
      rcases renameVisits_join h with rfl | ⟨-, ls, rs, hls, hrs, rfl⟩
      · exact List.nil_subset _
      · have hl := ih hls
        have hr := renameVisits_subset hrs
        intro i hi
        simp only [List.mem_cons, List.mem_append, Frame.ids] at hi ⊢
        rcases hi with hi | hi | hi
        · exact .inr (.inl hi)
        · exact .inl (hl hi)
        · exact .inr (.inr (hr hi))
    | right j join l =>
      rcases renameVisits_join h with rfl | ⟨-, ls, rs, hls, hrs, rfl⟩
      · exact List.nil_subset _
      · have hl := renameVisits_subset hls
        have hr := ih hrs
        intro i hi
        simp only [List.mem_cons, List.mem_append, Frame.ids] at hi ⊢
        rcases hi with hi | hi | hi
        · exact .inr (.inl hi)
        · exact .inr (.inr (hl hi))
        · exact .inl (hr hi)

private theorem ids_subset_of_find? {i : Nat} (h : find? i t = some it) : it.ids ⊆ t.ids := by
  obtain ⟨-, L, rfl⟩ := exists_plug_of_find? h
  exact fun j hj => mem_ids_plug.mpr (.inr hj)

/-- A node outside a subtree is above it or has none of it below. -/
private theorem find?_plug_outside (hp : p ∉ t.ids) (h : find? p (plug K t) = some it) :
    (∃ L, (∃ M, K = L ++ M) ∧ it = plug L t) ∨ it.ids ⊆ contextIds K := by
  induction K using List.reverseRecOn with
  | nil =>
    rw [plug_nil, find?_eq_none hp] at h
    cases h
  | append_singleton K f ih =>
    have hdeeper (hK : find? p (plug K t) = some it) :
        (∃ L, (∃ M, K ++ [f] = L ++ M) ∧ it = plug L t) ∨ it.ids ⊆ contextIds (K ++ [f]) := by
      rcases ih hK with ⟨L, ⟨M, rfl⟩, hit⟩ | hids
      · exact .inl ⟨L, ⟨M ++ [f], List.append_assoc _ _ _⟩, hit⟩
      · rw [contextIds_append]
        exact .inr (List.subset_append_of_subset_left _ hids)
    have hbeside {r : RaNode} (hids : f.ids = f.id :: r.ids) (hr : find? p r = some it) :
        it.ids ⊆ contextIds (K ++ [f]) := by
      rw [contextIds_append, contextIds_cons, contextIds_nil, List.append_nil, hids]
      exact List.subset_append_of_subset_right _
        (List.subset_cons_of_subset _ (ids_subset_of_find? hr))
    have hplug : plug (K ++ [f]) t = f.plug (plug K t) := by
      rw [plug_append, plug_cons, plug_nil]
    by_cases hf : f.id = p
    · rw [hplug, find?_of_id? (f.id?_plug _ ▸ congrArg some hf)] at h
      cases h
      exact .inl ⟨K ++ [f], ⟨[], (List.append_nil _).symm⟩, hplug.symm⟩
    · rw [hplug] at h
      cases f with
      | unary j op =>
        have hj : j ≠ p := hf
        rw [Frame.plug, find?, if_neg hj] at h
        exact hdeeper h
      | left j join r =>
        have hj : j ≠ p := hf
        rw [Frame.plug, find?, if_neg hj, Option.or_eq_some_iff] at h
        rcases h with h | ⟨-, h⟩
        · exact hdeeper h
        · exact .inr (hbeside rfl h)
      | right j join l =>
        have hj : j ≠ p := hf
        rw [Frame.plug, find?, if_neg hj, Option.or_eq_some_iff] at h
        rcases h with h | ⟨-, h⟩
        · exact .inr (hbeside rfl h)
        · exact hdeeper h

/-- The renaming after a split stays outside the split dependent join. -/
private theorem visited_subset (hp : p ∉ t.ids) (ht : t.id? = some c)
    (hit : find? p (plug K t) = some it) (h : renameVisits (some c) it = some is) :
    is ⊆ contextIds K := by
  rcases find?_plug_outside hp hit with ⟨L, ⟨M, rfl⟩, rfl⟩ | hids
  · rw [contextIds_append]
    exact List.subset_append_of_subset_left _ (renameVisits_plug ht h)
  · exact fun i hi => hids (renameVisits_subset h hi)

private theorem updateAll_eq_self {m : RenameMap} (h : ∀ i ∈ is, i ∉ t.ids) :
    updateAll (renameNode m) is t = t := by
  induction is with
  | nil => rfl
  | cons i is ih =>
    rw [List.forall_mem_cons] at h
    rw [updateAll, List.foldl_cons, update_eq_self _ h.1]
    exact ih h.2

end

section

variable {V : Type} [DecidableEq V] (db : Database V) (I : Interpretation V) (env : Row V)

/-- The pairs of rows that a join combines. -/
def joinedPairs : RaNode → List (Tuple V × Tuple V)
  | .join _ join l r =>
      innerJoin Prod.mk (fun p => satisfies I env join.predicate (beside p.1 p.2))
        (evaluate db I l env) (evaluate db I r env)
  | _ => []

/-- The pairs of rows of two projections over dependent joins that come from the same row of D. -/
def pairsOfSameD : RaNode → List (Tuple V × Tuple V)
  | .join _ _ (.projection _ left (.join _ _ d a)) (.projection _ right (.join _ _ _ b)) =>
      samePairs (evaluate db I d env) (rowsFor db I env left a) (rowsFor db I env right b)
  | _ => []

/-- The rows that a split dependent join combines are, with multiplicities, those that were
computed for the same row of D. -/
def JoinsRowsOfSameD (t : RaNode) : Prop := (joinedPairs db I env t).Perm (pairsOfSameD db I env t)

/-- A left row and a right row agree on the columns with the names exactly when they come from
the same row of D. -/
def TellRowsOfDApart (names : List String) (left right : List AttributeRef) (d a b : RaNode) :
    Prop :=
  ∀ i j : Fin (evaluate db I d env).length,
    ∀ x ∈ evaluate db I a ((evaluate db I d env)[i].row ++ env),
    ∀ y ∈ evaluate db I b ((evaluate db I d env)[j].row ++ env),
      (AgreeOn I env names left right (beside (evaluate db I d env)[i] x)
        (beside (evaluate db I d env)[j] y) ↔ i = j)

/-- The rows of a join are made from the pairs that it combines. -/
theorem evaluate_join_eq {i : Nat} {join : Join} (hmarker : join.marker = 0)
    (htype : join.type = .crossProduct ∨ join.type = .inner) (l r : RaNode) :
    evaluate db I (.join i join l r) env =
      (joinedPairs db I env (.join i join l r)).map fun p =>
        renameTuple join (beside p.1 p.2) := by
  have hpairs (on : Tuple V → Bool) (l r : List (Tuple V)) : innerJoin beside on l r =
      (innerJoin Prod.mk (fun p => on (beside p.1 p.2)) l r).map fun p => beside p.1 p.2 := by
    rw [innerJoin, innerJoin, List.map_flatMap]
    refine List.flatMap_congr fun t _ => ?_
    rw [matching, matching, List.filter_map, List.filter_map, List.map_map]
    rfl
  have hjoin : evaluate db I (.join i join l r) env =
      (innerJoin beside (satisfies I env join.predicate) (evaluate db I l env)
        (evaluate db I r env)).map (renameTuple join) := by
    rw [evaluate, if_neg (not_not.mpr hmarker)]
    rcases htype with htype | htype
    · rw [htype]
    · rw [htype]
  rw [hjoin, hpairs, List.map_map]
  rfl

/-- The join over the two projections is right exactly when the columns of D with the shared
names tell the rows of D apart. -/
private theorem joinsRowsOfSameD_iff {depJoin depJoinRight leftPr rightPr childJoin : Nat}
    {join : Join} (hjoin : join.predicate.isPresent = false) {leftAlias rightAlias : String}
    (hne : leftAlias ≠ rightAlias) (hleft : leftAlias ≠ "") (hright : rightAlias ≠ "")
    (l r left right : List AttributeRef) (d a b : RaNode) :
    JoinsRowsOfSameD db I env (splitTree depJoin depJoinRight leftPr rightPr dependent d childJoin
        (naturalJoin join (naturalJoinPredicates leftAlias rightAlias l r))
        (tempProjection leftAlias left) (tempProjection rightAlias right) a b) ↔
      TellRowsOfDApart db I env (sharedNames l r) left right d a b := by
  have hsplit : joinedPairs db I env (splitTree depJoin depJoinRight leftPr rightPr dependent d
        childJoin (naturalJoin join (naturalJoinPredicates leftAlias rightAlias l r))
        (tempProjection leftAlias left) (tempProjection rightAlias right) a b) =
      splitPairs (fun p => satisfies I env (naturalJoin join (naturalJoinPredicates leftAlias
          rightAlias l r)).predicate (beside p.1 p.2)) (evaluate db I d env)
        (rowsFor db I env (tempProjection leftAlias left) a)
        (rowsFor db I env (tempProjection rightAlias right) b) := by
    rw [splitTree, joinedPairs, evaluate_projection_dependent db I env _ _ rfl,
      evaluate_projection_dependent db I env _ _ rfl, splitPairs]
  rw [JoinsRowsOfSameD, hsplit, splitTree, pairsOfSameD, splitPairs_perm_iff]
  simp only [rowsFor, List.forall_mem_map, satisfies_naturalJoin_iff I env hjoin hne hleft hright]
  rfl

end

section

variable {s s' : State} {K : List Frame} {depJoin rightProjection childJoin next : Nat}
  {d a b : RaNode} {join : Join}

private theorem SplitPlace.splitIds (P : SplitPlace s K depJoin rightProjection d childJoin join a b)
    (d' : RaNode) (hd' : d'.ids = d.ids) :
    SplitIds depJoin (s.tree.nextId + 2) s.tree.nextId (s.tree.nextId + 1) childJoin d' a b := by
  have hold {i : Nat} (hi : i ∈ depJoin :: childJoin :: (d.ids ++ a.ids ++ b.ids)) :
      i < s.tree.nextId := by
    apply P.fresh
    rw [P.root, mem_ids_plug]
    simp only [RaNode.ids, List.mem_cons, List.mem_append] at hi ⊢
    tauto
  have hdepJoin := hold (List.mem_cons_self ..)
  have hchildJoin := hold (List.mem_cons_of_mem _ (List.mem_cons_self ..))
  have hdepJoin_inside := P.depJoin_inside
  have hchildJoin_inside := P.childJoin_inside
  have hfresh {i : Nat} (hi : s.tree.nextId ≤ i) : i ∉ d.ids ++ a.ids ++ b.ids :=
    fun hmem => absurd (hold (by simp only [List.mem_cons, hmem, or_true])) (Nat.not_lt.mpr hi)
  have h₀ := hfresh (Nat.le_refl _)
  have h₁ := hfresh (Nat.le_add_right _ 1)
  have h₂ := hfresh (Nat.le_add_right _ 2)
  simp only [List.mem_append, not_or] at hdepJoin_inside hchildJoin_inside h₀ h₁ h₂
  constructor
  · rw [hd']
    exact hdepJoin_inside.1
  · rw [hd']
    exact ⟨h₂.1.1, h₂.2⟩
  · rw [hd']
    exact ⟨by omega, h₀.1⟩
  · rw [hd']
    exact ⟨by omega, h₁.1.1, h₁.2⟩
  · rw [hd']
    exact ⟨by omega, P.distinct.symm, hchildJoin_inside.1⟩
  · exact ⟨by omega, by omega, hchildJoin_inside.2⟩

/-- What the tree is at the place of the join after the call. -/
private theorem find?_split (P : SplitPlace s K depJoin rightProjection d childJoin join a b)
    (h : outcome (splitDepJoin depJoin rightProjection dependent d childJoin join a b) s =
      (.ok next, s')) :
    ∃ m is leftAbove l rightAbove r,
      findAttributesUsingAlias ["d"] none false a = some l ∧
      findAttributesUsingAlias ["d"] none false b = some r ∧ join.predicate.isPresent = false ∧
      find? childJoin s'.tree.root = some (splitTree depJoin next s.tree.nextId
        (s.tree.nextId + 1) dependent (updateAll (renameNode m) is d) childJoin
        (naturalJoin join (naturalJoinPredicates (numbered "temp_" s.tree.counter)
          (numbered "temp_" (s.tree.counter + 1)) l r))
        (tempProjection (numbered "temp_" s.tree.counter) (passedAttributes leftAbove l))
        (tempProjection (numbered "temp_" (s.tree.counter + 1)) (passedAttributes rightAbove r))
        a b) := by
  obtain ⟨root, it, leftAbove, l, rightAbove, r, renames, visited, renamed, hl, hr, hit, hvisited,
    hrenamed, hroot, hpredicate, rfl, hresult⟩ := splitDepJoin_eq_ok h
  refine ⟨renames, visited, leftAbove, l, rightAbove, r, hl, hr, hpredicate, ?_⟩
  have hnull : join.predicate = .nullptr := by
    cases hp : join.predicate <;> simp [hp, Expr.isPresent] at hpredicate ⊢
  have hids := P.splitIds d rfl
  -- the split dependent join stands at the old place
  generalize htemp : splitTree depJoin (s.tree.nextId + 2) s.tree.nextId (s.tree.nextId + 1)
    dependent d childJoin join (tempProjection (numbered "temp_" s.tree.counter) [])
    (tempProjection (numbered "temp_" (s.tree.counter + 1)) []) a b = temp at hroot
  have hplug : root = plug K temp := by
    rw [hroot, P.root, update_plug P.depJoin_outside, update, if_pos rfl]
    rfl
  have hmem {i : Nat} (hi : i ∈ temp.ids) : i = childJoin ∨ i = s.tree.nextId ∨
      i = s.tree.nextId + 1 ∨ i = s.tree.nextId + 2 ∨ i = depJoin ∨ i ∈ d.ids ∨
      i ∈ a.ids ++ b.ids := by
    rw [← htemp] at hi
    simp only [splitTree, RaNode.ids, List.mem_cons, List.mem_append] at hi ⊢
    tauto
  have hold {i : Nat} (hi : i ∈ contextIds K) : i < s.tree.nextId := by
    apply P.fresh
    rw [P.root, mem_ids_plug]
    exact .inl hi
  have hspine : ∀ f ∈ K, f.id ∉ temp.ids := by
    intro f hf hi
    have hK : f.id ∈ contextIds K :=
      List.mem_flatMap.mpr ⟨f, hf, by cases f <;> exact List.mem_cons_self ..⟩
    have hlt := hold hK
    rcases hmem hi with hi | hi | hi | hi | hi | hi | hi
    · exact P.childJoin_outside (hi ▸ hK)
    · omega
    · omega
    · omega
    · exact P.depJoin_outside (hi ▸ hK)
    · exact P.spine f hf hi
    · exact P.apart _ hK hi
  -- the renaming changes D only
  have hvisits : visited ⊆ contextIds K := by
    obtain ⟨f, hf, hp⟩ := P.top
    have htop : temp.id? = some childJoin := htemp ▸ rfl
    rw [hplug] at hit
    exact visited_subset (hp ▸ hspine f hf) htop hit hvisited
  have ha : updateAll (renameNode renames) visited a = a := updateAll_eq_self fun i hi hia =>
    P.apart i (hvisits hi) (List.mem_append_left _ hia)
  have hb : updateAll (renameNode renames) visited b = b := updateAll_eq_self fun i hi hib =>
    P.apart i (hvisits hi) (List.mem_append_right _ hib)
  obtain ⟨L, hL, hupdate⟩ := updateAll_plug_renameNode (m := renames) hspine visited
  rw [← htemp, updateAll_splitTree hids hnull rfl rfl, ha, hb] at hupdate
  have houtside : childJoin ∉ contextIds L := hL ▸ P.childJoin_outside
  rw [hresult, hrenamed, hplug, ← htemp, hupdate, update_plug houtside, find?_plug houtside,
    splitTree, update, if_pos rfl, finishSplit, find?, if_pos rfl, splitTree]

/-- The call splits the dependent join. -/
private theorem outcome_splitDepJoin
    (P : SplitPlace s K depJoin rightProjection d childJoin join a b)
    (h : outcome (pushDownDepJoin depJoin rightProjection) s = (.ok (some next), s')) :
    outcome (splitDepJoin depJoin rightProjection dependent d childJoin join a b) s =
      (.ok next, s') ∧ (join.type = .crossProduct ∨ join.type = .inner) := by
  have hfind : find? depJoin s.tree.root =
      some (.join depJoin dependent d (.join childJoin join a b)) := by
    rw [P.root, find?_plug P.depJoin_outside, find?, if_pos rfl]
  obtain ⟨k, dep, d', r, move, hfind', hmove, hresult⟩ := pushDownDepJoin_eq_ok h
  cases hfind.symm.trans hfind'
  cases move with
  | replace t => cases hresult.1
  | split i join' a' b' =>
    obtain ⟨n, hn, hsplit⟩ := hresult
    cases hn
    obtain ⟨heq, htype⟩ := depJoinMove_eq_split hmove
    cases heq
    exact ⟨hsplit, htype⟩
  | badCast => exact hresult.elim
  | stay => cases hresult.1

end

/-- `pruefen t2, professoren p where s.matrnr = t2.matrnr and p.persnr = t.persnr`, once D passes
on `s.matrnr` and `t.persnr` and the conditions are pushed down. -/
def bothSidesCorrelated : State where
  tree :=
    { root := .projection 0 { args := [.attribute "note" "t2"], subqueryAlias := "m_0" } <|
        .join 1 dependent
          (.projection 3
            { args := [.attribute "matrnr" "", .attribute "persnr" ""]
              subqueryAlias := "d"
              subqueryColumns := ["matrnr", "persnr"] }
            (.relation 4 "cte_0" ""))
          (.join 2 { type := .crossProduct }
            (.selection 5 (.predicate (.attribute "matrnr" "d") (.attribute "matrnr" "t2") "=")
              (.relation 6 "pruefen" "t2"))
            (.selection 7 (.predicate (.attribute "persnr" "p") (.attribute "persnr" "d") "=")
              (.relation 8 "professoren" "p")))
      ctes := []
      counter := 0
      nextId := 9 }

private theorem splitPlace_bothSidesCorrelated : SplitPlace bothSidesCorrelated
    [.unary 0 (.projection { args := [.attribute "note" "t2"], subqueryAlias := "m_0" })] 1 0
    (.projection 3
      { args := [.attribute "matrnr" "", .attribute "persnr" ""]
        subqueryAlias := "d"
        subqueryColumns := ["matrnr", "persnr"] }
      (.relation 4 "cte_0" "")) 2 { type := .crossProduct }
    (.selection 5 (.predicate (.attribute "matrnr" "d") (.attribute "matrnr" "t2") "=")
      (.relation 6 "pruefen" "t2"))
    (.selection 7 (.predicate (.attribute "persnr" "p") (.attribute "persnr" "d") "=")
      (.relation 8 "professoren" "p")) where
  root := rfl
  top := ⟨_, List.mem_singleton_self _, rfl⟩
  depJoin_outside := by decide
  childJoin_outside := by decide
  distinct := by decide
  depJoin_inside := by decide
  childJoin_inside := by decide
  spine := by
    intro f hf
    cases List.mem_singleton.mp hf
    decide
  apart := by decide
  fresh := by decide

/-- The outer query gives the same number for the student and the examiner. -/
def exams (outer : List Nat) : Database Nat
  | "cte_0" => ⟨["matrnr", "persnr"], outer.map fun n => [some n, some n], by simp⟩
  | "pruefen" => ⟨["matrnr"], [[some 1], [some 2]], by simp⟩
  | _ => ⟨["persnr"], [[some 1], [some 2]], by simp⟩

private theorem updateAll_projection (m : RenameMap) (is : List Nat) (i j : Nat) (pr : Projection)
    (op : LeafOp) : ∃ args, updateAll (renameNode m) is (.projection i pr (.leaf j op)) =
      .projection i { pr with args := args } (.leaf j op) := by
  induction is generalizing pr with
  | nil => exact ⟨pr.args, rfl⟩
  | cons k is ih =>
    rw [updateAll, List.foldl_cons, update]
    by_cases hk : i = k
    · obtain ⟨args, hargs⟩ := ih { pr with args := renameExpressions m pr.args }
      exact ⟨args, by rw [if_pos hk]; exact hargs⟩
    · obtain ⟨args, hargs⟩ := ih pr
      refine ⟨args, ?_⟩
      rw [if_neg hk, update]
      split
      · exact hargs
      · exact hargs

end SqlOptimizer.Unnesting.SplitDepJoins
