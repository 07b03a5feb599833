import SqlOptimizer.Parse.MarkerJoins
import SqlOptimizer.Tree.Nodes
import SqlOptimizer.Unnesting.LexicalScopes

/-!
What `get_subtree_attributes` returns. It follows the markers of a condition to their joins and
then walks over the children: a join that lies below its marker is visited twice. The walk ends,
and comes to the attributes of the nodes of the subtree and to no others.
-/

set_option autoImplicit false
set_option relaxedAutoImplicit false

namespace SqlOptimizer.Unnesting.CollectorWalk

open Algebra.RelationalAlgebra
open Tree.Frames Tree.Nodes
open Parse.MarkerJoins
open Attributes LexicalScopes

/-- The marker among the items. -/
def IsMarkerOf (t : RaNode) (m : Nat) (type : JoinType) : Prop :=
  ∃ items, nodeItems t = some items ∧ .marker m type ∈ items

section

variable {jump : Nat → JoinType → Option (List Occurrence)}

/-- The items of one node, when all its markers lead somewhere. -/
theorem itemOccurrences_spec {items : List Item} (node k : Nat)
    (hjump : ∀ m type, .marker m type ∈ items → ∃ js, jump m type = some js) :
    ∃ os, itemOccurrences jump node k items = some os ∧ ∀ o, o ∈ os ↔
      o ∈ numbered node k items ∨
        ∃ m type js, .marker m type ∈ items ∧ jump m type = some js ∧ o ∈ js := by
  induction items generalizing k with
  | nil => exact ⟨[], rfl, fun o => by simp [numbered]⟩
  | cons item items ih =>
    have hrest : ∀ m type, .marker m type ∈ items → ∃ js, jump m type = some js :=
      fun m type hm => hjump m type (List.mem_cons_of_mem _ hm)
    cases item with
    | «attribute» name aliasName =>
      obtain ⟨os, hos, hmem⟩ := ih (k + 1) hrest
      refine ⟨⟨node, k, name, aliasName⟩ :: os, by rw [itemOccurrences, hos]; rfl, fun o => ?_⟩
      have hnumbered : numbered node k (.attribute name aliasName :: items) =
          ⟨node, k, name, aliasName⟩ :: numbered node (k + 1) items := rfl
      rw [hnumbered, List.mem_cons, List.mem_cons, hmem, or_assoc]
      simp only [List.mem_cons, reduceCtorEq, false_or]
    | marker m type =>
      obtain ⟨os, hos, hmem⟩ := ih (k + 1) hrest
      obtain ⟨js, hjs⟩ := hjump m type List.mem_cons_self
      refine ⟨js ++ os, by rw [itemOccurrences, hjs, hos]; rfl, fun o => ?_⟩
      have hnumbered : numbered node k (.marker m type :: items) = numbered node (k + 1) items := rfl
      rw [hnumbered, List.mem_append, hmem]
      constructor
      · rintro (ho | ho | ⟨m', type', js', hm, hj, ho⟩)
        · exact .inr ⟨m, type, js, List.mem_cons_self, hjs, ho⟩
        · exact .inl ho
        · exact .inr ⟨m', type', js', List.mem_cons_of_mem _ hm, hj, ho⟩
      · rintro (ho | ⟨m', type', js', hm, hj, ho⟩)
        · exact .inr (.inl ho)
        · rcases List.mem_cons.mp hm with heq | hm
          · cases heq
            obtain rfl := Option.some.inj (hjs.symm.trans hj)
            exact .inl ho
          · exact .inr (.inr ⟨m', type', js', hm, hj, ho⟩)

/-- What the walk over a tree returns when all its markers lead somewhere. -/
theorem subtreeOccurrences_spec {t : RaNode} (hitems : ∀ n ∈ nodes t, (nodeItems n).isSome)
    (hjump : ∀ n ∈ nodes t, ∀ m type, IsMarkerOf n m type → ∃ js, jump m type = some js) :
    ∃ os, subtreeOccurrences jump t = some os ∧ ∀ o, o ∈ os ↔
      ∃ n ∈ nodes t, o ∈ visitedAt n ∨
        ∃ m type js, IsMarkerOf n m type ∧ jump m type = some js ∧ o ∈ js := by
  -- the attributes of the node itself, for each kind of node
  have hnode {n : RaNode} (hn : (nodeItems n).isSome)
      (hj : ∀ m type, IsMarkerOf n m type → ∃ js, jump m type = some js) :
      ∃ os, nodeOccurrences jump n = some os ∧ ∀ o, o ∈ os ↔ o ∈ visitedAt n ∨
        ∃ m type js, IsMarkerOf n m type ∧ jump m type = some js ∧ o ∈ js := by
    obtain ⟨items, hitems⟩ := Option.isSome_iff_exists.mp hn
    obtain ⟨os, hos, hmem⟩ := itemOccurrences_spec (n.id?.getD 0) 0
      fun m type hm => hj m type ⟨items, hitems, hm⟩
    refine ⟨os, by rw [nodeOccurrences, hitems]; exact hos, fun o => ?_⟩
    have hmarker (m : Nat) (type : JoinType) : IsMarkerOf n m type ↔ .marker m type ∈ items :=
      ⟨fun ⟨items', h, hm⟩ => Option.some.inj (hitems.symm.trans h) ▸ hm,
        fun hm => ⟨items, hitems, hm⟩⟩
    simp only [hmem, hmarker, visitedAt, hitems, Option.getD_some]
  have hempty {n : RaNode} (h : nodeItems n = some []) (o : Occurrence) :
      ¬ (o ∈ visitedAt n ∨ ∃ m type js, IsMarkerOf n m type ∧ jump m type = some js ∧ o ∈ js) := by
    rintro (ho | ⟨m, type, js, ⟨items, hitems, hm⟩, -⟩)
    · simp [visitedAt, h, numbered] at ho
    · cases h.symm.trans hitems
      cases hm
  induction t with
  | hole => exact ⟨[], rfl, fun o => by simp [nodes]⟩
  | leaf i op =>
    refine ⟨[], rfl, fun o => ?_⟩
    simp only [nodes, List.mem_singleton, exists_eq_left, List.not_mem_nil, false_iff]
    exact hempty rfl o
  | unary i op c ih =>
    rw [nodes, List.forall_mem_cons] at hitems hjump
    obtain ⟨os, hos, hmem⟩ := hnode hitems.1 hjump.1
    obtain ⟨cs, hcs, hcmem⟩ := ih hitems.2 hjump.2
    refine ⟨os ++ cs, by rw [subtreeOccurrences, hos, hcs]; rfl, fun o => ?_⟩
    rw [nodes, List.exists_mem_cons_iff, List.mem_append, hmem, hcmem]
  | join i join l r ihl ihr =>
    rw [nodes, List.forall_mem_cons, List.forall_mem_append] at hitems hjump
    obtain ⟨os, hos, hmem⟩ := hnode hitems.1 hjump.1
    obtain ⟨ls, hls, hlmem⟩ := ihl hitems.2.1 hjump.2.1
    obtain ⟨rs, hrs, hrmem⟩ := ihr hitems.2.2 hjump.2.2
    refine ⟨os ++ ls ++ rs, by rw [subtreeOccurrences, hos, hls, hrs]; rfl, fun o => ?_⟩
    rw [nodes, List.exists_mem_cons_iff, List.mem_append, List.mem_append, hmem, hlmem, hrmem,
      or_assoc]
    simp only [List.mem_append, or_and_right, exists_or]

/-- A walk that does not fault meets no null pointer. -/
theorem nodeItems_isSome_of_subtreeOccurrences {t : RaNode} {os : List Occurrence}
    (h : subtreeOccurrences jump t = some os) : ∀ n ∈ nodes t, (nodeItems n).isSome := by
  have hnode {n : RaNode} {os : List Occurrence} (h : nodeOccurrences jump n = some os) :
      (nodeItems n).isSome := by
    obtain ⟨items, hitems, -⟩ := Option.bind_eq_some_iff.mp h
    rw [hitems]
    rfl
  induction t generalizing os with
  | hole => exact nofun
  | leaf i op =>
    intro n hn
    rw [List.mem_singleton.mp hn]
    rfl
  | unary i op c ih =>
    obtain ⟨as, has, hmap⟩ := Option.bind_eq_some_iff.mp h
    obtain ⟨cs, hcs, -⟩ := Option.map_eq_some_iff.mp hmap
    exact List.forall_mem_cons.mpr ⟨hnode has, ih hcs⟩
  | join i join l r ihl ihr =>
    obtain ⟨as, has, hbind⟩ := Option.bind_eq_some_iff.mp h
    obtain ⟨ls, hls, hmap⟩ := Option.bind_eq_some_iff.mp hbind
    obtain ⟨rs, hrs, -⟩ := Option.map_eq_some_iff.mp hmap
    exact List.forall_mem_cons.mpr ⟨hnode has, List.forall_mem_append.mpr ⟨ihl hls, ihr hrs⟩⟩

end

private theorem not_marker_getExpressionAttributes {e : Expr} {items : List Item}
    (h : getExpressionAttributes e = some items) {m : Nat} {type : JoinType} :
    .marker m type ∉ items := by
  have hall {es : List Expr}
      (ih : ∀ e ∈ es, ∀ items, getExpressionAttributes e = some items → .marker m type ∉ items) :
      ∀ items, getAllExpressionAttributes es = some items → .marker m type ∉ items := by
    induction es with
    | nil =>
      rintro items ⟨rfl⟩
      exact List.not_mem_nil
    | cons e es ihes =>
      intro items h
      rw [List.forall_mem_cons] at ih
      obtain ⟨as, has, hmap⟩ := Option.bind_eq_some_iff.mp h
      obtain ⟨bs, hbs, rfl⟩ := Option.map_eq_some_iff.mp hmap
      rw [List.mem_append, not_or]
      exact ⟨ih.1 as has, ihes ih.2 bs hbs⟩
  induction e using Expr.ind generalizing items with
  | nullptr => cases h
  | attr n a =>
    cases h
    simp
  | funcCall f args g d ih => exact hall (fun e he _ h => ih e he h) items h
  | typeCast t k e ih => exact ih h
  | expression l r op ihl ihr =>
    obtain ⟨as, bs, rfl, hl, hr⟩ := exists_of_getExpressionAttributes_expression h
    have hoperand {e : Expr} {as : List Item}
        (ih : ∀ {items}, getExpressionAttributes e = some items → .marker m type ∉ items)
        (h : e = .nullptr ∧ as = [] ∨ getExpressionAttributes e = some as) :
        .marker m type ∉ as := by
      rcases h with ⟨-, rfl⟩ | h
      · exact List.not_mem_nil
      · exact ih h
    rw [List.mem_append, not_or]
    exact ⟨hoperand ihl hl, hoperand ihr hr⟩
  | _ =>
    cases h
    exact List.not_mem_nil

private theorem not_marker_getAllExpressionAttributes {es : List Expr} {items : List Item}
    (h : getAllExpressionAttributes es = some items) {m : Nat} {type : JoinType} :
    .marker m type ∉ items :=
  not_marker_getExpressionAttributes (e := .funcCall "" es false false) h

/-- The collectors come to the markers that stand as conditions. -/
private theorem mem_conditionMarkers {e : Expr} {items : List Item}
    (h : getPredicateAttributes e = some items) {m : Nat} {type : JoinType}
    (hm : .marker m type ∈ items) : (m, type) ∈ conditionMarkers e := by
  induction e using Expr.ind generalizing items with
  | nullptr => cases h
  | boolPredicate op args ih =>
    rw [getPredicateAttributes] at h
    rw [conditionMarkers]
    induction args generalizing items with
    | nil =>
      cases h
      cases hm
    | cons e es ihes =>
      rw [List.forall_mem_cons] at ih
      obtain ⟨as, has, hmap⟩ := Option.bind_eq_some_iff.mp h
      obtain ⟨bs, hbs, rfl⟩ := Option.map_eq_some_iff.mp hmap
      rw [allConditionMarkers, List.mem_append]
      rcases List.mem_append.mp hm with hm | hm
      · exact .inl (ih.1 has hm)
      · exact .inr (ihes ih.2 hbs hm)
  | predicate l r op ihl ihr =>
    obtain ⟨as, has, hmap⟩ := Option.bind_eq_some_iff.mp h
    obtain ⟨bs, hbs, rfl⟩ := Option.map_eq_some_iff.mp hmap
    rcases List.mem_append.mp hm with hm | hm
    · exact absurd hm (not_marker_getExpressionAttributes has)
    · exact absurd hm (not_marker_getExpressionAttributes hbs)
  | whereSubqueryMarker m' type' =>
    cases h
    cases List.mem_singleton.mp hm
    exact List.mem_cons_self
  | _ =>
    cases h
    cases hm

/-- A marked join of a tree is one of its nodes. -/
private theorem exists_join_of_mem_joinMarkers {t : RaNode} {m : Nat} {type : JoinType}
    (h : (m, type) ∈ joinMarkers t) :
    ∃ i join l r, .join i join l r ∈ nodes t ∧ join.marker = m ∧ join.type = type ∧ m ≠ 0 := by
  induction t with
  | hole => cases h
  | leaf i op => cases h
  | unary i op c ih =>
    obtain ⟨j, join, l, r, hmem, hjoin⟩ := ih h
    exact ⟨j, join, l, r, List.mem_cons_of_mem _ hmem, hjoin⟩
  | join i join l r ihl ihr =>
    rw [joinMarkers, List.mem_append, List.mem_append] at h
    rcases h with h | h | h
    · split at h
      · next hne =>
        obtain ⟨rfl, rfl⟩ := Prod.mk.inj (List.mem_singleton.mp h)
        exact ⟨i, join, l, r, List.mem_cons_self, rfl, rfl, hne⟩
      · cases h
    · obtain ⟨j, join', l', r', hmem, hjoin⟩ := ihl h
      exact ⟨j, join', l', r', List.mem_cons_of_mem _ (List.mem_append_left _ hmem), hjoin⟩
    · obtain ⟨j, join', l', r', hmem, hjoin⟩ := ihr h
      exact ⟨j, join', l', r', List.mem_cons_of_mem _ (List.mem_append_right _ hmem), hjoin⟩

theorem anchored_of_mem_nodes {t n : RaNode} (ht : Anchored t) (hn : n ∈ nodes t) : Anchored n := by
  induction t with
  | hole => cases hn
  | leaf i op => exact List.mem_singleton.mp hn ▸ ht
  | unary i op c ih =>
    rcases List.mem_cons.mp hn with rfl | hn
    · exact ht
    · exact ih ht.2 hn
  | join i join l r ihl ihr =>
    rcases List.mem_cons.mp hn with rfl | hn
    · exact ht
    · exact (List.mem_append.mp hn).elim (ihl ht.2.1) (ihr ht.2.2)

/-- The join of a marker is below the node that has the marker. -/
theorem exists_join_below {n : RaNode} (hn : Anchored n) {m : Nat} {type : JoinType}
    (hm : IsMarkerOf n m type) : ∃ i join l r, .join i join l r ∈ nodes n ∧
      (RaNode.join i join l r).ids.length < n.ids.length ∧ join.marker = m ∧ join.type = type ∧
      m ≠ 0 := by
  obtain ⟨items, hitems, hm⟩ := hm
  have hbelow {c : RaNode} (hmem : (m, type) ∈ joinMarkers c)
      (hnodes : ∀ j ∈ nodes c, j ∈ nodes n) (hlt : c.ids.length < n.ids.length) :
      ∃ i join l r, .join i join l r ∈ nodes n ∧
        (RaNode.join i join l r).ids.length < n.ids.length ∧ join.marker = m ∧ join.type = type ∧
        m ≠ 0 := by
    obtain ⟨i, join, l, r, hj, hjoin⟩ := exists_join_of_mem_joinMarkers hmem
    have hle := length_ids_le_of_mem_nodes hj
    exact ⟨i, join, l, r, hnodes _ hj, by omega, hjoin⟩
  cases n with
  | hole =>
    cases hitems
    cases hm
  | leaf i op =>
    cases hitems
    cases hm
  | unary i op c =>
    have hc {p : Expr} (hp : getPredicateAttributes p = some items)
        (hop : operatorCondition op = p) : (m, type) ∈ joinMarkers c :=
      hn.1 _ (hop ▸ mem_conditionMarkers hp hm)
    have hlt : c.ids.length < (RaNode.unary i op c).ids.length := by simp [RaNode.ids]
    cases op with
    | selection p => exact hbelow (hc hitems rfl) (fun j hj => List.mem_cons_of_mem _ hj) hlt
    | projection pr => exact absurd hm (not_marker_getAllExpressionAttributes hitems)
    | groupBy args implicit => exact absurd hm (not_marker_getAllExpressionAttributes hitems)
    | _ =>
      cases hitems
      cases hm
  | join i join l r =>
    rw [nodeItems] at hitems
    split at hitems
    · rcases hn.1 _ (mem_conditionMarkers hitems hm) with hl | hr
      · exact hbelow hl (fun j hj => List.mem_cons_of_mem _ (List.mem_append_left _ hj))
          (by rw [RaNode.ids, List.length_cons, List.length_append]; omega)
      · exact hbelow hr (fun j hj => List.mem_cons_of_mem _ (List.mem_append_right _ hj))
          (by rw [RaNode.ids, List.length_cons, List.length_append]; omega)
    · cases hitems
      cases hm

/-- The marked joins among the joins of a tree. -/
private theorem joinMarkers_eq (t : RaNode) : (joinMarkers t).map Prod.fst =
    ((joins t).map fun j => j.2.marker).filter (· ≠ 0) := by
  induction t with
  | hole => rfl
  | leaf i op => rfl
  | unary i op c ih => exact ih
  | join i join l r ihl ihr =>
    rw [joinMarkers, joins, List.map_append, List.map_append, ihl, ihr, List.map_cons,
      List.map_append, List.filter_cons, List.filter_append]
    by_cases h : join.marker = 0 <;> simp [h]

theorem mem_joins {t : RaNode} {i : Nat} {join : Join} {l r : RaNode}
    (h : .join i join l r ∈ nodes t) : (i, join) ∈ joins t := by
  induction t with
  | hole => cases h
  | leaf j op => cases List.mem_singleton.mp h
  | unary j op c ih => exact ih ((List.mem_cons.mp h).resolve_left nofun)
  | join j join' l' r' ihl ihr =>
    rcases List.mem_cons.mp h with heq | h
    · cases heq
      exact List.mem_cons_self
    · refine List.mem_cons_of_mem _ (List.mem_append.mpr ?_)
      exact (List.mem_append.mp h).imp ihl ihr

/-- Joins with other markers are passed over. -/
private theorem foldlM_assignJoin {js : List (Nat × Join)} {p : MarkerJoin}
    (h : ∀ j ∈ js, j.2.marker ≠ p.marker) :
    js.foldlM (fun ps j => assignJoin j ps) [p] = some [p] := by
  induction js with
  | nil => rfl
  | cons j js ih =>
    rw [List.forall_mem_cons] at h
    have hj : assignJoin j [p] = some [p] := by simp [assignJoin, h.1]
    rw [List.foldlM_cons, hj]
    exact ih h.2

/-- In a tree without two joins for one marker, a marker leads to its join. -/
theorem markerJoin_eq_some {root : RaNode} (hroot : Distinct root)
    (hmarkers : ((joinMarkers root).map Prod.fst).Nodup) {i : Nat} {join : Join} {l r : RaNode}
    (hj : .join i join l r ∈ nodes root) (hne : join.marker ≠ 0) :
    markerJoin root join.marker join.type = some (.join i join l r) := by
  obtain ⟨as, bs, hsplit⟩ := List.append_of_mem (mem_joins hj)
  rw [joinMarkers_eq, hsplit, List.map_append, List.map_cons, List.filter_append, List.filter_cons,
    if_pos (by simpa using hne), List.nodup_append', List.nodup_cons] at hmarkers
  obtain ⟨-, ⟨hbs, -⟩, hdisj⟩ := hmarkers
  have hother {js : List (Nat × Join)}
      (h : join.marker ∉ (js.map fun j => j.2.marker).filter (· ≠ 0)) :
      ∀ j ∈ js, j.2.marker ≠ join.marker := by
    intro j hj heq
    exact h (List.mem_filter.mpr ⟨List.mem_map.mpr ⟨j, hj, heq⟩, by simpa using hne⟩)
  have has : join.marker ∉ (as.map fun j => j.2.marker).filter (· ≠ 0) :=
    fun h => hdisj h List.mem_cons_self
  have hfind : findJoinsByMarkers root [⟨join.marker, join.type, none⟩] =
      some [⟨join.marker, join.type, some i⟩] := by
    rw [findJoinsByMarkers, hsplit, List.foldlM_append, foldlM_assignJoin (hother has)]
    have hassign : assignJoin (i, join) [⟨join.marker, join.type, none⟩] =
        some [⟨join.marker, join.type, some i⟩] := by simp [assignJoin]
    change List.foldlM (fun ps j => assignJoin j ps) _ ((i, join) :: bs) = _
    rw [List.foldlM_cons, hassign]
    exact foldlM_assignJoin (hother hbs)
  obtain ⟨K, rfl⟩ := exists_plug_of_mem_nodes hj
  rw [markerJoin, hfind]
  exact find?_plug_of_id? hroot rfl

/-- The tree is part of a heap in which every object is there once and no two joins have one
marker. -/
structure Houses (root it : RaNode) : Prop where
  position : ∃ K, root = plug K it
  distinct : Distinct root
  markers : ((joinMarkers root).map Prod.fst).Nodup

section

variable {root it : RaNode} (hhouse : Houses root it) (hanchored : Anchored it)

include hhouse hanchored

/-- A marker in the tree leads to a smaller tree in it. -/
theorem exists_markerJoin {n : RaNode} (hn : n ∈ nodes it) {m : Nat} {type : JoinType}
    (hm : IsMarkerOf n m type) : ∃ j, markerJoin root m type = some j ∧ j ∈ nodes n ∧
      j.ids.length < n.ids.length := by
  obtain ⟨i, join, l, r, hj, hlt, rfl, rfl, hne⟩ :=
    exists_join_below (anchored_of_mem_nodes hanchored hn) hm
  obtain ⟨K, rfl⟩ := hhouse.position
  have hroot := mem_nodes_plug K (mem_nodes_trans hn hj)
  exact ⟨_, markerJoin_eq_some hhouse.distinct hhouse.markers hroot hne, hj, hlt⟩

/-- The induction is on the markers that are followed one inside the other: the tree gets smaller
with each of them. -/
private theorem subtreeAttributes_spec {fuel : Nat} {t : RaNode} (ht : ∀ n ∈ nodes t, n ∈ nodes it)
    (hfuel : t.ids.length < fuel) (hitems : ∀ n ∈ nodes t, (nodeItems n).isSome) :
    ∃ os, subtreeAttributes root fuel t = some os ∧ ∀ o, o ∈ os ↔ ∃ n ∈ nodes t, o ∈ visitedAt n := by
  induction fuel generalizing t with
  | zero => omega
  | succ fuel ih =>
    have hjump : ∀ n ∈ nodes t, ∀ m type, IsMarkerOf n m type → ∃ js,
        (markerJoin root m type).bind (subtreeAttributes root fuel) = some js ∧
          ∀ o ∈ js, ∃ n ∈ nodes t, o ∈ visitedAt n := by
      intro n hn m type hm
      obtain ⟨j, hj, hmem, hlt⟩ := exists_markerJoin hhouse hanchored (ht n hn) hm
      have hle := length_ids_le_of_mem_nodes hn
      have hsub : ∀ k ∈ nodes j, k ∈ nodes t := fun k hk =>
        mem_nodes_trans hn (mem_nodes_trans hmem hk)
      obtain ⟨js, hjs, hjmem⟩ := ih (fun k hk => ht k (hsub k hk)) (by omega)
        fun k hk => hitems k (hsub k hk)
      refine ⟨js, by rw [hj]; exact hjs, fun o ho => ?_⟩
      obtain ⟨k, hk, hko⟩ := (hjmem o).mp ho
      exact ⟨k, hsub k hk, hko⟩
    obtain ⟨os, hos, hmem⟩ := subtreeOccurrences_spec hitems fun n hn m type hm =>
      (hjump n hn m type hm).imp fun js hjs => hjs.1
    refine ⟨os, hos, fun o => (hmem o).trans ⟨?_, fun ⟨n, hn, ho⟩ => ⟨n, hn, .inl ho⟩⟩⟩
    rintro ⟨n, hn, ho | ⟨m, type, js, hm, hjs, ho⟩⟩
    · exact ⟨n, hn, ho⟩
    · obtain ⟨js', hjs', hall⟩ := hjump n hn m type hm
      obtain rfl := Option.some.inj (hjs.symm.trans hjs')
      exact hall o ho

/-- The walk ends when no null pointer is met, and returns the attributes that the collectors come
to at the nodes of the tree. -/
theorem getSubtreeAttributes_spec (hitems : ∀ n ∈ nodes it, (nodeItems n).isSome) :
    ∃ os, getSubtreeAttributes root it = some os ∧ ∀ o, o ∈ os ↔ ∃ n ∈ nodes it, o ∈ visitedAt n := by
  refine subtreeAttributes_spec hhouse hanchored (fun n hn => hn) ?_ hitems
  obtain ⟨K, rfl⟩ := hhouse.position
  have hlen := (ids_plug K it).length_eq
  rw [List.length_append] at hlen
  omega

end

theorem nodeItems_isSome_of_getSubtreeAttributes {root it : RaNode} {os : List Occurrence}
    (h : getSubtreeAttributes root it = some os) : ∀ n ∈ nodes it, (nodeItems n).isSome :=
  nodeItems_isSome_of_subtreeOccurrences h

end SqlOptimizer.Unnesting.CollectorWalk
