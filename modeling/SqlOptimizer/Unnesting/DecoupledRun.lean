import SqlOptimizer.Unnesting.DecoupledTable
import SqlOptimizer.Unnesting.PushedDepJoins
import SqlOptimizer.Unnesting.RenamedAttributes

/-!
The run of `decorrelate_subquery` on a scalar subquery that can be decoupled. The dependent join
comes over the body of the subquery, goes below its Group By and its Selection, and is dropped
there.
-/

set_option autoImplicit false
set_option relaxedAutoImplicit false

namespace SqlOptimizer.Unnesting.DecoupledRun

open Algebra.RelationalAlgebra
open Tree.Addresses Tree.Frames Tree.Nodes Tree.Walks
open Tree.PushDown (addPredicate addPredicateToSelection)
open Logic.NumberedNames Logic.Triples
open Semantics.Evaluation Semantics.References
open Semantics.FreeReads (readExprs)
open Objects Attributes Markers PushDownDepJoin Decouple DecorrelateSubquery
open Counterparts RenamedAttributes ChangedConditions GroupedSubquery DecoupledTable
open CorrelationAgreement (conjuncts)
open DColumns (tableColumnNames)
open RedundantPredicates (takeOut_plug)
open PushedDepJoins (IsD)
open SplitDepJoins (dependent)

section

variable {α : Type} (t : RaTree)

theorem takes_getRoot : Takes State.tree getRoot t t.root t := by
  rintro s rfl
  exact ⟨s, rfl, rfl⟩

theorem takes_modifyRoot {f : RaNode → RaNode} {root : RaNode} (h : f t.root = root) :
    Takes State.tree (modifyRoot f) t () { t with root := root } :=
  .modify fun s hs => by rw [← h, ← hs]

theorem takes_orCrash {o : Option α} {a : α} (h : o = some a) :
    Takes State.tree (orCrash o) t a t := by
  rw [h]
  exact .pure a

theorem takes_assert {p : Prop} [Decidable p] (h : p) : Takes State.tree (assert p) t () t := by
  rw [assert, if_pos h]
  exact .pure ()

theorem takes_newNode :
    Takes State.tree newNode t t.nextId { t with nextId := t.nextId + 1 } := by
  rintro s rfl
  exact ⟨_, rfl, rfl⟩

theorem takes_newName (stem : String) : Takes State.tree (newName stem) t
    (numbered stem t.counter) { t with counter := t.counter + 1 } := by
  rintro s rfl
  exact ⟨_, rfl, rfl⟩

theorem takes_logName (name : String) : Takes State.tree (logName name) t () t :=
  .modify fun _ hs => hs

theorem takes_logCasts (casts : List BadCast) : Takes State.tree (logCasts casts) t () t :=
  .modify fun _ hs => hs

end

/-- A search that does not come to a marker finds the same whatever the markers lead to. -/
theorem subtreeOccurrences_of_none {t : RaNode} {os : List Occurrence}
    (h : subtreeOccurrences (fun _ _ => none) t = some os)
    (jump : Nat → JoinType → Option (List Occurrence)) : subtreeOccurrences jump t = some os := by
  have hitems (node : Nat) (items : List Item) : ∀ k os,
      itemOccurrences (fun _ _ => none) node k items = some os →
        itemOccurrences jump node k items = some os := by
    induction items with
    | nil => exact fun _ _ h => h
    | cons item items ih =>
      intro k os h
      cases item with
      | «attribute» n a =>
        obtain ⟨os', hos, rfl⟩ := Option.map_eq_some_iff.mp h
        rw [itemOccurrences, ih _ _ hos, Option.map_some]
      | marker m type => cases h
  have hnode (t : RaNode) {os : List Occurrence}
      (h : nodeOccurrences (fun _ _ => none) t = some os) : nodeOccurrences jump t = some os := by
    obtain ⟨items, hsome, hos⟩ := Option.bind_eq_some_iff.mp h
    rw [nodeOccurrences, hsome, Option.bind_some, hitems _ _ _ _ hos]
  induction t generalizing os with
  | hole => exact h
  | leaf i op => exact h
  | unary i op c ih =>
    obtain ⟨own, hown, h⟩ := Option.bind_eq_some_iff.mp h
    obtain ⟨below, hbelow, rfl⟩ := Option.map_eq_some_iff.mp h
    rw [subtreeOccurrences, hnode _ hown, Option.bind_some, ih hbelow, Option.map_some]
  | join i join l r ihl ihr =>
    obtain ⟨own, hown, h⟩ := Option.bind_eq_some_iff.mp h
    obtain ⟨left, hleft, h⟩ := Option.bind_eq_some_iff.mp h
    obtain ⟨right, hright, rfl⟩ := Option.map_eq_some_iff.mp h
    rw [subtreeOccurrences, hnode _ hown, Option.bind_some, ihl hleft, Option.bind_some, ihr hright,
      Option.map_some]

theorem intersectCorrelatedAttributes_of_none {t : RaNode} {os : List Occurrence}
    (h : subtreeOccurrences (fun _ _ => none) t = some os) (root d : RaNode) :
    intersectCorrelatedAttributes root d t =
      some (os.filter fun o => isCorrelated d t o.name o.aliasName) := by
  rw [intersectCorrelatedAttributes, getSubtreeAttributes, subtreeAttributes,
    subtreeOccurrences_of_none h, Option.map_some]

section

variable {m : RenameMap} (hm : RenamesD m)
include hm

/-- The renaming finds nothing of D in the expression. -/
theorem renameExpression_eq_self {e : Expr} (h : ∀ q ∈ references e, isOfD q = false) :
    renameExpression m e = e := by
  have hall (args : List Expr) (ih : ∀ e ∈ args, (∀ q ∈ references e, isOfD q = false) →
      renameExpression m e = e) (h : ∀ q ∈ allReferences args, isOfD q = false) :
      renameExpressions m args = args := by
    induction args with
    | nil => rfl
    | cons e es ihes =>
      rw [List.forall_mem_cons] at ih
      rw [allReferences, List.forall_mem_append] at h
      rw [renameExpressions, ih.1 h.1, ihes ih.2 h.2]
  induction e using Expr.ind with
  | attr n a =>
    have ha : a ≠ "d" := of_decide_eq_false (h _ (List.mem_singleton_self _))
    rw [renameExpression, renamed_of_ne hm ha]
  | funcCall f args g d ih => rw [renameExpression, hall args ih h]
  | boolPredicate op args ih => rw [renameExpression, hall args ih h]
  | predicate l r op ihl ihr =>
    rw [references, List.forall_mem_append] at h
    rw [renameExpression, ihl h.1, ihr h.2]
  | selectExpression e r ih => rw [renameExpression, ih h]
  | _ => rfl

theorem renameExpressions_eq_self {es : List Expr} (h : ∀ q ∈ allReferences es, isOfD q = false) :
    renameExpressions m es = es := by
  induction es with
  | nil => rfl
  | cons e es ih =>
    rw [allReferences, List.forall_mem_append] at h
    rw [renameExpressions, renameExpression_eq_self hm h.1, ih h.2]

theorem renameTree_eq_self {t : RaNode}
    (h : ∀ x ∈ nodes t, ∀ q ∈ allReferences (readExprs x), isOfD q = false) :
    renameTree m t = t := by
  induction t with
  | hole => rfl
  | leaf i op => rfl
  | unary i op c ih =>
    rw [nodes, List.forall_mem_cons] at h
    have hc := ih h.2
    cases op with
    | projection pr =>
      have hargs : renameExpressions m pr.args = pr.args := renameExpressions_eq_self hm h.1
      rw [renameTree, hargs, hc]
    | selection p =>
      have hp : renameExpression m p = p :=
        renameExpression_eq_self hm fun q hq => h.1 q (List.mem_append_left _ hq)
      rw [renameTree, hp, hc]
    | groupBy args implicit =>
      have hargs : renameExpressions m args = args := renameExpressions_eq_self hm h.1
      rw [renameTree, hargs, hc]
    | _ => rfl
  | join i join l r ihl ihr =>
    rw [nodes, List.forall_mem_cons, List.forall_mem_append] at h
    have hp : renameExpression m join.predicate = join.predicate :=
      renameExpression_eq_self hm fun q hq => h.1 q (List.mem_append_left _ hq)
    rw [renameTree, hp, ihl h.2.1, ihr h.2.2]

end

/-- It does not matter which stop node there is. -/
theorem findInExpression_stop (aliases : List String) (i j : Nat) (e : Expr) :
    findInExpression aliases (some i) e = findInExpression aliases (some j) e := by
  have hall (es : List Expr) (h : ∀ e ∈ es,
      findInExpression aliases (some i) e = findInExpression aliases (some j) e) :
      findInExpressions aliases (some i) es = findInExpressions aliases (some j) es := by
    induction es with
    | nil => rfl
    | cons e es ih =>
      rw [List.forall_mem_cons] at h
      rw [findInExpressions, findInExpressions, h.1, ih h.2]
  induction e using Expr.ind with
  | funcCall f args g d ih => exact hall args ih
  | boolPredicate op args ih => exact hall args ih
  | predicate l r op ihl ihr => rw [findInExpression, findInExpression, ihl, ihr]
  | expression l r op ihl ihr => rw [findInExpression, findInExpression, ihl, ihr]
  | selectExpression e r ih => exact ih
  | typeCast t mod e ih => exact ih
  | _ => rfl

/-- The search for attributes of D finds all that are listed one by one. -/
theorem findInExpressions_ofD (i : Nat) (columns : List AttributeRef) :
    findInExpressions ["d"] (some i) (columns.map fun c => .attribute c.1 "d") =
      some (columns.map ofD) := by
  induction columns with
  | nil => rfl
  | cons c cs ih =>
    rw [List.map_cons, findInExpressions, ih]
    rfl

theorem mem_nodes_of_getAllSelections {t : RaNode} {x : Nat × Expr × RaNode}
    (h : x ∈ getAllSelections t) : RaNode.selection x.1 x.2.1 x.2.2 ∈ nodes t := by
  induction t with
  | hole => cases h
  | leaf i op => cases h
  | unary i op c ih =>
    cases op with
    | selection p =>
      rcases List.mem_cons.mp h with rfl | h
      · exact List.mem_cons_self
      · exact List.mem_cons_of_mem _ (ih h)
    | _ => exact List.mem_cons_of_mem _ (ih h)
  | join i join l r ihl ihr =>
    refine List.mem_cons_of_mem _ (List.mem_append.mpr ?_)
    exact (List.mem_append.mp h).imp ihl ihr

/-- A Selection from whose condition nothing is lost stays as it is. -/
theorem removeRedundantIn_untouched {root c : RaNode} {sel : Nat} {p : Expr} (hd : Distinct root)
    (hmem : RaNode.selection sel p c ∈ nodes root) (hp : LosesOnly [] p) (hne : conjuncts p ≠ []) :
    removeRedundantIn sel root = some root := by
  obtain ⟨K, hK⟩ := exists_plug_of_mem_nodes hmem
  have hid : (RaNode.selection sel p c).id? = some sel := rfl
  obtain ⟨parent, hrun⟩ := removeRedundantPredicates_reduced hp
  have hpresent : (reduced p).isPresent = true :=
    (isPresent_reduced hp).mpr (by rwa [kept_conjuncts hp])
  rw [reduced_eq_self hp hne] at hrun hpresent
  rw [hK] at hd ⊢
  simp only [removeRedundantIn, find?_plug_of_id? hd hid, hrun, Option.bind_some, hpresent, if_true,
    update_plug_of_id? hd hid]
  rfl

/-- A Selection below another node is taken out when nothing is left of its condition. -/
theorem removeRedundantIn_filtered {f : Frame} {K : List Frame} {sel : Nat} {p : Expr} {c : RaNode}
    {bs : List AttributeRef} (hd : Distinct (plug (f :: K) (.selection sel p c)))
    (hc : c.isHole = false) (hp : LosesOnly bs p) :
    removeRedundantIn sel (plug (f :: K) (.selection sel p c)) =
      some (plug (f :: K) (filtered sel (reduced p) c)) := by
  have hid (p : Expr) : (RaNode.selection sel p c).id? = some sel := rfl
  obtain ⟨parent, hrun⟩ := removeRedundantPredicates_reduced hp
  have hupdate :
      update sel (setSelectionPredicate (reduced p)) (plug (f :: K) (.selection sel p c)) =
        plug (f :: K) (.selection sel (reduced p) c) := update_plug_of_id? hd (hid p) _
  have hd' : Distinct (plug (f :: K) (.selection sel (reduced p) c)) := by
    rw [distinct_plug] at hd ⊢
    exact hd
  simp only [removeRedundantIn, find?_plug_of_id? hd (hid p), hrun, Option.bind_some, hupdate,
    hc, getNodeParent_plug hd' (hid _), Frame.id?_plug, Option.map_some, takeOut_plug hd', filtered,
    Bool.false_eq_true, if_false]
  split <;> rfl

section

variable {t t' : RaTree} {rightProjection n fuel : Nat} {dep : Join} {d : RaNode}
  {K L : List Frame} {pr : Projection} {i : Nat} {op o : UnaryOp} {c : RaNode} {done : List Nat}

/-- What stands below a projection has its parent there. -/
theorem getNodeParent_isSome
    (hn : n ∉ contextIds (L ++ .unary rightProjection (.projection pr) :: K)) {x : RaNode}
    (hid : x.id? = some n) :
    (getNodeParent n (.projection rightProjection pr (plug L x))).isSome = true := by
  have hL : n ∉ contextIds (L ++ [.unary rightProjection (.projection pr)]) := by
    simp only [contextIds_append, contextIds_cons, contextIds_nil, List.append_nil,
      List.mem_append, not_or] at hn ⊢
    exact ⟨hn.1, hn.2.1⟩
  have hplug : RaNode.projection rightProjection pr (plug L x) =
      plug (L ++ [.unary rightProjection (.projection pr)]) x := by
    rw [plug_append]
    rfl
  rw [hplug]
  cases L with
  | nil =>
    rw [List.nil_append] at hL ⊢
    rw [getNodeParent_plug_of_notMem hL hid]
    rfl
  | cons f L =>
    rw [List.cons_append] at hL ⊢
    rw [getNodeParent_plug_of_notMem hL hid]
    rfl

section

variable
  (hroot : t.root =
    plug (L ++ .unary rightProjection (.projection pr) :: K) (.join n dep d (.unary i op c)))
  (hn : n ∉ contextIds (L ++ .unary rightProjection (.projection pr) :: K))
  (htop : rightProjection ∉ contextIds K)
  (hmove : depJoinMove t.root n dep d (.unary i op c) =
    some (.replace (.unary i o (.join n dep d c))))

include hroot hn htop hmove

/-- `push_down_dep_join` where the dependent join goes below an operator. -/
theorem takes_pushDownDepJoin :
    Takes State.tree (pushDownDepJoin n rightProjection) t none
      { t with
        root := plug (.unary i o :: L ++ .unary rightProjection (.projection pr) :: K)
          (.join n dep d c) } := by
  have hid : (RaNode.join n dep d (.unary i op c)).id? = some n := rfl
  have hdep : find? n t.root = some (.join n dep d (.unary i op c)) := by
    rw [hroot, find?_plug_of_notMem hn hid]
  have hright : find? rightProjection t.root =
      some (.projection rightProjection pr (plug L (.join n dep d (.unary i op c)))) := by
    rw [hroot, plug_append]
    exact find?_plug_of_notMem htop rfl
  unfold pushDownDepJoin
  refine .bind (takes_getRoot t) (.bind (takes_orCrash t hright) ?_)
  refine .bind (takes_assert t (getNodeParent_isSome hn hid)) ?_
  rw [hdep]
  refine .bind (takes_orCrash t hmove) (.bind (takes_modifyRoot t ?_) (.pure _))
  rw [hroot, update_plug_of_notMem hn hid]
  rfl

/-- One round of the loop, in which the dependent join goes below an operator. -/
theorem takes_pushDownLoop_below {os : List Occurrence}
    (hfound : intersectCorrelatedAttributes t.root d (.unary i op c) = some os) (hos : os ≠ [])
    (hrest : Takes State.tree (pushDownLoop rightProjection fuel [n] [])
      { t with
        root := plug (.unary i o :: L ++ .unary rightProjection (.projection pr) :: K)
          (.join n dep d c) } done t') :
    Takes State.tree (pushDownLoop rightProjection (fuel + 1) [n] []) t done t' := by
  have hdep : find? n t.root = some (.join n dep d (.unary i op c)) := by
    rw [hroot]
    exact find?_plug_of_notMem hn rfl
  rw [pushDownLoop]
  refine .bind (takes_getRoot t) ?_
  rw [hdep]
  refine .bind (takes_orCrash t hfound) ?_
  rw [if_neg (by simpa using hos)]
  exact .bind (takes_pushDownDepJoin hroot hn htop hmove) hrest

end

/-- The rounds in which the dependent join reads nothing of D any more. -/
theorem takes_pushDownLoop_end {r : RaNode}
    (hroot : t.root = plug K (.join n dep d r)) (hn : n ∉ contextIds K)
    (hfound : intersectCorrelatedAttributes t.root d r = some []) :
    Takes State.tree (pushDownLoop rightProjection (fuel + 2) [n] []) t [n] t := by
  have hdep : find? n t.root = some (.join n dep d r) := by
    rw [hroot]
    exact find?_plug_of_notMem hn rfl
  rw [pushDownLoop]
  refine .bind (takes_getRoot t) ?_
  rw [hdep]
  exact .bind (takes_orCrash t hfound) (.pure _)

end

/-- The run finds attributes of D where it looks for them, and only there. -/
@[mk_iff]
structure FindsD (w : ScalarSubquery) : Prop where
  searched : (occurrences w).isSome = true
  columns : columns w ≠ []
  above : ∀ o ∈ correlated w, o.node = w.selection
  selection : ∃ os ∈ subtreeOccurrences (fun _ _ => none)
    (.selection w.selection (conditionD w) w.inner), ∃ o ∈ os, o.aliasName = "d"
  below : ∃ os ∈ subtreeOccurrences (fun _ _ => none) w.inner, ∀ o ∈ os, o.aliasName ≠ "d"
  relations : ∀ r ∈ getRelationsAliases w.inner, r.1 ≠ "d" ∧ r.2 ≠ "d"
  listed : findInExpression ["d"] (some 0) w.item = some []
  condition : (findInExpression ["d"] (some 0) (conditionD w)).isSome = true
  item : ∀ q ∈ references w.item, isOfD q = false
  inner : ∀ x ∈ nodes w.inner, ∀ q ∈ allReferences (readExprs x), isOfD q = false
  kept : ∀ x ∈ getAllSelections w.inner, LosesOnly [] x.2.1 ∧ conjuncts x.2.1 ≠ []

section

variable (w : ScalarSubquery) (K : List Frame) (subqueryAlias : String) (n : Nat)

/-- The operators around the subquery. -/
def outside : List Frame :=
  [.right w.join { type := .dependentInnerLeft, marker := w.marker } w.outer,
    .unary w.sel (.selection w.above)]

/-- The operators around the derived table. -/
def around (p : Expr) : List Frame :=
  [.right w.join { type := .crossProduct } w.outer, .unary w.sel (.selection p)] ++ K

/-- The subquery stands in one place, and two more addresses are new. -/
structure Apart : Prop where
  sel : w.sel ∉ contextIds K
  join : w.join ∉ w.sel :: contextIds K
  projection : w.projection ∉ contextIds (around w K .nullptr)
  groupBy : w.groupBy ∉ w.projection :: contextIds (around w K .nullptr)
  selection : w.selection ∉ w.groupBy :: w.projection :: contextIds (around w K .nullptr)
  new : ∀ i, n ≤ i →
    i ∉ w.selection :: w.groupBy :: w.projection :: (w.inner.ids ++ contextIds (around w K .nullptr))

theorem apart_of_addressed (h : Addressed n (plug K w.tree)) : Apart w K n where
  sel := h.distinct.not_mem_context (id?_mem_ids rfl)
  join := Distinct.not_mem_context (K := .unary w.sel (.selection w.above) :: K) h.distinct
    (id?_mem_ids rfl)
  projection := Distinct.not_mem_context (K := outside w ++ K) h.distinct (id?_mem_ids rfl)
  groupBy := Distinct.not_mem_context
    (K := .unary w.projection (.projection { args := [w.item] }) :: (outside w ++ K)) h.distinct
    (id?_mem_ids rfl)
  selection := Distinct.not_mem_context
    (K := .unary w.groupBy (.groupBy [] true) ::
      .unary w.projection (.projection { args := [w.item] }) :: (outside w ++ K)) h.distinct
    (id?_mem_ids rfl)
  new := by
    intro i hi hmem
    have hids : i ∈ (plug (.unary w.selection (.selection w.condition) ::
        .unary w.groupBy (.groupBy [] true) ::
        .unary w.projection (.projection { args := [w.item] }) :: (outside w ++ K)) w.inner).ids := by
      rw [mem_ids_plug]
      simp only [List.mem_cons, List.mem_append] at hmem
      simp only [contextIds_cons, Frame.ids, List.mem_append, List.mem_cons, List.not_mem_nil,
        or_false]
      tauto
    exact Nat.not_lt.mpr hi (h.fresh i hids)

variable {w K n} in
/-- D is nowhere else. -/
theorem Apart.d_notMem (h : Apart w K n) : n + 1 ∉ (n :: w.groupBy :: w.selection :: w.inner.ids) ++
    (w.projection :: contextIds (around w K .nullptr)) := by
  have hnew := h.new (n + 1) (Nat.le_succ n)
  simp only [List.mem_cons, List.mem_append, not_or] at hnew ⊢
  exact ⟨⟨by omega, hnew.2.1, hnew.1, hnew.2.2.2.1⟩, hnew.2.2.1, hnew.2.2.2.2⟩

/-- D with its columns. -/
def dWith (cs : List AttributeRef) : RaNode :=
  .projection (n + 1)
    { args := cs.map fun c => .attribute c.1 ""
      subqueryAlias := "d"
      subqueryColumns := cs.map Prod.fst }
    w.outer

/-- The projection of the derived table with the columns of D. -/
def tableWith (cs : List AttributeRef) : Projection where
  args := w.item :: cs.map fun c => .attribute c.1 "d"
  subqueryAlias := subqueryAlias
  subqueryColumns := tableColumnNames subqueryAlias cs

/-- The tree with the conditions `above` and `condition` in the Selections while D is set up. -/
def setUpWith (above condition : Expr) (cs dColumns : List AttributeRef) : RaNode :=
  plug (around w K above) <|
    .projection w.projection (tableWith w subqueryAlias cs) <|
      .join n dependent (dWith w n dColumns) <|
        .groupBy w.groupBy [] true (.selection w.selection condition w.inner)

/-- The tree before the columns are added, and after. -/
def openedTree : RaNode :=
  setUpWith w K subqueryAlias n (aboveWith w subqueryAlias) w.condition [] []

def setUpTree : RaNode :=
  setUpWith w K subqueryAlias n (decoupledTable w subqueryAlias).joined (conditionD w) (columns w)
    (columns w)

/-- What the run finds before it adds the columns. -/
def opened : Opened where
  above := .selection w.sel (aboveWith w subqueryAlias) <|
    .join w.join { type := .crossProduct } w.outer <|
      .projection w.projection (tableWith w subqueryAlias []) <|
        .join n dependent (dWith w n []) <|
          .groupBy w.groupBy [] true (.selection w.selection w.condition w.inner)
  dProjection := dWith w n []
  subtree := .selection w.selection w.condition w.inner
  correlated := correlated w

def derivedTable : DerivedTable where
  rightProjection := w.projection
  depJoin := n
  d := n + 1

/-- The search for the marker of the subquery ends in the Selection above it. -/
def FindsMarker : Prop :=
  (findMarkerParent w.marker (.attribute "m" subqueryAlias) (plug K w.tree)).result =
    .found w.sel (aboveWith w subqueryAlias)

variable {w K subqueryAlias n} {t : RaTree} (hroot : t.root = plug K w.tree) (hnext : t.nextId = n)
  (hapart : Apart w K n)

include hroot hapart in
theorem takes_replaceMarker (hmarker : FindsMarker w K subqueryAlias) :
    Takes State.tree (replaceMarker w.marker subqueryAlias) t ()
      { t with
        root := plug (.unary w.sel (.selection (aboveWith w subqueryAlias)) :: K)
          (.join w.join { type := .dependentInnerLeft, marker := w.marker } w.outer
            w.subquery) } := by
  unfold replaceMarker
  refine .bind (takes_getRoot t) (.bind (takes_logCasts t _) ?_)
  rw [hroot, hmarker]
  refine takes_modifyRoot t ?_
  rw [hroot]
  exact update_plug_of_notMem hapart.sel rfl _

include hapart in
/-- Steps 1 and 2 up to the attributes that refer to the outer side. -/
theorem takes_openDepJoin (hd : FindsD w)
    (hroot : t.root = plug (.unary w.sel (.selection (aboveWith w subqueryAlias)) :: K)
      (.join w.join { type := .dependentInnerLeft, marker := w.marker } w.outer w.subquery)) :
    Takes State.tree
      (openDepJoin w.join subqueryAlias n (n + 1)
        (.groupBy w.groupBy [] true (.selection w.selection w.condition w.inner)))
      t (opened w subqueryAlias n) { t with root := openedTree w K subqueryAlias n } := by
  have hid : (RaNode.join w.join { type := .crossProduct } w.outer <|
      .projection w.projection (tableWith w subqueryAlias []) <|
        .join n dependent (dWith w n []) <|
          .groupBy w.groupBy [] true (.selection w.selection w.condition w.inner)).id? =
      some w.join := rfl
  have hopen : update w.join (openSubquery subqueryAlias n (n + 1)) t.root =
      openedTree w K subqueryAlias n := by
    rw [hroot]
    exact update_plug_of_notMem hapart.join rfl _
  have hparent : getNodeParent w.join (openedTree w K subqueryAlias n) =
      some ((opened w subqueryAlias n).above, 0) := getNodeParent_plug_of_notMem hapart.join hid
  have hfind : find? (n + 1) (openedTree w K subqueryAlias n) = some (dWith w n []) :=
    find?_plug_of_notMem (K := .left n dependent (.groupBy w.groupBy [] true
      (.selection w.selection w.condition w.inner)) :: .unary w.projection
      (.projection (tableWith w subqueryAlias [])) :: around w K (aboveWith w subqueryAlias))
      hapart.d_notMem rfl
  obtain ⟨os, hos⟩ := Option.isSome_iff_exists.mp hd.searched
  have hcorrelated : intersectCorrelatedAttributes (openedTree w K subqueryAlias n) (dWith w n [])
      (.selection w.selection w.condition w.inner) = some (correlated w) := by
    rw [intersectCorrelatedAttributes_of_none hos, correlated, hos]
    rfl
  unfold openDepJoin
  refine .bind (takes_modifyRoot t hopen) ?_
  have habove : Takes State.tree (selectionAbove w.join)
      { t with root := openedTree w K subqueryAlias n } (opened w subqueryAlias n).above
      { t with root := openedTree w K subqueryAlias n } := by
    unfold selectionAbove
    exact .bind (takes_getRoot _) (.bind (takes_orCrash _ hparent) (.pure _))
  refine .bind habove (.bind (takes_orCrash _ rfl) (.bind (takes_getRoot _) ?_))
  refine .bind (takes_orCrash _ hfind) (.bind (takes_orCrash _ hcorrelated) ?_)
  exact .pure _

include hroot hnext hapart in
theorem takes_openTable (hfull : w.outer.isHole = false) (hd : FindsD w)
    (hmarker : FindsMarker w K subqueryAlias) :
    Takes State.tree (openTable w.marker w.join subqueryAlias) t
      (derivedTable w n, opened w subqueryAlias n)
      { t with root := openedTree w K subqueryAlias n, nextId := n + 2 } := by
  unfold openTable
  refine .bind (takes_replaceMarker hroot hapart hmarker) (.get fun s hs => ?_)
  have hfind : findObject s.tree w.join =
      some (.join w.join { type := .dependentInnerLeft, marker := w.marker } w.outer
        (.projection w.projection { args := [w.item] }
          (.groupBy w.groupBy [] true (.selection w.selection w.condition w.inner)))) := by
    rw [hs, findObject, find?_plug_of_notMem hapart.join rfl]
    rfl
  rw [hfind]
  refine .bind (takes_assert _ ⟨rfl, hfull, rfl⟩) (.bind (takes_newNode _) ?_)
  refine .bind (takes_newNode _) (.bind (takes_logName _ _) ?_)
  rw [← hnext]
  refine .bind (takes_openDepJoin (hnext ▸ hapart) hd rfl) (.pure _)

/-- One condition after the other goes into the Selection above the join. -/
theorem takes_addColumnPredicates (hsel : w.sel ∉ contextIds K) (cs : List AttributeRef)
    {x y : RaNode} {p q : Expr} (hroot : t.root = plug (around w K p) x) :
    Takes State.tree (addColumnPredicates subqueryAlias cs (.selection w.sel q y)) t ()
      { t with
        root := plug (around w K
          (cs.foldl (fun p c => addPredicate p (columnPredicate subqueryAlias c)) p)) x } := by
  have hloop : addColumnPredicates subqueryAlias cs (.selection w.sel q y) = cs.forM fun c =>
      modifyRoot (update w.sel (addPredicateToSelection (columnPredicate subqueryAlias c))) := by
    cases cs <;> rfl
  rw [hloop]
  clear hloop
  induction cs generalizing t p with
  | nil =>
    rw [List.foldl_nil, ← hroot]
    exact .pure _
  | cons c cs ih =>
    have hfirst : update w.sel (addPredicateToSelection (columnPredicate subqueryAlias c)) t.root =
        plug (around w K (addPredicate p (columnPredicate subqueryAlias c))) x := by
      rw [hroot]
      exact update_plug_of_notMem (K := K) hsel rfl _
    exact .bind (takes_modifyRoot t hfirst) (ih rfl)

/-- The attributes of the condition are changed in the Selection of the subquery. -/
theorem update_selection (hapart : Apart w K n) (f : String → String → String × String)
    (above condition : Expr) (cs dColumns : List AttributeRef) :
    update w.selection (mapNodeAttributes f)
        (setUpWith w K subqueryAlias n above condition cs dColumns) =
      setUpWith w K subqueryAlias n above (mapPredicateAttributes f condition) cs dColumns := by
  have hnot : w.selection ∉ contextIds (.unary w.groupBy (.groupBy [] true) ::
      .right n dependent (dWith w n dColumns) ::
      .unary w.projection (.projection (tableWith w subqueryAlias cs)) :: around w K above) := by
    have hs := hapart.selection
    have hn := hapart.new n le_rfl
    have hd := hapart.d_notMem
    simp only [List.mem_cons, List.mem_append, not_or, contextIds_cons, Frame.ids, dWith,
      RaNode.ids, around, contextIds_append, contextIds_nil, List.not_mem_nil, or_false]
      at hs hn hd ⊢
    tauto
  exact update_plug_of_notMem hnot rfl _

theorem updateAll_selection (hapart : Apart w K n) {f : String → String → String × String}
    {above condition : Expr} {cs dColumns : List AttributeRef} (hset : Settled f
      (mapPredicateAttributes f condition)) {is : List Nat} (hne : is ≠ [])
    (his : ∀ i ∈ is, i = w.selection) :
    updateAll (mapNodeAttributes f) is
        (setUpWith w K subqueryAlias n above condition cs dColumns) =
      setUpWith w K subqueryAlias n above (mapPredicateAttributes f condition) cs dColumns := by
  have hrest (is : List Nat) (his : ∀ i ∈ is, i = w.selection) :
      updateAll (mapNodeAttributes f) is (setUpWith w K subqueryAlias n above
        (mapPredicateAttributes f condition) cs dColumns) =
      setUpWith w K subqueryAlias n above (mapPredicateAttributes f condition) cs dColumns := by
    induction is with
    | nil => rfl
    | cons i is ih =>
      rw [List.forall_mem_cons] at his
      rw [updateAll, List.foldl_cons, his.1, update_selection hapart,
        mapPredicateAttributes_settled hset]
      exact ih his.2
  cases is with
  | nil => exact absurd rfl hne
  | cons i is =>
    rw [List.forall_mem_cons] at his
    rw [updateAll, List.foldl_cons, his.1, update_selection hapart]
    exact hrest is his.2

include hapart in
/-- The rest of steps 1 and 2. -/
theorem takes_addColumns (h : Settled (toD w) (conditionD w)) (hd : FindsD w)
    (hroot : t.root = openedTree w K subqueryAlias n) :
    Takes State.tree (addColumns subqueryAlias (derivedTable w n) (opened w subqueryAlias n)) t ()
      { t with root := setUpTree w K subqueryAlias n } := by
  have hcolumns : (opened w subqueryAlias n).columns = columns w := rfl
  unfold addColumns
  rw [hcolumns]
  have hright : update w.projection (addColumnsToRight subqueryAlias (columns w)) t.root =
      setUpWith w K subqueryAlias n (aboveWith w subqueryAlias) w.condition (columns w) [] := by
    rw [hroot]
    exact update_plug_of_notMem (K := around w K (aboveWith w subqueryAlias)) hapart.projection
      rfl _
  refine .bind (takes_modifyRoot t hright) ?_
  have hleft : update (n + 1) (addColumnsToD (columns w))
        (setUpWith w K subqueryAlias n (aboveWith w subqueryAlias) w.condition (columns w) []) =
      setUpWith w K subqueryAlias n (aboveWith w subqueryAlias) w.condition (columns w)
        (columns w) :=
    update_plug_of_notMem (K := .left n dependent (.groupBy w.groupBy [] true
      (.selection w.selection w.condition w.inner)) :: .unary w.projection
      (.projection (tableWith w subqueryAlias (columns w))) ::
      around w K (aboveWith w subqueryAlias)) hapart.d_notMem rfl _
  refine .bind (takes_modifyRoot _ hleft) ?_
  refine .bind (takes_addColumnPredicates hapart.sel _ rfl) ?_
  have hjoined : (columns w).foldl
      (fun p c => addPredicate p (columnPredicate subqueryAlias c)) (aboveWith w subqueryAlias) =
      (decoupledTable w subqueryAlias).joined := by
    rw [GroupedTable.joined, decoupledTable, List.foldl_map]
  rw [hjoined]
  refine takes_modifyRoot _ ?_
  have hne : (correlated w).map Occurrence.node ≠ [] := by
    rw [ne_eq, List.map_eq_nil_iff]
    intro hnil
    refine hd.columns ?_
    rw [columns, hnil]
    rfl
  exact updateAll_selection hapart h hne (List.forall_mem_map.mpr hd.above)

end

section

variable (w : ScalarSubquery) (K : List Frame) (subqueryAlias : String) (n : Nat)

/-- The columns of D where the derived table uses them. -/
def columnsOfD : List Expr := (columns w).map fun c => .attribute c.1 "d"

/-- The operators between the projection of the derived table and D. -/
def overD : List Frame :=
  [.unary w.selection (.selection (conditionD w)), .unary w.groupBy (.groupBy (columnsOfD w) false)]

/-- The derived table around the dependent join, with the projection and all that is around it. -/
def tableFrames : List Frame :=
  .unary w.projection (.projection (tableWith w subqueryAlias (columns w))) ::
    around w K (decoupledTable w subqueryAlias).joined

/-- The tree in which the dependent join has gone below the operators of the derived table. -/
def pushedTree : RaNode :=
  plug (overD w ++ tableFrames w K subqueryAlias)
    (.join n dependent (dWith w n (columns w)) w.inner)

variable {w K subqueryAlias n} {t : RaTree}

theorem isD_dWith (hd : FindsD w) : IsD (dWith w n (columns w)) := by
  refine ⟨_, _, _, rfl, rfl, ?_⟩
  simpa using hd.columns

/-- What is found below D. -/
theorem intersectCorrelatedAttributes_dWith (hd : FindsD w) {x : RaNode} {os : List Occurrence}
    (hos : subtreeOccurrences (fun _ _ => none) x = some os)
    (hx : getRelationsAliases x = getRelationsAliases w.inner) (root : RaNode) :
    intersectCorrelatedAttributes root (dWith w n (columns w)) x =
      some (os.filter fun o => o.aliasName = "d") := by
  rw [intersectCorrelatedAttributes_of_none hos]
  refine congrArg some (List.filter_congr fun o _ => ?_)
  rw [Bool.eq_iff_iff, (isD_dWith hd).isCorrelated (hx ▸ hd.relations), decide_eq_true_iff]

/-- The dependent join is nowhere else. -/
theorem Apart.n_notMem (h : Apart w K n) (L : List Frame)
    (hL : ∀ i ∈ contextIds L, i = w.selection ∨ i = w.groupBy) :
    n ∉ contextIds (L ++ tableFrames w K subqueryAlias) := by
  have hnew := h.new n le_rfl
  rw [contextIds_append, List.mem_append, not_or]
  refine ⟨fun hmem => ?_, fun hmem => hnew ?_⟩
  · rcases hL n hmem with heq | heq
    · exact hnew (by simp [heq])
    · exact hnew (by simp [heq])
  · have htable : n ∈ w.projection :: contextIds (around w K .nullptr) := hmem
    simp only [List.mem_cons, List.mem_append] at htable ⊢
    tauto

/-- The loop of step 3. -/
theorem takes_pushDownLoop (hapart : Apart w K n) (hd : FindsD w) (hinner : w.inner.isHole = false)
    (hroot : t.root = setUpTree w K subqueryAlias n) (fuel : Nat) :
    Takes State.tree (pushDownLoop w.projection (fuel + 4) [n] []) t [n]
      { t with root := pushedTree w K subqueryAlias n } := by
  obtain ⟨os, hos, o, ho, halias⟩ := hd.selection
  obtain ⟨below, hbelow, hnone⟩ := hd.below
  have hne : os.filter (fun o => o.aliasName = "d") ≠ [] :=
    List.ne_nil_of_mem (List.mem_filter.mpr ⟨ho, decide_eq_true halias⟩)
  have hnil : below.filter (fun o => o.aliasName = "d") = [] :=
    List.filter_eq_nil_iff.mpr fun o ho => by simpa using hnone o ho
  have hgrouped : subtreeOccurrences (fun _ _ => none)
      (.groupBy w.groupBy [] true (.selection w.selection (conditionD w) w.inner)) = some os := by
    rw [RaNode.groupBy, subtreeOccurrences, hos]
    rfl
  have hkeys : groupByD ((columns w).map Prod.fst) [] = columnsOfD w := by
    rw [groupByD, columnsOfD, List.map_map]
    rfl
  refine takes_pushDownLoop_below (L := [])
    (K := around w K (decoupledTable w subqueryAlias).joined)
    (o := .groupBy (columnsOfD w) false) hroot (hapart.n_notMem [] (by simp)) hapart.projection
    (hkeys ▸ rfl) (intersectCorrelatedAttributes_dWith hd hgrouped rfl _) hne ?_
  refine takes_pushDownLoop_below (L := [.unary w.groupBy (.groupBy (columnsOfD w) false)])
    (K := around w K (decoupledTable w subqueryAlias).joined) (o := .selection (conditionD w)) rfl
    (hapart.n_notMem _ (by simp [Frame.ids])) hapart.projection (if_neg (by simp [hinner]))
    (intersectCorrelatedAttributes_dWith hd hos rfl _) hne ?_
  refine takes_pushDownLoop_end (K := overD w ++ tableFrames w K subqueryAlias) rfl
    (hapart.n_notMem _ (by simp [overD, Frame.ids])) ?_
  rw [intersectCorrelatedAttributes_dWith hd hbelow rfl, hnil]

/-- The attributes of D that are used above the dependent join. -/
theorem findAttributesUsingAlias_usedOfD (hd : FindsD w) (hapart : Apart w K n) (j : Join) :
    findAttributesUsingAlias ["d"] (some n) false
      (.projection w.projection (tableWith w subqueryAlias (columns w))
        (plug (overD w) (.join n j (dWith w n (columns w)) w.inner))) = some (usedOfD w) := by
  have hnew := hapart.new n le_rfl
  simp only [List.mem_cons, not_or] at hnew
  obtain ⟨used, hused⟩ := Option.isSome_iff_exists.mp hd.condition
  have hitem : findInExpression ["d"] (some n) w.item = some [] := by
    rw [findInExpression_stop ["d"] n 0, hd.listed]
  have hcondition : findInExpressions ["d"] (some n) [conditionD w] = some used := by
    rw [findInExpressions, findInExpression_stop ["d"] n 0, hused]
    simp [findInExpressions]
  have hargs : findInExpressions ["d"] (some n) (tableWith w subqueryAlias (columns w)).args =
      some ((columns w).map ofD) := by
    rw [tableWith, findInExpressions, hitem, findInExpressions_ofD]
    rfl
  have hgrouped : findInExpressions ["d"] (some n) (columnsOfD w) = some ((columns w).map ofD) :=
    findInExpressions_ofD n (columns w)
  simp only [overD, plug_cons, plug_nil, Frame.plug, findAttributesUsingAlias, hargs, hgrouped,
    hcondition, Option.some.injEq, Ne.symm hnew.1, Ne.symm hnew.2.1, Ne.symm hnew.2.2.1]
  simp [usedOfD, hused]

variable {V : Type} {db : Database V}

/-- The nodes of the derived table above the dependent join. -/
theorem ancestors_overD (hapart : Apart w K n) (pr : Projection) (j : Join) (d r : RaNode) :
    ancestors n (.projection w.projection pr (plug (overD w) (.join n j d r))) =
      some [.selection w.selection (conditionD w) (.join n j d r),
        .groupBy w.groupBy (columnsOfD w) false
          (.selection w.selection (conditionD w) (.join n j d r)),
        .projection w.projection pr (plug (overD w) (.join n j d r))] := by
  have hnew := hapart.new n le_rfl
  simp only [List.mem_cons, not_or] at hnew
  simp [overD, Frame.plug, ancestors, RaNode.id?, Ne.symm hnew.1, Ne.symm hnew.2.1]

theorem conditionD_isPresent (h : Decouples db w subqueryAlias) (hd : FindsD w) :
    (conditionD w).isPresent = true := by
  obtain ⟨c, hc⟩ := List.exists_mem_of_ne_nil _ hd.columns
  have hfound := counterpart_conditionD h hc
  generalize conditionD w = p at hfound
  cases p with
  | nullptr => cases hfound
  | _ => rfl

/-- Step 4 can drop the dependent join. -/
theorem canDecouple_renames (h : Decouples db w subqueryAlias) (hd : FindsD w)
    (hapart : Apart w K n) {j : Join} (hj : j.predicate.isPresent = false) :
    canDecouple n
      (.projection w.projection (tableWith w subqueryAlias (columns w))
        (plug (overD w) (.join n j (dWith w n (columns w)) w.inner))) [] =
      some (true, renames w) := by
  have hfind : find? n (.projection w.projection (tableWith w subqueryAlias (columns w))
      (plug (overD w) (.join n j (dWith w n (columns w)) w.inner))) =
      some (.join n j (dWith w n (columns w)) w.inner) := by
    have hnew := hapart.new n le_rfl
    simp only [List.mem_cons, not_or] at hnew
    simp [overD, Frame.plug, find?, Ne.symm hnew.1, Ne.symm hnew.2.1, Ne.symm hnew.2.2.1]
  rw [canDecouple, ancestors_overD hapart, Option.bind_some, hfind, Option.bind_some,
    findAttributesUsingAlias_usedOfD hd hapart, Option.map_some]
  have hpredicates : ((.join n j (dWith w n (columns w)) w.inner :: upToProjection
      [.selection w.selection (conditionD w) (.join n j (dWith w n (columns w)) w.inner),
        .groupBy w.groupBy (columnsOfD w) false (.selection w.selection (conditionD w)
          (.join n j (dWith w n (columns w)) w.inner)),
        .projection w.projection (tableWith w subqueryAlias (columns w))
          (plug (overD w) (.join n j (dWith w n (columns w)) w.inner))]).filterMap
            predicateOf).filter Expr.isPresent = [conditionD w] := by
    simp [upToProjection, predicateOf, hj, conditionD_isPresent h hd]
  rw [hpredicates, findEquivalents_renames h]

/-- The derived table without the dependent join, around a tree. -/
def droppedTable (w : ScalarSubquery) (subqueryAlias : String) (x : RaNode) : RaNode :=
  .projection w.projection ((decoupledTable w subqueryAlias).projection w.item) <|
    .groupBy w.groupBy ((decoupledTable w subqueryAlias).columns.map fun c => attributeExpr c.2)
      false x

/-- The attributes of D are replaced in the derived table. -/
theorem renameTree_overD (h : Decouples db w subqueryAlias) (hd : FindsD w) :
    renameTree (renames w)
        (.projection w.projection (tableWith w subqueryAlias (columns w))
          (plug (overD w) w.inner)) =
      droppedTable w subqueryAlias (.selection w.selection (renamedCondition w) w.inner) := by
  have hm := renamesD h
  have hcolumns : renameExpressions (renames w) (columnsOfD w) =
      (decoupledTable w subqueryAlias).columns.map fun c => attributeExpr c.2 := by
    rw [columnsOfD, decoupledTable, List.map_map]
    induction columns w with
    | nil => rfl
    | cons c cs ih =>
      rw [List.map_cons, renameExpressions, ih]
      rfl
  have hargs : renameExpressions (renames w) (tableWith w subqueryAlias (columns w)).args =
      ((decoupledTable w subqueryAlias).projection w.item).args := by
    rw [tableWith, renameExpressions, renameExpression_eq_self hm hd.item]
    exact congrArg _ hcolumns
  have hnames : (decoupledTable w subqueryAlias).columnNames =
      tableColumnNames subqueryAlias (columns w) := by
    rw [GroupedTable.columnNames, decoupledTable, List.map_map]
    exact congrArg _ (List.map_id _)
  simp only [overD, plug_cons, plug_nil, Frame.plug, RaNode.projection, renameTree,
    renameTree_eq_self hm hd.inner, hargs, hcolumns]
  rw [droppedTable, GroupedTable.projection, hnames]
  rfl

/-- The operators of the subquery may be exchanged. -/
theorem distinct_table (h : Addressed n (plug K w.tree)) (p : Expr) (op op' op'' : UnaryOp) :
    Distinct (plug (.unary w.selection op :: .unary w.groupBy op' :: .unary w.projection op'' ::
      around w K p) w.inner) := by
  have hplug : plug K w.tree = plug (.unary w.selection (.selection w.condition) ::
      .unary w.groupBy (.groupBy [] true) ::
      .unary w.projection (.projection { args := [w.item] }) :: (outside w ++ K)) w.inner := rfl
  have hd := h.distinct
  rw [hplug, distinct_plug] at hd
  exact distinct_plug.mpr hd

theorem distinct_below {f : Frame} {L : List Frame} {x : RaNode} (h : Distinct (plug (f :: L) x)) :
    Distinct (plug L x) := by
  rw [distinct_plug, contextIds_cons] at h
  obtain ⟨hL, hx, hdisj⟩ := h
  exact distinct_plug.mpr ⟨(List.nodup_append'.mp hL).2.1, hx,
    fun i hi => hdisj (List.mem_append_right _ hi)⟩

/-- The Selections of the derived table lose what compares an attribute with itself. -/
theorem takes_removeRedundant (h : Decouples db w subqueryAlias) (hd : FindsD w)
    (haddressed : Addressed n (plug K w.tree)) (hinner : w.inner.isHole = false) {p : Expr}
    (hroot : t.root = plug (around w K p) (droppedTable w subqueryAlias
      (.selection w.selection (renamedCondition w) w.inner))) :
    Takes State.tree
      ((getAllSelections (droppedTable w subqueryAlias
          (.selection w.selection (renamedCondition w) w.inner))).forM fun s => do
        let root ← orCrash (removeRedundantIn s.1 (← getRoot))
        modifyRoot fun _ => root) t ()
      { t with
        root := plug (around w K p) (droppedTable w subqueryAlias
          (filtered w.selection (decoupledTable w subqueryAlias).condition w.inner)) } := by
  have hdistinct := distinct_table haddressed p (.selection (renamedCondition w))
    (.groupBy ((decoupledTable w subqueryAlias).columns.map fun c => attributeExpr c.2) false)
    (.projection ((decoupledTable w subqueryAlias).projection w.item))
  have hfirst : removeRedundantIn w.selection t.root = some (plug (around w K p)
      (droppedTable w subqueryAlias
        (filtered w.selection (decoupledTable w subqueryAlias).condition w.inner))) := by
    rw [hroot]
    exact removeRedundantIn_filtered hdistinct hinner h.loses
  refine .bind (.bind (takes_getRoot t)
    (.bind (takes_orCrash t hfirst) (takes_modifyRoot t rfl))) ?_
  refine .forM fun s hs => ?_
  have hsame : removeRedundantIn s.1 (plug (around w K p) (droppedTable w subqueryAlias
      (filtered w.selection (decoupledTable w subqueryAlias).condition w.inner))) =
      some (plug (around w K p) (droppedTable w subqueryAlias
      (filtered w.selection (decoupledTable w subqueryAlias).condition w.inner))) := by
    obtain ⟨hloses, hne⟩ := hd.kept s hs
    have hkept (L : List Frame) (hL : Distinct (plug L w.inner)) :
        removeRedundantIn s.1 (plug L w.inner) = some (plug L w.inner) :=
      removeRedundantIn_untouched hL (mem_nodes_plug L (mem_nodes_of_getAllSelections hs)) hloses
        hne
    rw [filtered]
    split
    · have hrun := hkept _ (distinct_table haddressed p
        (.selection (decoupledTable w subqueryAlias).condition)
        (.groupBy ((decoupledTable w subqueryAlias).columns.map fun c => attributeExpr c.2) false)
        (.projection ((decoupledTable w subqueryAlias).projection w.item)))
      exact hrun
    · have hrun := hkept _ (distinct_below hdistinct)
      exact hrun
  exact .bind (takes_getRoot _) (.bind (takes_orCrash _ hsame) (takes_modifyRoot _ rfl))

/-- Step 4 at a dependent join that can be dropped. -/
theorem takes_dropDepJoin (h : Decouples db w subqueryAlias) (hd : FindsD w)
    (haddressed : Addressed n (plug K w.tree)) (hinner : w.inner.Full) {j : Join} {d : RaNode}
    (hroot : t.root = plug (overD w ++ tableFrames w K subqueryAlias) (.join n j d w.inner)) :
    Takes State.tree (dropDepJoin n w.projection (renames w)) t ()
      { t with root := plug K (w.grouped (decoupledTable w subqueryAlias)) } := by
  have hapart := apart_of_addressed w K n haddressed
  have hdrop : update n keepRight t.root =
      plug (overD w ++ tableFrames w K subqueryAlias) w.inner := by
    rw [hroot]
    exact update_plug_of_notMem (hapart.n_notMem _ (by simp [overD, Frame.ids])) rfl _
  have hfind (pr : Projection) (x : RaNode) : find? w.projection
      (plug (around w K (decoupledTable w subqueryAlias).joined) (.projection w.projection pr x)) =
      some (.projection w.projection pr x) :=
    find?_plug_of_notMem (K := around w K (decoupledTable w subqueryAlias).joined)
      hapart.projection rfl
  obtain ⟨is, his, hrenamed⟩ := updateAll_renameVisits (m := renames w)
    (x := .projection w.projection (tableWith w subqueryAlias (columns w)) (plug (overD w) w.inner))
    hinner (around w K (decoupledTable w subqueryAlias).joined)
    (distinct_table haddressed _ _ _ _)
  rw [renameTree_overD h hd] at hrenamed
  have hrun : renameAttributes (renames w) none
      (.projection w.projection (tableWith w subqueryAlias (columns w)) (plug (overD w) w.inner))
      (plug (overD w ++ tableFrames w K subqueryAlias) w.inner) =
      some (plug (around w K (decoupledTable w subqueryAlias).joined) (droppedTable w subqueryAlias
        (.selection w.selection (renamedCondition w) w.inner))) := by
    rw [renameAttributes, his]
    exact congrArg some hrenamed
  unfold dropDepJoin
  refine .bind (takes_modifyRoot t hdrop) (.bind (takes_getRoot _) ?_)
  refine .bind (takes_orCrash _ (hfind _ _)) (.bind (takes_orCrash _ hrun) ?_)
  refine .bind (takes_modifyRoot _ rfl) (.bind (takes_orCrash _ (hfind _ _)) ?_)
  exact takes_removeRedundant h hd haddressed (RaNode.isHole_of_full hinner) rfl

/-- Steps 4 and 5 at the one dependent join. -/
theorem takes_decoupleDepJoin (h : Decouples db w subqueryAlias) (hd : FindsD w)
    (haddressed : Addressed n (plug K w.tree)) (hinner : w.inner.Full)
    (hroot : t.root = pushedTree w K subqueryAlias n) :
    Takes State.tree (decoupleDepJoin w.join (n + 1) w.projection (false, []) n) t
      (false, renames w)
      { t with root := plug K (w.grouped (decoupledTable w subqueryAlias)) } := by
  have hapart := apart_of_addressed w K n haddressed
  have htype : update n (setJoinType .crossProduct) t.root =
      plug (overD w ++ tableFrames w K subqueryAlias)
        (.join n { type := .crossProduct } (dWith w n (columns w)) w.inner) := by
    rw [hroot, pushedTree]
    exact update_plug_of_notMem (hapart.n_notMem _ (by simp [overD, Frame.ids])) rfl _
  have hfind : find? w.projection (plug (overD w ++ tableFrames w K subqueryAlias)
      (.join n { type := .crossProduct } (dWith w n (columns w)) w.inner)) =
      some (.projection w.projection (tableWith w subqueryAlias (columns w)) (plug (overD w)
        (.join n { type := .crossProduct } (dWith w n (columns w)) w.inner))) :=
    find?_plug_of_notMem (K := around w K (decoupledTable w subqueryAlias).joined)
      hapart.projection rfl
  unfold decoupleDepJoin
  refine .bind (takes_modifyRoot t htype) (.bind (takes_getRoot _) ?_)
  refine .bind (takes_orCrash _ hfind) (.bind (takes_orCrash _ (ancestors_overD hapart _ _ _ _)) ?_)
  refine .bind (takes_orCrash _ rfl) (.bind (takes_orCrash _ rfl) ?_)
  refine .bind (takes_orCrash _ (canDecouple_renames h hd hapart rfl)) ?_
  exact .bind (takes_dropDepJoin h hd haddressed hinner rfl) (.pure _)

/-- `decorrelate_subquery` on a scalar subquery that can be decoupled puts the derived table in its
place. -/
theorem takes_decorrelateSubquery (hroot : t.root = plug K w.tree)
    (haddressed : Addressed t.nextId (plug K w.tree)) (hfull : w.tree.Full)
    (h : Decouples db w (numbered "t" t.counter)) (hd : FindsD w)
    (hmarker : FindsMarker w K (numbered "t" t.counter)) (fuel : Nat) :
    Takes State.tree (decorrelateSubquery (fuel + 4) w.marker w.join) t ()
      { t with
        root := plug K (w.grouped (decoupledTable w (numbered "t" t.counter)))
        counter := t.counter + 1
        nextId := t.nextId + 2 } := by
  have hapart := apart_of_addressed w K t.nextId haddressed
  have hsettled : Settled (toD w) (conditionD w) := by
    intro n a hmem
    have hnot : refersOut w n a = false := h.settled _ hmem
    rw [toD, hnot, if_neg Bool.false_ne_true]
  obtain ⟨houter, hinner⟩ : w.outer.Full ∧ w.inner.Full := hfull
  have htable : Takes State.tree
      (setUpTable w.marker w.join (numbered "t" t.counter))
      { t with counter := t.counter + 1 } (derivedTable w t.nextId)
      { t with
        root := setUpTree w K (numbered "t" t.counter) t.nextId
        counter := t.counter + 1
        nextId := t.nextId + 2 } := by
    unfold setUpTable
    refine .bind (takes_openTable hroot rfl hapart (RaNode.isHole_of_full houter) hd hmarker) ?_
    exact .bind (takes_addColumns hapart hsettled hd rfl) (.pure _)
  unfold decorrelateSubquery replaceSubquery
  refine .bind (takes_newName t "t") (.bind htable ?_)
  refine .bind (takes_pushDownLoop hapart hd (RaNode.isHole_of_full hinner) rfl fuel) ?_
  have hround := takes_decoupleDepJoin
    (t := { t with
      root := pushedTree w K (numbered "t" t.counter) t.nextId
      counter := t.counter + 1
      nextId := t.nextId + 2 }) h hd haddressed hinner rfl
  exact .bind (.bind hround (.pure _)) (.pure ())

end

end SqlOptimizer.Unnesting.DecoupledRun
