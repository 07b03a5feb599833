import SqlOptimizer.Unnesting.DecoupledRun
import SqlOptimizer.Unnesting.OptimizedRows

/-!
The rows of a query under `general_query_unnesting` and under the whole of `optimize`. A correlated
scalar subquery that can be decoupled becomes a derived table, and the query has the same rows.
-/

set_option autoImplicit false
set_option relaxedAutoImplicit false

namespace SqlOptimizer.Unnesting.UnnestedRows

open Algebra.RelationalAlgebra
open Tree.Addresses Tree.Frames Tree.Nodes Tree.PushDownRun
open Logic.NumberedNames Logic.ThreeValued Logic.Triples
open Parse.PgQuery Parse.Builder Parse.ParseSqlToRa Parse.Supported
open Semantics.Evaluation Semantics.References Semantics.ExchangedRows
open Objects Attributes Markers ExistsIn DecorrelateSubquery Passes CteOrder ProbeTruth
open ChangedConditions GroupedSubquery DecoupledTable DecoupledRun
open ClosedCtes (wellFormed_ofParser)
open QueryRows ExistsRows OptimizedRows

section

variable {V : Type}

instance (m : Nat) (p : Expr) : Decidable (ComparesOnly m p) :=
  inferInstanceAs (Decidable (∀ e ∈ CorrelationAgreement.conjuncts p,
    comparesMarker m e = true ∨ .marker m ∉ references e))

instance (db : Database V) (w : ScalarSubquery) (subqueryAlias : String) :
    Decidable (Decouples db w subqueryAlias) :=
  decidable_of_iff _ (decouples_iff db w subqueryAlias).symm

instance (w : ScalarSubquery) : Decidable (FindsD w) := decidable_of_iff _ (findsD_iff w).symm

end

/-- The position of the node with the given address, and the node. -/
def locate (i : Nat) : RaNode → Option (List Frame × RaNode)
  | .hole => none
  | .leaf j op => if j = i then some ([], .leaf j op) else none
  | .unary j op c =>
      if j = i then some ([], .unary j op c)
      else (locate i c).map fun q => (q.1 ++ [.unary j op], q.2)
  | .join j join l r =>
      if j = i then some ([], .join j join l r)
      else ((locate i l).map fun q => (q.1 ++ [.left j join r], q.2)).or
        ((locate i r).map fun q => (q.1 ++ [.right j join l], q.2))

theorem plug_locate {i : Nat} {t : RaNode} {q : List Frame × RaNode} (h : locate i t = some q) :
    plug q.1 q.2 = t := by
  induction t generalizing q with
  | hole => cases h
  | leaf j op =>
    rw [locate] at h
    split at h
    · cases h
      rfl
    · cases h
  | unary j op c ih =>
    rw [locate] at h
    split at h
    · cases h
      rfl
    · obtain ⟨q', hq, rfl⟩ := Option.map_eq_some_iff.mp h
      simp [ih hq, Frame.plug]
  | join j join l r ihl ihr =>
    rw [locate] at h
    split at h
    · cases h
      rfl
    · rcases Option.or_eq_some_iff.mp h with h | ⟨-, h⟩
      · obtain ⟨q', hq, rfl⟩ := Option.map_eq_some_iff.mp h
        simp [ihl hq, Frame.plug]
      · obtain ⟨q', hq, rfl⟩ := Option.map_eq_some_iff.mp h
        simp [ihr hq, Frame.plug]

/-- A correlated scalar subquery with one item and one Selection, and the Selection above it. -/
def scalarSubquery : RaNode → Option ScalarSubquery
  | .selection sel above
      (.join join ⟨.dependentInnerLeft, .nullptr, "", [], marker⟩ outer
        (.projection projection ⟨[item], "", [], false⟩
          (.groupBy groupBy [] true (.selection selection condition inner)))) =>
      some ⟨sel, above, join, marker, outer, projection, item, groupBy, selection, condition, inner⟩
  | _ => none

theorem tree_scalarSubquery {t : RaNode} {w : ScalarSubquery} (h : scalarSubquery t = some w) :
    w.tree = t := by
  unfold scalarSubquery at h
  split at h
  · cases h
    rfl
  · cases h

/-- The scalar subquery at a join, and what is around it. -/
def subqueryAt (join : Nat) (root : RaNode) : Option (List Frame × ScalarSubquery) :=
  match locate join root with
  | some (f :: K, x) => (scalarSubquery (f.plug x)).map (K, ·)
  | _ => none

theorem plug_subqueryAt {join : Nat} {root : RaNode} {q : List Frame × ScalarSubquery}
    (h : subqueryAt join root = some q) : plug q.1 q.2.tree = root := by
  unfold subqueryAt at h
  split at h
  · next f K x hlocate =>
    obtain ⟨w, hw, rfl⟩ := Option.map_eq_some_iff.mp h
    rw [tree_scalarSubquery hw]
    exact plug_locate hlocate
  · cases h

/-- The search ends in this Selection. -/
def endsIn (sel : Nat) : SearchResult → Bool
  | .found i _ => i = sel
  | _ => false

/-- What the search changes is the condition of the Selection that it ends in. -/
theorem exists_of_findMarkerParent {m i : Nat} {replacement p' : Expr} {t : RaNode}
    (h : (findMarkerParent m replacement t).result = .found i p') :
    ∃ p c, RaNode.selection i p c ∈ nodes t ∧
      replaceInSelection m replacement p = some (some p') := by
  have handThen {s s' : Search} (h : (s.andThen s').result = .found i p') :
      s.result = .found i p' ∨ s'.result = .found i p' := by
    unfold Search.andThen at h
    split at h
    · exact .inr h
    · exact .inl h
  induction t with
  | hole => cases h
  | leaf j op => cases h
  | unary j op c ih =>
    have hbelow (h : (findMarkerParent m replacement c).result = .found i p') :
        ∃ p c', RaNode.selection i p c' ∈ nodes (.unary j op c) ∧
          replaceInSelection m replacement p = some (some p') := by
      obtain ⟨p, c', hmem, hp⟩ := ih h
      exact ⟨p, c', List.mem_cons_of_mem _ hmem, hp⟩
    cases op with
    | selection p =>
      rcases handThen h with h | h
      · simp only [searchSelection] at h
        split at h
        · cases h
        · cases h
        · next hp =>
          cases h
          exact ⟨p, c, List.mem_cons_self, hp⟩
      · exact hbelow h
    | _ => exact hbelow h
  | join j join l r ihl ihr =>
    rcases handThen h with h | h
    · obtain ⟨p, c, hmem, hp⟩ := ihl h
      exact ⟨p, c, List.mem_cons_of_mem _ (List.mem_append_left _ hmem), hp⟩
    · obtain ⟨p, c, hmem, hp⟩ := ihr h
      exact ⟨p, c, List.mem_cons_of_mem _ (List.mem_append_right _ hmem), hp⟩

section

variable {V : Type} {db : Database V} {subqueryAlias : String} {w : ScalarSubquery} {K : List Frame}

/-- The condition on a scalar subquery that becomes the derived table `subqueryAlias`. -/
@[mk_iff]
structure Unnests (db : Database V) (subqueryAlias : String) (K : List Frame) (w : ScalarSubquery) :
    Prop where
  decouples : Decouples db w subqueryAlias
  finds : FindsD w
  marker : endsIn w.sel
    (findMarkerParent w.marker (.attribute "m" subqueryAlias) (plug K w.tree)).result = true
  ignored : IgnoredBy (oldBinding w : Row V) (newBinding (decoupledTable w subqueryAlias)) K

instance (old new : Row V) (es : List Expr) : Decidable (ReadsNeither old new es) :=
  inferInstanceAs (Decidable (∀ q ∈ allReferences es, ¬ Offers old q ∧ ¬ Offers new q))

instance decidableIgnoredBy (old new : Row V) : ∀ K, Decidable (IgnoredBy old new K)
  | [] => .isFalse id
  | .left _ _ _ :: _ => .isFalse id
  | .right _ _ _ :: _ => .isFalse id
  | .unary _ op :: K =>
      have := decidableIgnoredBy old new K
      match op with
      | .projection _ => inferInstanceAs (Decidable (_ ∧ ReadsNeither old new _))
      | .root => inferInstanceAs (Decidable (_ ∧ IgnoredBy old new K))
      | .selection _ => inferInstanceAs (Decidable (_ ∧ IgnoredBy old new K))
      | .orderBy _ _ => inferInstanceAs (Decidable (_ ∧ IgnoredBy old new K))
      | .groupBy _ _ => inferInstanceAs (Decidable (_ ∧ IgnoredBy old new K))
      | .having _ => inferInstanceAs (Decidable (_ ∧ IgnoredBy old new K))

instance (db : Database V) (subqueryAlias : String) (K : List Frame) (w : ScalarSubquery) :
    Decidable (Unnests db subqueryAlias K w) :=
  decidable_of_iff _ (unnests_iff db subqueryAlias K w).symm

theorem Unnests.findsMarker (h : Unnests db subqueryAlias K w) (hd : Distinct (plug K w.tree)) :
    FindsMarker w K subqueryAlias := by
  have hmarker := h.marker
  unfold endsIn at hmarker
  split at hmarker
  · next i p' hresult =>
    obtain rfl : i = w.sel := of_decide_eq_true hmarker
    obtain ⟨p, c, hmem, hp⟩ := exists_of_findMarkerParent hresult
    have hsame := eq_of_mem_nodes hd hmem (mem_nodes_plug K List.mem_cons_self) rfl rfl
    obtain rfl : p = w.above := by
      injection hsame with _ hop _
      injection hop
    rw [replaceInSelection_aboveWith h.decouples, Option.some.injEq, Option.some.injEq] at hp
    rw [FindsMarker, hresult, hp]
  · cases hmarker

/-- The tree with the derived table has nodes of the old one. -/
theorem ids_grouped (w : ScalarSubquery) (u : GroupedTable) :
    (w.grouped u).ids.Sublist w.tree.ids := by
  have hfiltered : (filtered w.selection u.condition w.inner).ids.Sublist
      (RaNode.selection w.selection w.condition w.inner).ids := by
    rw [filtered]
    split
    · exact .refl _
    · exact List.sublist_cons_self _ _
  exact ((((hfiltered.cons_cons _).cons_cons _).append_left _).cons_cons _).cons_cons _

theorem full_grouped {u : GroupedTable} (h : w.tree.Full) : (w.grouped u).Full := by
  obtain ⟨houter, hinner⟩ : w.outer.Full ∧ w.inner.Full := h
  refine ⟨houter, ?_⟩
  change (filtered w.selection u.condition w.inner).Full
  rw [filtered]
  split
  · exact hinner
  · exact hinner

variable [DecidableEq V]

/-- The condition on a round of the pass. -/
def RoundUnnests (db : Database V) (I : Interpretation V) (p : MarkerJoin) (s : State) : Prop :=
  ∃ join ∈ p.join, ∃ q ∈ subqueryAt join s.tree.root, q.2.join = join ∧ q.2.marker = p.marker ∧
    Unnests (withTables I db s.tree.ctes) (numbered "t" s.tree.counter) q.1 q.2

instance (db : Database V) (I : Interpretation V) (p : MarkerJoin) (s : State) :
    Decidable (RoundUnnests db I p s) :=
  inferInstanceAs (Decidable (∃ join ∈ p.join, ∃ q ∈ subqueryAt join s.tree.root,
    q.2.join = join ∧ q.2.marker = p.marker ∧
      Unnests (withTables I db s.tree.ctes) (numbered "t" s.tree.counter) q.1 q.2))

variable {I : Interpretation V} {s : State}

/-- One round of the pass ends, and it keeps the rows. -/
theorem hasRows_unnest (hI : NullLaws I) {rows : List (Tuple V)} (hs : HasRows db I rows s)
    (hroot : s.tree.root = plug K w.tree)
    (h : Unnests (withTables I db s.tree.ctes) (numbered "t" s.tree.counter) K w) (fuel : Nat) :
    ∃ s', outcome (decorrelateSubquery (fuel + 4) w.marker w.join) s = (.ok (), s') ∧
      HasRows db I rows s' := by
  have haddressed : Addressed s.tree.nextId (plug K w.tree) :=
    hroot ▸ ⟨hs.wellFormed.distinct, hs.wellFormed.fresh⟩
  have hfull := hs.wellFormed.full
  rw [hroot, full_plug] at hfull
  obtain ⟨s', hrun, htree⟩ := takes_decorrelateSubquery hroot haddressed hfull.2 h.decouples h.finds
    (h.findsMarker haddressed.distinct) fuel s rfl
  refine ⟨s', hrun, ?_, ?_⟩
  · have hids := ids_grouped w (decoupledTable w (numbered "t" s.tree.counter))
    have hafter := haddressed.plug (Nat.le_add_right _ 2)
      (haddressed.at_position.distinct.sublist hids) fun i hi => .inl (hids.subset hi)
    have hne : K ≠ [] := by
      rintro rfl
      exact h.ignored
    have hrooted := hs.wellFormed.rooted
    rw [hroot, isSelection_plug hne _ (w.grouped _)] at hrooted
    rw [htree]
    exact ⟨hafter.distinct, full_plug.mpr ⟨hfull.1, full_grouped hfull.2⟩, hafter.fresh, hrooted⟩
  · have hexchanges := exchanges (groupable h.decouples hI) hI.equality hI.comparison
    rw [← hs.rows, queryRows, queryRows, htree, hroot]
    exact ((hexchanges.plug h.ignored).rows []).symm

/-- The pass over the scalar subqueries ends, and it keeps the rows, when every round finds a
subquery that can be decoupled. -/
theorem hasRows_generalQueryUnnesting (hI : NullLaws I) {rows : List (Tuple V)} (fuel : Nat) :
    Triple (fun s => HasRows db I rows s ∧
        (markersJoins [.dependentInnerLeft] s.tree.root).isSome = true ∧
        EachMarker [.dependentInnerLeft] (decorrelateSubquery (fuel + 4)) (RoundUnnests db I) s)
      (generalQueryUnnesting (fuel + 4)) (fun _ => HasRows db I rows) fun _ => False := by
  refine forEachMarker_succeeds (fun p s hround => ?_) fun p join hp s hs => ?_
  · obtain ⟨join, hjoin, -⟩ := hround
    exact Option.isSome_iff_exists.mpr ⟨join, hjoin⟩
  · obtain ⟨join', hjoin, q, hq, hqjoin, hqmarker, hunnests⟩ := hs.2
    obtain rfl := Option.mem_unique hp hjoin
    obtain ⟨s', hrun, hrows⟩ :=
      hasRows_unnest hI hs.1 (plug_subqueryAt hq).symm hunnests fuel
    rw [hqjoin, hqmarker] at hrun
    rw [hrun]
    exact hrows

/-- The condition on a run of `optimize`: no condition changes its meaning on the way, all that
reads an outer query is lifted out of the EXISTS and IN subqueries, and the correlated scalar
subqueries can be decoupled. -/
def UnnestsHarmlessly (db : Database V) (I : Interpretation V) (fuel : Nat) (s : State) : Prop :=
  PushesHarmlessly (withTables I db s.tree.ctes) s.tree ∧
    ∀ s₁, outcome pushDown s = (.ok (), s₁) →
      ((markersJoins existsInTypes s₁.tree.root).isSome = true ∧
        ExistsRounds (RoundLifts db I) s₁) ∧
      ∀ s₂, outcome decorrelateAllExistsInSubqueries s₁ = (.ok (), s₂) →
        ((markersJoins [.dependentInnerLeft] s₂.tree.root).isSome = true ∧
          EachMarker [.dependentInnerLeft] (decorrelateSubquery fuel) (RoundUnnests db I) s₂) ∧
        ∀ s₃, outcome (generalQueryUnnesting fuel) s₂ = (.ok (), s₃) →
          PushesHarmlessly (withTables I db s₃.tree.ctes) s₃.tree

instance (db : Database V) (I : Interpretation V) (fuel : Nat) (s : State) :
    Decidable (UnnestsHarmlessly db I fuel s) :=
  inferInstanceAs (Decidable (PushesHarmlessly (withTables I db s.tree.ctes) s.tree ∧
    ∀ s₁, outcome pushDown s = (.ok (), s₁) →
      ((markersJoins existsInTypes s₁.tree.root).isSome = true ∧
        ExistsRounds (RoundLifts db I) s₁) ∧
      ∀ s₂, outcome decorrelateAllExistsInSubqueries s₁ = (.ok (), s₂) →
        ((markersJoins [.dependentInnerLeft] s₂.tree.root).isSome = true ∧
          EachMarker [.dependentInnerLeft] (decorrelateSubquery fuel) (RoundUnnests db I) s₂) ∧
        ∀ s₃, outcome (generalQueryUnnesting fuel) s₂ = (.ok (), s₃) →
          PushesHarmlessly (withTables I db s₃.tree.ctes) s₃.tree))

/-- `optimize` ends, and the statement that it ends with has the rows of the parsed one. -/
theorem hasRows_optimize_unnested (hsym : SymmetricEquality I) (hI : NullLaws I)
    {rows : List (Tuple V)} {fuel : Nat} (hs : HasRows db I rows s)
    (h : UnnestsHarmlessly db I (fuel + 4) s) :
    ∃ s', outcome (optimize (fuel + 4)) s = (.ok (), s') ∧ HasRows db I rows s' := by
  obtain ⟨s₁, h₁, hs₁⟩ := hasRows_pushDown hs h.1
  obtain ⟨hrounds, hafter⟩ := h.2 s₁ h₁
  obtain ⟨u, s₂, h₂, hs₂⟩ := (hasRows_exists hsym).exists_ok ⟨hs₁, hrounds⟩
  obtain ⟨hunnests, hend⟩ := hafter s₂ h₂
  obtain ⟨u', s₃, h₃, hs₃⟩ := (hasRows_generalQueryUnnesting hI fuel).exists_ok ⟨hs₂, hunnests⟩
  obtain ⟨s₄, h₄, hs₄⟩ := hasRows_pushDown hs₃ (hend s₃ h₃)
  refine ⟨s₄, ?_, hs₄⟩
  exact outcome_bind_eq_ok.mpr ⟨(), s₁, h₁, outcome_bind_eq_ok.mpr ⟨(), s₂, h₂,
    outcome_bind_eq_ok.mpr ⟨(), s₃, h₃, h₄⟩⟩⟩

end

section

private def equals (l r : List String) : PgNode := .aExpr .op "=" (.columnRef l) (.columnRef r)

private def select (item : PgNode) (table : String) (condition : PgNode) : PgNode :=
  .selectStmt false [.resTarget "" item] [.rangeVar table none] condition [] .nullptr [] []

/-- `select r.b from r where r.b = (select min(s.b) from s where s.a = r.a and s.c = s.b)`. -/
def minSubquery : PgNode :=
  select (.columnRef ["r", "b"]) "r" <| .aExpr .op "=" (.columnRef ["r", "b"]) <|
    .subLink .expr .nullptr <|
      select (.funcCall "min" [.columnRef ["s", "b"]] false false) "s" <|
        .boolExpr .and [equals ["s", "a"] ["r", "a"], equals ["s", "c"] ["s", "b"]]

/-- Comparisons are equality, and `min` is the only function. -/
def minimum : Interpretation Nat where
  constant _ _ := none
  function _ _ := none
  aggregate f rows := if f = "min" then (rows.filterMap fun r => r.head?.join).min? else none
  unary _ _ := none
  binary _ _ _ := none
  cast _ _ v := v
  compare _ l r := if l.any Option.isNone || r.any Option.isNone then .unknown else .ofBool (l = r)
  holds _ := .unknown

/-- Three rows in every table, two of them with the same `a`. -/
def threeRows : Database Nat := fun _ =>
  ⟨["a", "b", "c"], [[some 1, some 1, some 1], [some 2, some 2, some 2], [some 2, some 1, some 1]],
    by simp⟩

private theorem symmetricEquality_minimum : SymmetricEquality minimum :=
  symmetricEquality_equality

private theorem nullLaws_minimum : NullLaws minimum where
  equality v w := by
    cases v with
    | none => simp [minimum]
    | some v =>
      cases w with
      | none => simp [minimum]
      | some w => by_cases h : v = w <;> simp [minimum, Truth.ofBool, h]
  comparison op vs := by simp [minimum]
  aggregate f _ := by simp [minimum]
  unary _ := rfl
  binary _ _ := ⟨rfl, rfl⟩
  cast _ _ := rfl

end

end SqlOptimizer.Unnesting.UnnestedRows
