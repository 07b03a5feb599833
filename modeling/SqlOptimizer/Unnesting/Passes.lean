import SqlOptimizer.Tree.RelationNames
import SqlOptimizer.Unnesting.DecorrelateSubquery

/-!
What the steps of the passes leave as it was. Most of them change only the main tree and
bring no new relation names into it.
-/

set_option autoImplicit false
set_option relaxedAutoImplicit false

namespace SqlOptimizer.Unnesting.Passes

open Algebra.RelationalAlgebra
open Tree.Frames Tree.Walks Tree.RelationNames
open Logic.NumberedNames Logic.Triples
open Objects Attributes Markers PushDownDepJoin Decouple DecorrelateSubquery

section

variable {α : Type} {I : State → Prop}

theorem yields_orCrash (o : Option α) : Yields I (orCrash o) fun a => o = some a := by
  cases o with
  | none => exact Triple.throw fun _ hs => hs
  | some a => exact Triple.pure fun _ hs => ⟨rfl, hs⟩

theorem keeps_orCrash (o : Option α) : Keeps I (orCrash o) := (yields_orCrash o).keeps

theorem keeps_crash : Keeps I (crash : Optimizer α) := .throw _

theorem keeps_assert (p : Prop) [Decidable p] : Keeps I (assert p) := by
  unfold assert
  split
  · exact .pure ()
  · exact keeps_crash

theorem keeps_get : Keeps I (get : Optimizer State) := fun _ hs => hs

theorem keeps_getRoot : Keeps I getRoot := .bind keeps_get fun s => .pure s.tree.root

theorem outcome_pushDown (s : State) : outcome pushDown s =
    match Tree.PushDown.pushDownPredicates false s.tree with
    | none => (.error .crash, s)
    | some tree => (.ok (), { s with tree := tree }) := by
  change outcome (orCrash (Tree.PushDown.pushDownPredicates false s.tree) >>= fun tree =>
    set { s with tree := tree }) s = _
  cases Tree.PushDown.pushDownPredicates false s.tree <;> rfl

end

/-- A change of a node that brings no new relation names into its tree. -/
def KeepsNames (f : RaNode → RaNode) : Prop := ∀ K t, NamedIn K t → NamedIn K (f t)

theorem keepsNames_setSelectionPredicate (p : Expr) : KeepsNames (setSelectionPredicate p) := by
  intro K t ht
  cases t with
  | unary i op c => cases op <;> exact ht
  | _ => exact ht

theorem keepsNames_addPredicateToSelection (p : Expr) :
    KeepsNames (Tree.PushDown.addPredicateToSelection p) := by
  intro K t ht
  cases t with
  | unary i op c => cases op <;> exact ht
  | _ => exact ht

theorem keepsNames_addColumnsToD (columns : List AttributeRef) :
    KeepsNames (addColumnsToD columns) := by
  intro K t ht
  cases t with
  | unary i op c => cases op <;> exact ht
  | _ => exact ht

theorem keepsNames_addColumnsToRight (subqueryAlias : String) (columns : List AttributeRef) :
    KeepsNames (addColumnsToRight subqueryAlias columns) := by
  intro K t ht
  cases t with
  | unary i op c => cases op <;> exact ht
  | _ => exact ht

theorem keepsNames_mapNodeAttributes (f : String → String → String × String) :
    KeepsNames (mapNodeAttributes f) := by
  intro K t ht
  cases t with
  | unary i op c => cases op <;> exact ht
  | _ => exact ht

theorem keepsNames_renameNode (m : RenameMap) : KeepsNames (renameNode m) := by
  intro K t ht
  cases t with
  | unary i op c => cases op <;> exact ht
  | _ => exact ht

theorem keepsNames_setJoinType (type : JoinType) : KeepsNames (setJoinType type) := by
  intro K t ht
  cases t <;> exact ht

theorem keepsNames_keepRight : KeepsNames keepRight := by
  intro K t ht
  cases t with
  | join i join l r => exact (namedIn_join.mp ht).2
  | _ => exact ht

theorem keepsNames_clearChild : KeepsNames clearChild := by
  intro K t ht
  cases t with
  | unary i op c => exact namedIn_hole
  | _ => exact ht

theorem keepsNames_openSubquery (subqueryAlias : String) (depJoin d : Nat) :
    KeepsNames (openSubquery subqueryAlias depJoin d) := by
  intro K t ht
  unfold openSubquery
  split
  · simpa using ht
  · exact ht

theorem keepsNames_finishSplit (join : Join) (left right : Projection) :
    KeepsNames (finishSplit join left right) := by
  intro K t ht
  unfold finishSplit
  split
  · simpa using ht
  · exact ht

theorem NamedIn.updateAll {K : String → Prop} {f : RaNode → RaNode} (hf : KeepsNames f)
    {is : List Nat} {t : RaNode} (h : NamedIn K t) : NamedIn K (updateAll f is t) := by
  induction is generalizing t with
  | nil => exact h
  | cons i is ih => exact ih (h.update (hf K))

theorem NamedIn.renameAttributes {K : String → Prop} {m : RenameMap} {stop : Option Nat}
    {it t t' : RaNode} (h : NamedIn K t) (hrun : renameAttributes m stop it t = some t') :
    NamedIn K t' := by
  obtain ⟨is, -, rfl⟩ := Option.map_eq_some_iff.mp hrun
  exact NamedIn.updateAll (keepsNames_renameNode m) h

theorem namedIn_mapChildren {K : String → Prop} {f : RaNode → RaNode} (hf : KeepsNames f)
    {t : RaNode} (h : NamedIn K t) : NamedIn K (mapChildren f t) := by
  cases t with
  | unary i op c => exact hf K c h
  | join i join l r =>
    rw [namedIn_join] at h
    exact namedIn_join.mpr ⟨hf K l h.1, hf K r h.2⟩
  | _ => exact h

theorem keepsNames_belowSelection (sel : Nat) : KeepsNames (belowSelection sel) := by
  intro K t ht
  unfold belowSelection
  split
  · split <;> exact ht
  · exact ht

theorem keepsNames_aboveJoin (sel join : Nat) : KeepsNames (aboveJoin sel join) := by
  intro K t ht
  unfold aboveJoin
  split
  · split <;> exact ht
  · exact ht

theorem namedIn_setOnlyChild {K : String → Prop} {t c : RaNode} (h : NamedIn K t)
    (hc : NamedIn K c) : NamedIn K (setOnlyChild c t) := by
  cases t with
  | unary i op c' => exact hc
  | _ => exact h

theorem namedIn_replaceJoin {K : String → Prop} {s t : RaNode} (h : NamedIn K t)
    (hs : NamedIn K s) : NamedIn K (replaceJoin s t) := by
  cases t with
  | join i join l r => exact hs
  | _ => exact h

theorem NamedIn.removeRedundantIn {K : String → Prop} {sel : Nat} {t t' : RaNode}
    (h : NamedIn K t) (hrun : removeRedundantIn sel t = some t') : NamedIn K t' := by
  unfold Decouple.removeRedundantIn at hrun
  split at hrun
  · next i p c hfind =>
    obtain ⟨r, -, hrun⟩ := Option.bind_eq_some_iff.mp hrun
    have hset : NamedIn K (update sel (setSelectionPredicate r.predicate) t) :=
      h.update (keepsNames_setSelectionPredicate _ K)
    dsimp only at hrun
    split at hrun
    · exact Option.some.inj hrun ▸ hset
    · split at hrun
      · cases hrun
      · simp only [Option.bind_eq_some_iff, Option.map_eq_some_iff] at hrun
        obtain ⟨parent, -, j, -, rfl⟩ := hrun
        have hchild : NamedIn K (update j (Objects.mapChildren (belowSelection sel))
            (update sel (setSelectionPredicate r.predicate) t)) :=
          hset.update fun s hs => namedIn_mapChildren (keepsNames_belowSelection sel) hs
        exact hchild.update (keepsNames_clearChild K)
  · cases hrun

/-- The relation names of the trees in a move satisfy `K`. -/
def MoveNamedIn (K : String → Prop) : Move → Prop
  | .replace t => NamedIn K t
  | .split _ _ a b => NamedIn K a ∧ NamedIn K b
  | .badCast => True
  | .stay => True

theorem namedIn_belowUnary {K : String → Prop} {d c : RaNode} {depJoin i : Nat} {dep : Join}
    {op : UnaryOp} {move : Move} (hd : NamedIn K d) (hc : NamedIn K c)
    (hmove : belowUnary depJoin dep d i op c = some move) : MoveNamedIn K move := by
  rw [belowUnary, Option.ite_none_left_eq_some, Option.some.injEq] at hmove
  obtain ⟨-, rfl⟩ := hmove
  simp [MoveNamedIn, hd, hc]

theorem namedIn_belowJoin {K : String → Prop} {root d a b : RaNode} {depJoin i : Nat}
    {dep join : Join} {move : Move} (hd : NamedIn K d) (ha : NamedIn K a) (hb : NamedIn K b)
    (hmove : belowJoin root depJoin dep d i join a b = some move) : MoveNamedIn K move := by
  rw [belowJoin, Option.ite_none_left_eq_some, Option.bind_eq_some_iff] at hmove
  obtain ⟨-, onRight, -, hmove⟩ := hmove
  split at hmove
  · cases hmove
    simp [MoveNamedIn, hd, ha, hb]
  · split at hmove
    · cases hmove
      trivial
    · obtain ⟨onLeft, -, rfl⟩ := Option.map_eq_some_iff.mp hmove
      split
      · simp [MoveNamedIn, hd, ha, hb]
      · exact ⟨ha, hb⟩

/-- A move puts nodes of the tree in another order. -/
theorem namedIn_depJoinMove {K : String → Prop} {root d r : RaNode} {depJoin : Nat} {dep : Join}
    {move : Move} (hd : NamedIn K d) (hr : NamedIn K r)
    (hmove : depJoinMove root depJoin dep d r = some move) :
    MoveNamedIn K move := by
  unfold depJoinMove at hmove
  split at hmove
  · cases hmove
  · cases hmove
    trivial
  · exact namedIn_belowUnary hd (namedIn_unary.mp hr) hmove
  · exact namedIn_belowUnary hd (namedIn_unary.mp hr) hmove
  · split at hmove
    · exact namedIn_belowUnary hd (namedIn_unary.mp hr) hmove
    · cases hmove
      trivial
  · cases hmove
    trivial
  · rw [namedIn_join] at hr
    split at hmove
    · exact namedIn_belowJoin hd hr.1 hr.2 hmove
    · exact namedIn_belowJoin hd hr.1 hr.2 hmove
    · exact namedIn_belowJoin hd hr.1 hr.2 hmove
    · cases hmove
      trivial

/-- A property for which it does not matter what the main tree is, which addresses have been
given, and which aliases have been generated. -/
structure Passive (J : State → Prop) : Prop where
  root : ∀ s root, J s → J { s with tree := { s.tree with root := root } }
  nextId : ∀ s nextId, J s → J { s with tree := { s.tree with nextId := nextId } }
  temp : ∀ s, J s → J { s with
    tree := { s.tree with counter := s.tree.counter + 1 }
    names := s.names ++ [numbered "temp_" s.tree.counter] }
  d : ∀ s, J s → J { s with names := s.names ++ ["d"] }

/-- A passive property that does not depend on the casts either. -/
structure Blind (J : State → Prop) : Prop extends Passive J where
  casts : ∀ s casts, J s → J { s with badCasts := s.badCasts ++ casts }

/-- The relation names of the main tree satisfy `K`. -/
def InRoot (K : String → Prop) (J : State → Prop) (s : State) : Prop :=
  NamedIn K s.tree.root ∧ J s

section

variable {K : String → Prop} {J : State → Prop} (hJ : Passive J)

theorem yields_getRoot : Yields (InRoot K J) getRoot (NamedIn K) :=
  Triple.bind Triple.get fun _ => Triple.pure fun _ hs => ⟨hs.1 ▸ hs.2.1, hs.2⟩

include hJ

theorem keeps_modifyRoot {f : RaNode → RaNode} (hf : ∀ t, NamedIn K t → NamedIn K (f t)) :
    Keeps (InRoot K J) (modifyRoot f) :=
  .modify fun s hs => ⟨hf _ hs.1, hJ.root s _ hs.2⟩

/-- An object of the main tree is changed. -/
theorem keeps_update {i : Nat} {f : RaNode → RaNode}
    (hf : ∀ t, NamedIn K t → NamedIn K (f t)) :
    Keeps (InRoot K J) (modifyRoot (update i f)) :=
  keeps_modifyRoot hJ fun _ ht => ht.update hf

theorem keeps_newNode : Keeps (InRoot K J) newNode :=
  fun s hs => ⟨hs.1, hJ.nextId s _ hs.2⟩

theorem keeps_newName_temp : Keeps (InRoot K J) (newName "temp_") :=
  fun s hs => ⟨hs.1, hJ.temp s hs.2⟩

theorem keeps_logName_d : Keeps (InRoot K J) (logName "d") :=
  fun s hs => ⟨hs.1, hJ.d s hs.2⟩

theorem keeps_selectionAbove (join : Nat) : Keeps (InRoot K J) (selectionAbove join) := by
  refine .bind keeps_getRoot fun root => .bind (keeps_orCrash _) fun parent => ?_
  have hinsert : Keeps (InRoot K J) (do
      let sel ← newNode
      let i ← orCrash parent.1.id?
      modifyRoot (update i (mapChildren (aboveJoin sel join)))
      return parent.1) :=
    .bind (keeps_newNode hJ) fun sel => .bind (keeps_orCrash _) fun i =>
      .bind (keeps_update hJ fun t ht => namedIn_mapChildren (keepsNames_aboveJoin sel join) ht)
        fun _ => .pure _
  split
  · exact .pure _
  · exact hinsert

theorem keeps_splitDepJoin (depJoin rightProjection : Nat) (dep : Join) {d a b : RaNode}
    (hd : NamedIn K d) (ha : NamedIn K a) (hb : NamedIn K b) (childJoin : Nat) (join : Join) :
    Keeps (InRoot K J) (splitDepJoin depJoin rightProjection dep d childJoin join a b) := by
  refine .bind (keeps_newNode hJ) fun leftPr => .bind (keeps_newNode hJ) fun rightPr => ?_
  refine .bind (keeps_newNode hJ) fun depJoinRight => ?_
  refine .bind (keeps_newName_temp hJ) fun leftAlias => ?_
  refine .bind (keeps_newName_temp hJ) fun rightAlias => ?_
  refine .bind (keeps_update hJ fun t ht => namedIn_replaceJoin ht (by simp [splitTree, hd, ha, hb]))
    fun _ => ?_
  refine .bind keeps_getRoot fun root => .bind (keeps_orCrash _) fun it => ?_
  refine .bind (keeps_orCrash _) fun leftAbove => .bind (keeps_orCrash _) fun leftBelow => ?_
  refine .bind (keeps_orCrash _) fun rightAbove => .bind (keeps_orCrash _) fun rightBelow => ?_
  refine .after yields_getRoot fun root hroot => ?_
  refine .after (yields_orCrash _) fun renamed hrenamed => ?_
  refine .bind (keeps_modifyRoot hJ fun _ _ => NamedIn.renameAttributes hroot hrenamed) fun _ => ?_
  refine .bind (keeps_assert _) fun _ => ?_
  exact .bind (keeps_update hJ (keepsNames_finishSplit _ _ _ K)) fun _ => .pure _

theorem keeps_dropDepJoin (depJoin parentProjection : Nat) (renames : RenameMap) :
    Keeps (InRoot K J) (dropDepJoin depJoin parentProjection renames) := by
  refine .bind (keeps_update hJ (keepsNames_keepRight K)) fun _ => ?_
  refine .after yields_getRoot fun root hroot => .bind (keeps_orCrash _) fun it => ?_
  refine .after (yields_orCrash _) fun renamed hrenamed => ?_
  refine .bind (keeps_modifyRoot hJ fun _ _ => NamedIn.renameAttributes hroot hrenamed) fun _ => ?_
  refine .bind (keeps_orCrash _) fun it => .forM fun sel _ => ?_
  refine .after yields_getRoot fun root hroot => .after (yields_orCrash _) fun root' hroot' => ?_
  exact keeps_modifyRoot hJ fun _ _ => NamedIn.removeRedundantIn hroot hroot'

theorem keeps_pushDown : Keeps (InRoot K J) pushDown := by
  intro s hs
  rw [outcome_pushDown]
  cases h : Tree.PushDown.pushDownPredicates false s.tree with
  | none => exact hs
  | some tree =>
    have hnames : NamedIn K tree.root := hs.1.pushDownPredicates h
    obtain ⟨hctes, hcounter, -⟩ := pushDownPredicates_frame h
    obtain ⟨root, ctes, counter, nextId⟩ := tree
    simp only at hctes hcounter
    subst hctes hcounter
    exact ⟨hnames, hJ.nextId _ nextId (hJ.root s root hs.2)⟩

end

section

variable {K : String → Prop} {J : State → Prop} (hJ : Blind J)

include hJ

theorem keeps_logCasts (casts : List BadCast) : Keeps (InRoot K J) (logCasts casts) :=
  .modify fun s hs => ⟨hs.1, hJ.casts s _ hs.2⟩

theorem keeps_replaceMarker (marker : Nat) (subqueryAlias : String) :
    Keeps (InRoot K J) (replaceMarker marker subqueryAlias) := by
  refine .bind keeps_getRoot fun root => .bind (keeps_logCasts hJ _) fun _ => ?_
  split
  · exact keeps_update hJ.toPassive (keepsNames_setSelectionPredicate _ K)
  · exact keeps_crash

theorem keeps_addColumnPredicates (subqueryAlias : String) (columns : List AttributeRef)
    (above : RaNode) :
    Keeps (InRoot K J) (addColumnPredicates subqueryAlias columns above) := by
  unfold addColumnPredicates
  split
  · exact .pure _
  · exact .forM fun a _ => keeps_update hJ.toPassive (keepsNames_addPredicateToSelection _ K)
  · exact .bind (keeps_logCasts hJ _) fun _ => keeps_crash

theorem keeps_openDepJoin (join : Nat) (subqueryAlias : String) (depJoin d : Nat)
    (body : RaNode) : Keeps (InRoot K J) (openDepJoin join subqueryAlias depJoin d body) := by
  refine .bind (keeps_update hJ.toPassive (keepsNames_openSubquery _ _ _ K)) fun _ => ?_
  refine .bind (keeps_selectionAbove hJ.toPassive join) fun above => ?_
  refine .bind (keeps_orCrash _) fun subtree => .bind keeps_getRoot fun root => ?_
  exact .bind (keeps_orCrash _) fun dProjection => .bind (keeps_orCrash _) fun _ => .pure _

theorem keeps_addColumns (subqueryAlias : String) (t : DerivedTable) (o : Opened) :
    Keeps (InRoot K J) (addColumns subqueryAlias t o) := by
  refine .bind (keeps_update hJ.toPassive (keepsNames_addColumnsToRight _ _ K)) fun _ => ?_
  refine .bind (keeps_update hJ.toPassive (keepsNames_addColumnsToD _ K)) fun _ => ?_
  refine .bind (keeps_addColumnPredicates hJ _ _ o.above) fun _ => ?_
  exact keeps_modifyRoot hJ.toPassive fun t ht =>
    NamedIn.updateAll (keepsNames_mapNodeAttributes _) ht

/-- The derived table that takes the place of a subquery. -/
theorem keeps_setUpTable (marker join : Nat) (subqueryAlias : String) :
    Keeps (InRoot K J) (setUpTable marker join subqueryAlias) := by
  have hopen : Keeps (InRoot K J) (openTable marker join subqueryAlias) := by
    refine .bind (keeps_replaceMarker hJ marker subqueryAlias) fun _ => .bind keeps_get fun s => ?_
    split
    · refine .bind (keeps_assert _) fun _ => .bind (keeps_newNode hJ.toPassive) fun depJoin => ?_
      refine .bind (keeps_newNode hJ.toPassive) fun d => ?_
      refine .bind (keeps_logName_d hJ.toPassive) fun _ => ?_
      exact .bind (keeps_openDepJoin hJ _ _ _ _ _) fun o => .pure _
    · exact .bind (keeps_assert _) fun _ => .bind (keeps_logCasts hJ _) fun _ => keeps_crash
    · exact keeps_crash
  refine .bind hopen fun r => ?_
  exact .bind (keeps_addColumns hJ _ _ _) fun _ => .pure _

theorem keeps_pushDownDepJoin (depJoin rightProjection : Nat) :
    Keeps (InRoot K J) (pushDownDepJoin depJoin rightProjection) := by
  refine .after yields_getRoot fun root hroot => .bind (keeps_orCrash _) fun top => ?_
  refine .bind (keeps_assert _) fun _ => ?_
  split
  · next i dep d r hfind =>
    have hdep : NamedIn K (.join i dep d r) := hroot.find? hfind
    rw [namedIn_join] at hdep
    refine .after (yields_orCrash _) fun move hmove => ?_
    have hnames := namedIn_depJoinMove hdep.1 hdep.2 hmove
    split
    · exact .bind (keeps_update hJ.toPassive fun _ ht => namedIn_replaceJoin ht hnames) fun _ => .pure _
    · exact .bind (keeps_splitDepJoin hJ.toPassive _ _ _ hdep.1 hnames.1 hnames.2 _ _)
        fun _ => .pure _
    · exact .bind (keeps_logCasts hJ _) fun _ => keeps_crash
    · exact .pure _
  · exact keeps_crash

theorem keeps_pushDownLoop (rightProjection fuel : Nat) (queue pushed : List Nat) :
    Keeps (InRoot K J) (pushDownLoop rightProjection fuel queue pushed) := by
  induction fuel generalizing queue pushed with
  | zero => exact .throw _
  | succ fuel ih =>
    cases queue with
    | nil => exact .pure _
    | cons depJoin queue =>
      refine .bind keeps_getRoot fun root => ?_
      split
      · refine .bind (keeps_orCrash _) fun correlated => ?_
        split
        · exact ih queue _
        · exact .bind (keeps_pushDownDepJoin hJ depJoin rightProjection) fun next => ih _ _
      · exact keeps_crash

end

/-- Wherever the property holds, it follows from a property of the relation names and one that
is blind for the rest of the main tree. -/
def Covered (I : State → Prop) : Prop :=
  ∀ s, I s → ∃ K J, Blind J ∧ InRoot K J s ∧ ∀ s', InRoot K J s' → I s'

section

variable {I : State → Prop} (hI : Covered I)

include hI

theorem Covered.keeps {α : Type} {x : Optimizer α}
    (hx : ∀ K J, Blind J → Keeps (InRoot K J) x) : Keeps I x := by
  intro s hs
  obtain ⟨K, J, hJ, hin, hback⟩ := hI s hs
  exact Triple.mono (hx K J hJ) (fun _ h => h) (fun _ => hback) hback s hin

variable (hmove : ∀ join d, Keeps I (moveToCte join d))

include hmove

theorem keeps_decoupleDepJoin (join d rightProjection : Nat) (b : Bool × RenameMap)
    (depJoin : Nat) : Keeps I (decoupleDepJoin join d rightProjection b depJoin) := by
  refine .bind (hI.keeps fun K J hJ =>
    keeps_update hJ.toPassive (keepsNames_setJoinType _ K)) fun _ => ?_
  refine .bind keeps_getRoot fun root => .bind (keeps_orCrash _) fun top => ?_
  refine .bind (keeps_orCrash _) fun above => .bind (keeps_orCrash _) fun parentProjection => ?_
  refine .bind (keeps_orCrash _) fun i => .bind (keeps_orCrash _) fun r => ?_
  obtain ⟨decoupled, renames⟩ := r
  dsimp only
  split
  · exact .bind (hI.keeps fun K J hJ => keeps_dropDepJoin hJ.toPassive depJoin i renames)
      fun _ => .pure _
  · split
    · exact .pure _
    · exact .bind (hmove join d) fun _ => .pure _

/-- The decorrelation of a scalar subquery keeps what the creation of a CTE keeps. -/
theorem keeps_replaceSubquery (fuel marker join : Nat) (subqueryAlias : String) :
    Keeps I (replaceSubquery fuel marker join subqueryAlias) := by
  refine .bind (hI.keeps fun K J hJ => keeps_setUpTable hJ marker join subqueryAlias) fun t => ?_
  refine .bind (hI.keeps fun K J hJ => keeps_pushDownLoop hJ _ _ _ _) fun depJoins => ?_
  exact .bind (Keeps.foldlM (fun b i _ => keeps_decoupleDepJoin hI hmove _ _ _ b i) _)
    fun _ => .pure _

end

section

variable {I E : State → Prop} {markerTypes : List JoinType}
  {decorrelate : Nat → Nat → Optimizer Unit}

/-- `P` holds of every round of a pass over the markers of these types. -/
def EachMarker (markerTypes : List JoinType) (decorrelate : Nat → Nat → Optimizer Unit)
    (P : MarkerJoin → State → Prop) (s : State) : Prop :=
  ∀ pairs, markersJoins markerTypes s.tree.root = some pairs →
    EachRound (markerRound decorrelate) P pairs.reverse s

instance (P : MarkerJoin → State → Prop) [∀ p s, Decidable (P p s)] (s : State) :
    Decidable (EachMarker markerTypes decorrelate P s) :=
  match h : markersJoins markerTypes s.tree.root with
  | none => .isTrue fun pairs hpairs => by rw [h] at hpairs; cases hpairs
  | some pairs =>
      decidable_of_iff (EachRound (markerRound decorrelate) P pairs.reverse s)
        (by simp [EachMarker, h])

/-- A pass over the markers keeps what the rounds keep for which `P` holds. -/
theorem forEachMarker_of_eachMarker {P : MarkerJoin → State → Prop}
    (hcrash : ∀ s, I s → E s)
    (h : ∀ p join, p.join = some join →
      Triple (fun s => I s ∧ P p s) (decorrelate p.marker join) (fun _ => I) E) :
    Triple (fun s => I s ∧ EachMarker markerTypes decorrelate P s)
      (forEachMarker markerTypes decorrelate) (fun _ => I) E := by
  have hround (p : MarkerJoin) :
      Triple (fun s => I s ∧ P p s) (markerRound decorrelate p) (fun _ => I) E := by
    refine .bind (yields_orCrash (I := fun s => I s ∧ P p s) p.join |>.mono (fun _ h => h)
      (fun _ _ h => h) fun s hs => hcrash s hs.1) fun join => ?_
    intro s hs
    exact h p join hs.1 s hs.2
  intro s hs
  have hpairs : outcome (forEachMarker markerTypes decorrelate) s =
      match markersJoins markerTypes s.tree.root with
      | none => (.error .crash, s)
      | some pairs => outcome (pairs.reverse.forM (markerRound decorrelate)) s := by
    change outcome (orCrash (markersJoins markerTypes s.tree.root) >>= fun pairs =>
      pairs.reverse.forM (markerRound decorrelate)) s = _
    cases markersJoins markerTypes s.tree.root <;> rfl
  rw [hpairs]
  cases hmj : markersJoins markerTypes s.tree.root with
  | none => exact hcrash s hs.1
  | some pairs =>
    exact Triple.forM_of_eachRound (fun p _ => hround p) s ⟨hs.1, hs.2 pairs hmj⟩

/-- A pass that finds its markers does not fault when the rounds for which `P` holds do not. -/
theorem forEachMarker_succeeds {P : MarkerJoin → State → Prop}
    (hjoin : ∀ p s, P p s → p.join.isSome = true)
    (h : ∀ p join, p.join = some join →
      Triple (fun s => I s ∧ P p s) (decorrelate p.marker join) (fun _ => I) fun _ => False) :
    Triple (fun s => I s ∧ (markersJoins markerTypes s.tree.root).isSome = true ∧
        EachMarker markerTypes decorrelate P s)
      (forEachMarker markerTypes decorrelate) (fun _ => I) fun _ => False := by
  have hround (p : MarkerJoin) :
      Triple (fun s => I s ∧ P p s) (markerRound decorrelate p) (fun _ => I) fun _ => False := by
    intro s hs
    obtain ⟨join, hp⟩ := Option.isSome_iff_exists.mp (hjoin p s hs.2)
    rw [markerRound, hp]
    exact h p join hp s hs
  rintro s ⟨hs, hfound, heach⟩
  obtain ⟨pairs, hpairs⟩ := Option.isSome_iff_exists.mp hfound
  have hrun : outcome (forEachMarker markerTypes decorrelate) s =
      outcome (pairs.reverse.forM (markerRound decorrelate)) s := by
    change outcome (orCrash (markersJoins markerTypes s.tree.root) >>= fun pairs =>
      pairs.reverse.forM (markerRound decorrelate)) s = _
    rw [hpairs]
    rfl
  rw [hrun]
  exact Triple.forM_of_eachRound (fun p _ => hround p) s ⟨hs, heach pairs hpairs⟩

theorem keeps_forEachMarker (h : ∀ marker join, Keeps I (decorrelate marker join)) :
    Keeps I (forEachMarker markerTypes decorrelate) := by
  refine .bind keeps_getRoot fun root => .bind (keeps_orCrash _) fun pairs => ?_
  exact .forM fun p _ => .bind (keeps_orCrash _) fun join => h p.marker join

end

end SqlOptimizer.Unnesting.Passes
