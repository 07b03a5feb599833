import SqlOptimizer.Parse.WithBinding
import SqlOptimizer.Unnesting.Passes

/-!
The order of the WITH list. A CTE is appended after the CTEs that its body mentions, and its
name is new; a CTE body that is changed after it has been appended breaks the order.
-/

set_option autoImplicit false
set_option relaxedAutoImplicit false

namespace SqlOptimizer.Unnesting.CteOrder

open Algebra.RelationalAlgebra
open Tree.Frames Tree.Walks Tree.RelationNames
open Logic.NumberedNames Logic.Triples
open Parse.WithBinding (cteName)
open Objects Attributes Markers ExistsIn DecorrelateSubquery Passes

/-- Every relation of a CTE that names a CTE names an earlier one. -/
def BackwardReferences (ctes : List RaNode) : Prop :=
  ∀ (i j : Nat) (cte cte' : RaNode), ctes[i]? = some cte → ctes[j]? = some cte' →
    cteName cte' ∈ relationNames cte → j < i

/-- The name is none of the CTE names that are generated from the counter on. -/
def Known (counter : Nat) (name : String) : Prop := ∀ n, counter ≤ n → name ≠ numbered "cte_" n

theorem Known.mono {c c' : Nat} (h : c ≤ c') {name : String} (hk : Known c name) : Known c' name :=
  fun n hn => hk n (Nat.le_trans h hn)

theorem known_numbered (c : Nat) : Known (c + 1) (numbered "cte_" c) := by
  intro n hn heq
  have hstem : IsStem "cte_" := by decide
  have hcn := ((numbered_inj hstem hstem).mp heq).2
  omega

theorem not_known_numbered (c : Nat) : ¬ Known c (numbered "cte_" c) :=
  fun h => h c (Nat.le_refl c) rfl

/-- The CTEs are in order, and all names in them are known. -/
structure CtesOrdered (counter : Nat) (ctes : List RaNode) : Prop where
  names : ∀ cte ∈ ctes, Known counter (cteName cte) ∧ NamedIn (Known counter) cte
  backward : BackwardReferences ctes

theorem CtesOrdered.mono {c c' : Nat} (h : c ≤ c') {ctes : List RaNode} (ho : CtesOrdered c ctes) :
    CtesOrdered c' ctes where
  names cte hcte := ⟨(ho.names cte hcte).1.mono h, (ho.names cte hcte).2.mono fun _ hk => hk.mono h⟩
  backward := ho.backward

/-- A CTE with a new name whose body has known names is appended. -/
theorem CtesOrdered.push {c : Nat} {ctes : List RaNode} {cte : RaNode} (h : CtesOrdered c ctes)
    (hname : cteName cte = numbered "cte_" c) (hbody : NamedIn (Known c) cte) :
    CtesOrdered (c + 1) (ctes ++ [cte]) := by
  refine ⟨fun cte' hcte' => ?_, fun i j x y hx hy hmem => ?_⟩
  · rcases List.mem_append.mp hcte' with hold | hnew
    · exact (h.mono (Nat.le_succ c)).names cte' hold
    · obtain rfl := List.mem_singleton.mp hnew
      exact ⟨hname ▸ known_numbered c, hbody.mono fun _ hk => hk.mono (Nat.le_succ c)⟩
  · have hx' : NamedIn (Known c) x := by
      rcases List.mem_append.mp (List.mem_of_getElem? hx) with hold | hnew
      · exact (h.names x hold).2
      · exact List.mem_singleton.mp hnew ▸ hbody
    have hy' : j < ctes.length := by
      by_contra hlen
      have hnew : y = cte := by
        rw [List.getElem?_append_right (by omega)] at hy
        exact List.mem_singleton.mp (List.mem_of_getElem? hy)
      exact not_known_numbered c (hname ▸ hnew ▸ hx' _ hmem)
    rw [List.getElem?_append_left hy'] at hy
    by_cases hi : i < ctes.length
    · rw [List.getElem?_append_left hi] at hx
      exact h.backward i j x y hx hy hmem
    · omega

/-- Between two steps the WITH list is in order, and the names of the main tree are known. -/
def Ordered (s : State) : Prop :=
  NamedIn (Known s.tree.counter) s.tree.root ∧ CtesOrdered s.tree.counter s.tree.ctes

/-- A bound on the counter, with ordered CTEs. -/
def OrderedFrom (c c' : Nat) (s : State) : Prop :=
  c ≤ s.tree.counter ∧ CtesOrdered c' s.tree.ctes

theorem blind_orderedFrom (c c' : Nat) : Blind (OrderedFrom c c') where
  root _ _ h := h
  nextId _ _ h := h
  temp _ h := ⟨Nat.le_succ_of_le h.1, h.2⟩
  d _ h := h
  casts _ _ h := h

theorem ordered_of_inRoot {c c' : Nat} (hle : c' ≤ c) {s : State}
    (h : InRoot (Known c) (OrderedFrom c c') s) : Ordered s :=
  ⟨h.1.mono fun _ hk => hk.mono h.2.1, h.2.2.mono (Nat.le_trans hle h.2.1)⟩

private theorem keeps_newName_t : Keeps Ordered (newName "t") := fun _ hs =>
  ⟨hs.1.mono fun _ hk => hk.mono (Nat.le_succ _), hs.2.mono (Nat.le_succ _)⟩

theorem covered_ordered : Covered Ordered := fun s hs =>
  ⟨Known s.tree.counter, OrderedFrom s.tree.counter s.tree.counter, blind_orderedFrom _ _,
    ⟨hs.1, Nat.le_refl _, hs.2⟩, fun _ => ordered_of_inRoot (Nat.le_refl _)⟩

/-- The names are known from `c` on, where the counter is now. -/
def OrderedAt (c : Nat) (s : State) : Prop :=
  NamedIn (Known c) s.tree.root ∧ s.tree.counter = c ∧ CtesOrdered c s.tree.ctes

private theorem ordered_of_orderedAt {c : Nat} {s : State} (h : OrderedAt c s) : Ordered s := by
  obtain ⟨hroot, rfl, hctes⟩ := h
  exact ⟨hroot, hctes⟩

/-- A step that keeps the names and the CTEs, with a fault in a state in which the WITH list is
in order. -/
private theorem ordered_step {α : Type} {x : Optimizer α} {A : α → Prop} {c c' : Nat}
    (hle : c' ≤ c) (h : Yields (InRoot (Known c) (OrderedFrom c c')) x A) :
    Triple (InRoot (Known c) (OrderedFrom c c')) x
      (fun a s => A a ∧ InRoot (Known c) (OrderedFrom c c') s) Ordered :=
  Triple.mono h (fun _ hs => hs) (fun _ _ hs => hs) fun _ => ordered_of_inRoot hle

/-- A new CTE name is not in use in the main tree and in the CTEs. -/
private theorem newName_cte (c : Nat) :
    Triple (OrderedAt c) (newName "cte_")
      (fun name s => name = numbered "cte_" c ∧ InRoot (Known (c + 1)) (OrderedFrom (c + 1) c) s)
      Ordered := by
  rintro s ⟨hroot, rfl, hctes⟩
  exact ⟨rfl, hroot.mono fun _ hk => hk.mono (Nat.le_succ _), Nat.le_refl _, hctes⟩

private theorem pushCte_ordered {c : Nat} {cte : RaNode} (hname : cteName cte = numbered "cte_" c)
    (hbody : NamedIn (Known c) cte) :
    Triple (InRoot (Known (c + 1)) (OrderedFrom (c + 1) c)) (pushCte cte)
      (fun _ => InRoot (Known (c + 1)) (OrderedFrom (c + 1) (c + 1))) Ordered :=
  fun _ hs => ⟨hs.1, hs.2.1, hs.2.2.push hname hbody⟩

private theorem moveToCte_orderedAt (c join d : Nat) :
    Triple (OrderedAt c) (moveToCte join d) (fun _ => Ordered) Ordered := by
  have hJ := fun c' => (blind_orderedFrom (c + 1) c').toPassive
  have hlt := Nat.le_succ c
  refine .bind (Q := fun root s => NamedIn (Known c) root ∧ OrderedAt c s)
    (fun s hs => ⟨hs.1, hs⟩) fun root => .given fun hroot => ?_
  refine .bind (Q := fun outer s => NamedIn (Known c) outer ∧ OrderedAt c s) ?_
    fun outer => .given fun houter => ?_
  · intro s hs
    cases hfind : find? join root with
    | none => exact ordered_of_orderedAt hs
    | some j =>
      cases j with
      | join i join' l r =>
        have hjoin : NamedIn (Known c) (.join i join' l r) := hroot.find? hfind
        exact ⟨(namedIn_join.mp hjoin).1, hs⟩
      | _ => exact ordered_of_orderedAt hs
  refine .bind (Q := fun _ => OrderedAt c) (fun _ hs => hs) fun cteId => ?_
  refine .bind (newName_cte c) fun name => .given fun hname => ?_
  have hrelation (relId : Nat) : NamedIn (Known (c + 1)) (.relation relId name "") :=
    namedIn_relation.mpr (hname ▸ known_numbered c)
  refine .bind (ordered_step hlt (keeps_newNode (hJ c)).yields) fun relId => .given fun _ => ?_
  refine .bind (ordered_step hlt (keeps_update (hJ c) fun t ht => ?_).yields)
    fun _ => .given fun _ => ?_
  · cases t with
    | join i join' l r => exact namedIn_join.mpr ⟨hrelation relId, (namedIn_join.mp ht).2⟩
    | _ => exact ht
  refine .bind (ordered_step hlt (keeps_update (hJ c) fun t ht =>
    namedIn_setOnlyChild ht (hrelation relId)).yields) fun _ => .given fun _ => ?_
  refine .bind (ordered_step hlt yields_getRoot) fun root => .given fun hroot => ?_
  refine .bind (ordered_step hlt (keeps_orCrash _).yields) fun attributes => .given fun _ => ?_
  refine .bind (pushCte_ordered hname (namedIn_unary.mpr houter)) fun _ => ?_
  refine .bind (ordered_step (Nat.le_refl _) (yields_orCrash _))
    fun renamed => .given fun hrenamed => ?_
  have hend := keeps_modifyRoot (hJ (c + 1)) (K := Known (c + 1)) fun _ _ =>
    NamedIn.renameAttributes hroot hrenamed
  exact Triple.mono hend (fun _ hs => hs) (fun _ _ => ordered_of_inRoot (Nat.le_refl _))
    fun _ => ordered_of_inRoot (Nat.le_refl _)

/-- The outer side of a subquery becomes a CTE. -/
theorem keeps_moveToCte (join d : Nat) : Keeps Ordered (moveToCte join d) :=
  fun s hs => moveToCte_orderedAt s.tree.counter join d s ⟨hs.1, rfl, hs.2⟩

section

variable {K : String → Prop}

private theorem namedIn_removeSelection {sel : Nat} {top t : RaNode} (h : NamedIn K top)
    (hrun : removeSelection sel top = some t) : NamedIn K t := by
  unfold removeSelection at hrun
  split at hrun
  · next i op c index j p child _ hfind =>
    split at hrun
    · cases hrun
    · cases hrun
      have hsel : NamedIn K (.selection j p child) := h.find? hfind
      exact h.update fun s hs => namedIn_setOnlyChild hs hsel
  · cases hrun

theorem namedIn_removeCorrelatingPredicates {sel n : Nat} {p : Expr} {top t : RaNode}
    (h : NamedIn K top) (hrun : removeCorrelatingPredicates sel p n top = some t) :
    NamedIn K t := by
  obtain ⟨rest, -, hrun⟩ := Option.bind_eq_some_iff.mp hrun
  cases rest with
  | none => exact namedIn_removeSelection h hrun
  | some e =>
    cases hrun
    exact h.update (keepsNames_setSelectionPredicate e K)

private theorem cteName_update {i j : Nat} {f : RaNode → RaNode} {pr : Projection} {c : RaNode}
    (hf : ∀ i c, cteName (f (.projection i pr c)) = pr.subqueryAlias) :
    cteName (update j f (.projection i pr c)) = pr.subqueryAlias := by
  rw [update]
  split
  · exact hf i c
  · rfl

theorem cteName_removeCorrelatingPredicates {sel n i : Nat} {p : Expr} {pr : Projection}
    {c t : RaNode} (hrun : removeCorrelatingPredicates sel p n (.projection i pr c) = some t) :
    cteName t = pr.subqueryAlias := by
  obtain ⟨rest, -, hrun⟩ := Option.bind_eq_some_iff.mp hrun
  cases rest with
  | none =>
    simp only [removeSelection] at hrun
    split at hrun
    · split at hrun
      · cases hrun
      · cases hrun
        exact cteName_update fun _ _ => rfl
    · cases hrun
  | some e =>
    cases hrun
    exact cteName_update fun _ _ => rfl

end

/-- The join is in no CTE. -/
def OutsideCtes (join : Nat) (s : State) : Prop := ∀ cte ∈ s.tree.ctes, join ∉ cte.ids

instance (join : Nat) (s : State) : Decidable (OutsideCtes join s) :=
  inferInstanceAs (Decidable (∀ cte ∈ s.tree.ctes, join ∉ cte.ids))

private theorem namedIn_findObject {s : State} (hs : Ordered s) {i : Nat} {t : RaNode}
    (h : findObject s.tree i = some t) : NamedIn (Known s.tree.counter) t := by
  rcases Option.or_eq_some_iff.mp h with hroot | ⟨-, hcte⟩
  · exact hs.1.find? hroot
  · obtain ⟨cte, hmem, hfind⟩ := List.exists_of_findSome?_eq_some hcte
    exact (hs.2.names cte hmem).2.find? hfind

/-- The rewriting of a join that is in no CTE keeps the WITH list in order. -/
theorem ordered_rewriting {w : Rewriting} {join : Nat} {s : State} (hs : Ordered s)
    (hw : w.Applies join s) (hout : OutsideCtes join s) : Ordered (w.result join s) := by
  have hbody : NamedIn (Known s.tree.counter) w.body := by
    obtain ⟨j, hj, hright⟩ := Option.bind_eq_some_iff.mp hw.subquery
    have hsub : NamedIn (Known s.tree.counter) (.projection w.projectionId w.projection w.body) :=
      (namedIn_findObject hs hj).childNodes (List.mem_of_getElem? hright)
    exact hsub
  have hcte : NamedIn (Known s.tree.counter) w.cte :=
    namedIn_removeCorrelatingPredicates (namedIn_unary.mpr hbody) hw.cte
  have hctes : s.tree.ctes.map (update join (setRight (w.probeTree s))) = s.tree.ctes := by
    refine (List.map_congr_left fun cte hmem => ?_).trans (List.map_id _)
    exact update_eq_self _ (hout cte hmem)
  have hprobe : NamedIn (Known (s.tree.counter + 1)) (w.probeTree s) := by
    simpa [Rewriting.probeTree] using known_numbered s.tree.counter
  have hroot : NamedIn (Known (s.tree.counter + 1))
      (update join (setRight (w.probeTree s)) s.tree.root) := by
    refine (hs.1.mono fun _ hk => hk.mono (Nat.le_succ _)).update fun t ht => ?_
    cases t with
    | join i join' l r => exact namedIn_join.mpr ⟨(namedIn_join.mp ht).1, hprobe⟩
    | _ => exact ht
  refine ⟨hroot, ?_⟩
  simp only [Rewriting.result, hctes]
  exact hs.2.push (cteName_removeCorrelatingPredicates hw.cte) hcte

/-- The condition on a round of the EXISTS and IN pass. -/
def JoinOutsideCtes (p : MarkerJoin) (s : State) : Prop := ∀ join ∈ p.join, OutsideCtes join s

instance (p : MarkerJoin) (s : State) : Decidable (JoinOutsideCtes p s) :=
  inferInstanceAs (Decidable (∀ join ∈ p.join, OutsideCtes join s))

/-- The pass over the EXISTS and IN subqueries. -/
def ExistsRounds (P : MarkerJoin → State → Prop) (s : State) : Prop :=
  EachMarker existsInTypes (fun _ join => decorrelateExistsInSubquery join) P s

instance (P : MarkerJoin → State → Prop) [∀ p s, Decidable (P p s)] (s : State) :
    Decidable (ExistsRounds P s) :=
  inferInstanceAs (Decidable (EachMarker _ _ P s))

theorem decorrelateAllExistsInSubqueries_ordered :
    Triple (fun s => Ordered s ∧ ExistsRounds JoinOutsideCtes s) decorrelateAllExistsInSubqueries
      (fun _ => Ordered) fun _ => True := by
  refine forEachMarker_of_eachMarker (fun _ _ => trivial) fun p join hjoin s hs => ?_
  cases h : outcome (decorrelateExistsInSubquery join) s with
  | mk r s' =>
    cases r with
    | error e => trivial
    | ok u =>
      obtain ⟨w, hw, rfl⟩ := decorrelateExistsInSubquery_eq_ok.mp h
      exact ordered_rewriting hs.1 hw (hs.2 join hjoin)

/-- When no EXISTS or IN subquery is rewritten inside a CTE, the WITH list stays in order. -/
theorem optimize_ordered {fuel : Nat} {s s' : State} (hs : Ordered s)
    (hrounds : ∀ s₁, outcome pushDown s = (.ok (), s₁) → ExistsRounds JoinOutsideCtes s₁)
    (hrun : outcome (optimize fuel) s = (.ok (), s')) : Ordered s' := by
  have hpush : Keeps Ordered pushDown :=
    covered_ordered.keeps fun K J hJ => keeps_pushDown hJ.toPassive
  have hunnest : Keeps Ordered (generalQueryUnnesting fuel) :=
    keeps_forEachMarker fun marker join => .bind keeps_newName_t fun subqueryAlias =>
      keeps_replaceSubquery covered_ordered keeps_moveToCte fuel marker join subqueryAlias
  obtain ⟨⟨⟩, s₁, h₁, hrun⟩ := outcome_bind_eq_ok.mp hrun
  obtain ⟨⟨⟩, s₂, h₂, hrun⟩ := outcome_bind_eq_ok.mp hrun
  obtain ⟨⟨⟩, s₃, h₃, h₄⟩ := outcome_bind_eq_ok.mp hrun
  have hs₁ := hpush s hs
  rw [h₁] at hs₁
  have hs₂ := decorrelateAllExistsInSubqueries_ordered s₁ ⟨hs₁, hrounds s₁ h₁⟩
  rw [h₂] at hs₂
  have hs₃ := hunnest s₂ hs₂
  rw [h₃] at hs₃
  have hs₄ := hpush s₃ hs₃
  rwa [h₄] at hs₄

end SqlOptimizer.Unnesting.CteOrder
