import SqlOptimizer.Unnesting.MovedScopes

/-!
The attributes after the outer side of a subquery has moved to a CTE. Those that are bound to a
relation of the side have to be bound to the column of the CTE that is made from the column of
that relation, and the others have to stay.
-/

set_option autoImplicit false
set_option relaxedAutoImplicit false

namespace SqlOptimizer.Unnesting.MovedBindings

open Algebra.RelationalAlgebra
open Parse.Correlation (isTpchAttribute)
open Semantics.Evaluation (columnName)
open Logic.NumberedNames Logic.Triples
open Tree.AcyclicTrees Tree.Frames Tree.Walks
open Objects Attributes PushDownDepJoin DecorrelateSubquery
open LexicalScopes RenamedAttributes MovedSide MovedScopes

/-- The projection of a CTE of that name. -/
def isTable (name : String) : RaNode → Bool
  | .projection _ pr _ => pr.subqueryAlias = name
  | _ => false

/-- The columns of a relation: the prefix tells them, unless it is a CTE. -/
def tableHasColumn (ctes : List RaNode) (name attr : String) : Bool :=
  match ctes.find? (isTable name) with
  | some (.projection _ pr c) => hasOutput (sources c) pr attr
  | _ => isTpchAttribute attr name

/-- The items of the side. -/
def movedItems (ctes : List RaNode) (outer : RaNode) : List ScopeItem :=
  ((itemsIn { columns := tableHasColumn ctes } outer).zipIdx).map fun x => ⟨.moved x.2, x.1.source⟩

/-- The CTE over these items. -/
def cteItem (block : List ScopeItem) (pr : Projection) : ScopeItem :=
  ⟨.cte, pr.subqueryAlias, hasOutput (block.map ScopeItem.source) pr⟩

/-- The items from which a select expression gives a column of that name. -/
def originsIn (block : List ScopeItem) (name : String) (e : Expr) : List Owner :=
  match starQualifier e with
  | some aliasName => (block.filter fun it =>
      (aliasName = "" || it.source.qualifier = aliasName) && it.source.hasColumn name).map
        ScopeItem.owner
  | none => if columnName e = name then (attributesIn e).map (boundTo block) else []

/-- The items from which the columns of that name are made. -/
def columnOrigins (block : List ScopeItem) (args : List Expr) (name : String) : List Owner :=
  args.flatMap (originsIn block name)

/-- What becomes of an attribute. One that is bound to an item of the side is then bound to the
CTE, which has one column of its name, and that is made from the same item. -/
structure IsKept (origins : String → List Owner) (x y : Placed) : Prop where
  moved : ∀ k, x.owner = .moved k →
    y.owner = .cte ∧ y.ref.1 = x.ref.1 ∧ origins y.ref.1 = [.moved k]
  other : (∀ k, x.owner ≠ .moved k) → y.ref = x.ref

section

variable (before : RaTree) (join d : Nat) (outer : RaNode)

/-- The attributes outside the side, with the items of the side in the scopes. -/
def placedBefore : List Placed :=
  placedIn (atPlaces join d (tableHasColumn before.ctes) (movedItems before.ctes outer))
    before.root

/-- The attributes outside the CTE, with the CTE in the scopes. -/
def placedAfter (after : RaTree) (pr : Projection) : List Placed :=
  placedIn (atPlaces join d (tableHasColumn after.ctes)
    [cteItem (movedItems before.ctes outer) pr]) after.root

/-- The side is the new CTE, a relation of its name stands in both places, every attribute is
kept, and different columns of the side have become different columns of the CTE. -/
structure PreservesBinding (after : RaTree) (cte : Nat) (pr : Projection) : Prop where
  ctes : after.ctes = before.ctes ++ [.projection cte pr outer]
  places : ∀ c ∈ sides join d after.root, ∃ i, c = .relation i pr.subqueryAlias ""
  bindings : List.Forall₂ (IsKept (columnOrigins (movedItems before.ctes outer) pr.args))
    (placedBefore before join d outer) (placedAfter before join d outer after pr)
  columns : ∀ x ∈ (placedBefore before join d outer).zip (placedAfter before join d outer after pr),
    ∀ y ∈ (placedBefore before join d outer).zip (placedAfter before join d outer after pr),
      ∀ k l, x.1.owner = .moved k → y.1.owner = .moved l →
        (k, x.1.ref.1) ≠ (l, y.1.ref.1) → x.2.ref.1 ≠ y.2.ref.1

/-- The names that the rename map has entries for. -/
def listedNames : List String := (getRelationsAliases outer).map visibleName

def cteNameOf : String := numbered "cte_" before.counter

/-- The CTE, from the attributes that `find_attributes_using_alias` reports. -/
def cteProjection : Projection :=
  outerProjection (cteNameOf before)
    ((searched join d before.root).filter (isReported (listedNames outer)))

/-- The rename map of the move. -/
def moveRenames : RenameMap := cteRenames (cteNameOf before) (getRelationsAliases outer)

/-- The attributes outside the side, with the CTE in place of the side in the scopes. -/
def placedWithCte : List Placed :=
  placedIn { atPlaces join d
      (tableHasColumn (before.ctes ++ [.projection before.nextId (cteProjection before join d outer)
        outer]))
      [cteItem (movedItems before.ctes outer) (cteProjection before join d outer)] with
    select := renamedLists (moveRenames before outer) (visited join d before.root) } before.root

/-- The renaming comes to the attribute and finds its qualifier. -/
def IsRenamed (x : Placed) : Prop :=
  (x.node ∈ visited join d before.root ∧ x.reached = true) ∧ x.ref.2 ∈ listedNames outer

instance (x : Placed) : Decidable (IsRenamed before join d outer x) :=
  inferInstanceAs (Decidable (_ ∧ _))

/-- The attribute as the renaming leaves it. -/
def newRef (x : Placed) : AttributeRef :=
  if IsRenamed before join d outer x then (x.ref.1, cteNameOf before) else x.ref

/-- The items that are nearer than the CTE. -/
def nearer (scope : List ScopeItem) : List ScopeItem := scope.takeWhile fun it => it.owner ≠ .cte

/-- The renaming leaves no old qualifier at an attribute that is bound to an item of the side, no
nearer item takes it, and the search reports one attribute of its name, of the same item; an
attribute that is bound to another item is not renamed. -/
structure IsFollowed (x y : Placed) : Prop where
  qualifier : ∀ k, x.owner = .moved k →
    IsRenamed before join d outer x ∨ x.ref.2 = "" ∨ x.ref.2 = cteNameOf before
  nearest : ∀ k, x.owner = .moved k →
    ∀ it ∈ nearer y.scope, it.source.binds (newRef before join d outer x) = false
  column : ∀ k, x.owner = .moved k →
    columnOrigins (movedItems before.ctes outer) (cteProjection before join d outer).args x.ref.1 =
      [.moved k]
  other : (∀ k, x.owner ≠ .moved k) → IsRenamed before join d outer x →
    x.ref.2 = cteNameOf before

variable {before join d outer} in
private theorem isFollowed_iff_moved {x y : Placed} {k : Nat} (hk : x.owner = .moved k) :
    ((IsRenamed before join d outer x ∨ x.ref.2 = "" ∨ x.ref.2 = cteNameOf before) ∧
      (∀ it ∈ nearer y.scope, it.source.binds (newRef before join d outer x) = false) ∧
      columnOrigins (movedItems before.ctes outer) (cteProjection before join d outer).args x.ref.1 =
        [.moved k]) ↔ IsFollowed before join d outer x y := by
  constructor
  · rintro ⟨hqualifier, hnearest, hcolumn⟩
    refine ⟨fun _ _ => hqualifier, fun _ _ => hnearest, fun l hl => ?_,
      fun hother => absurd hk (hother k)⟩
    rw [hk] at hl
    exact hl ▸ hcolumn
  · exact fun h => ⟨h.qualifier k hk, h.nearest k hk, h.column k hk⟩

variable {before join d outer} in
private theorem isFollowed_iff_other {x y : Placed} (hnot : ∀ k, x.owner ≠ .moved k) :
    (IsRenamed before join d outer x → x.ref.2 = cteNameOf before) ↔
      IsFollowed before join d outer x y :=
  ⟨fun h => ⟨fun k hk => absurd hk (hnot k), fun k hk => absurd hk (hnot k),
    fun k hk => absurd hk (hnot k), fun _ => h⟩, fun h => h.other hnot⟩

instance (x y : Placed) : Decidable (IsFollowed before join d outer x y) :=
  match h : x.owner with
  | .moved _ => decidable_of_iff _ (isFollowed_iff_moved h)
  | .cte => decidable_of_iff _ (isFollowed_iff_other fun _ hk => Owner.noConfusion (h.symm.trans hk))
  | .other => decidable_of_iff _ (isFollowed_iff_other fun _ hk => Owner.noConfusion (h.symm.trans hk))

/-- The renaming follows every attribute. -/
def FollowsAll : Prop :=
  List.Forall₂ (IsFollowed before join d outer) (placedBefore before join d outer)
    (placedWithCte before join d outer)

instance : Decidable (FollowsAll before join d outer) :=
  inferInstanceAs (Decidable (List.Forall₂ _ _ _))

end

/-- The left side of the join. -/
def leftSide (join : Nat) (root : RaNode) : Option RaNode :=
  (find? join root).bind fun j =>
    match j with
    | .join _ _ l _ => some l
    | _ => none

section

variable {name : String} {relations : List (String × String)}

private theorem lookup_cteRenames (m : RenameMap) (a : AttributeRef) :
    (relations.foldl (fun m r => m.set (visibleName r) "" name "") m).lookup a =
      if a.2 = "" ∧ a.1 ∈ relations.map visibleName then some (name, "") else m.lookup a := by
  induction relations generalizing m with
  | nil => simp
  | cons r rs ih =>
    rw [List.foldl_cons, ih, RenameMap.set, List.lookup_cons]
    simp only [List.map_cons, List.mem_cons]
    by_cases hempty : a.2 = ""
    · by_cases hr : a.1 = visibleName r
      · have hbeq : (a == (visibleName r, "")) = true := beq_iff_eq.mpr (Prod.ext hr hempty)
        simp [hbeq, hempty, hr]
      · have hbeq : (a == (visibleName r, "")) = false :=
          beq_eq_false_iff_ne.mpr fun h => hr (congrArg Prod.fst h)
        simp only [hbeq, hr, false_or]
    · have hbeq : (a == (visibleName r, "")) = false :=
        beq_eq_false_iff_ne.mpr fun h => hempty (congrArg Prod.snd h)
      simp [hbeq, hempty]

/-- The map of the move gives listed qualifiers the name of the CTE. -/
theorem renamedRef_cteRenames (a : AttributeRef) : renamedRef (cteRenames name relations) a =
    if a.2 ∈ relations.map visibleName then (a.1, name) else a := by
  obtain ⟨n, q⟩ := a
  simp only [renamedRef, renamed, cteRenames, lookup_cteRenames, List.lookup_nil]
  by_cases hq : q ∈ relations.map visibleName
  · by_cases hn : n = ""
    · simp [hq, hn]
    · simp [hq, hn]
  · simp [hq]

theorem settles_cteRenames : Settles (cteRenames name relations) := by
  intro a
  simp only [renamedRef_cteRenames]
  by_cases h : a.2 ∈ relations.map visibleName
  · simp only [if_pos h, ite_self]
  · simp only [if_neg h]

end

section

variable {s s' : State} {join d : Nat} {u : Unit}

/-- What the move makes of the tree and of the CTEs. -/
theorem moveToCte_spec (hacyclic : Acyclic s.tree.root)
    (hrun : outcome (moveToCte join d) s = (.ok u, s')) :
    ∃ outer, leftSide join s.tree.root = some outer ∧
      s'.tree.ctes = s.tree.ctes ++ [.projection s.tree.nextId (cteProjection s.tree join d outer)
        outer] ∧
      s'.tree.root = movedTree join d (.relation (s.tree.nextId + 1) (cteNameOf s.tree) "")
        (moveRenames s.tree outer) (visited join d s.tree.root) s.tree.root := by
  obtain ⟨root, s₀, hroot, h₀⟩ := outcome_bind_eq_ok.mp hrun
  cases hroot
  obtain ⟨outer, s₁, houter, h₁⟩ := outcome_bind_eq_ok.mp h₀
  obtain ⟨hleft, hs₁⟩ := outcome_orCrash_eq_ok.mp houter
  rw [hs₁] at h₁
  obtain ⟨cteId, s₂, hcteId, h₂⟩ := outcome_bind_eq_ok.mp h₁
  cases hcteId
  obtain ⟨cteName, s₃, hcteName, h₃⟩ := outcome_bind_eq_ok.mp h₂
  cases hcteName
  obtain ⟨relId, s₄, hrelId, h₄⟩ := outcome_bind_eq_ok.mp h₃
  cases hrelId
  obtain ⟨_, s₅, hset, h₅⟩ := outcome_bind_eq_ok.mp h₄
  cases hset
  obtain ⟨_, s₆, hset, h₆⟩ := outcome_bind_eq_ok.mp h₅
  cases hset
  obtain ⟨root, s₇, hroot, h₇⟩ := outcome_bind_eq_ok.mp h₆
  cases hroot
  obtain ⟨attributes, s₈, hsearch, h₈⟩ := outcome_bind_eq_ok.mp h₇
  obtain ⟨hfound, hs₈⟩ := outcome_orCrash_eq_ok.mp hsearch
  rw [hs₈] at h₈
  obtain ⟨_, s₉, hpush, h₉⟩ := outcome_bind_eq_ok.mp h₈
  cases hpush
  obtain ⟨renamed, s₁₀, hrename, hend⟩ := outcome_bind_eq_ok.mp h₉
  obtain ⟨hrenamed, hs₁₀⟩ := outcome_orCrash_eq_ok.mp hrename
  rw [hs₁₀] at hend
  cases hend
  -- the tree in which the search and the renaming start
  have hplaces := update_places (s.tree.nextId + 1) (.relation (cteNameOf s.tree) "") join d hacyclic
  have hattributes : attributes = (searched join d s.tree.root).filter
      (isReported (listedNames outer)) := by
    rw [← lookedAtIn_replaceSide join d (s.tree.nextId + 1) (.relation (cteNameOf s.tree) ""),
      ← hplaces]
    exact Option.some.inj (hfound.symm.trans (findAttributesUsingAlias_eq _))
  obtain ⟨is, his, hupdate⟩ := Option.map_eq_some_iff.mp hrenamed
  have hvisits : is = visited join d s.tree.root :=
    renameVisits_replaceSide join d (s.tree.nextId + 1) (.relation (cteNameOf s.tree) "")
      (hplaces ▸ his)
  refine ⟨outer, hleft, ?_, ?_⟩
  · rw [cteProjection, ← hattributes]
    rfl
  · rw [movedTree, ← hvisits, moveRenames, ← updateAll_renameNode settles_cteRenames is
      (acyclic_replaceSide _ _ join d hacyclic), ← hplaces]
    exact hupdate.symm

end

section

variable {scope : List ScopeItem} {a : AttributeRef}

private theorem boundTo_cons (it : ScopeItem) :
    boundTo (it :: scope) a = if it.source.binds a then it.owner else boundTo scope a := by
  rw [boundTo, List.find?_cons]
  split
  · next h => rw [if_pos h]; rfl
  · next h => rw [if_neg (Bool.eq_false_iff.mp h)]; rfl

/-- The attribute is bound to the CTE when that has it and no nearer item does. -/
theorem boundTo_eq_cte_iff {item : ScopeItem} (hitem : item.owner = .cte)
    (hcte : ∀ it ∈ scope, it.owner = .cte → it = item) :
    boundTo scope a = .cte ↔ item ∈ scope ∧ item.source.binds a = true ∧
      ∀ it ∈ nearer scope, it.source.binds a = false := by
  induction scope with
  | nil => simp [boundTo]
  | cons it scope ih =>
    rw [List.forall_mem_cons] at hcte
    have ih := ih hcte.2
    rw [boundTo_cons]
    by_cases howner : it.owner = .cte
    · obtain rfl := hcte.1 howner
      have hnearer : nearer (it :: scope) = [] := by simp [nearer, howner]
      rw [hnearer]
      by_cases hbinds : it.source.binds a = true
      · simp [hbinds, howner]
      · rw [if_neg hbinds, ih]
        exact ⟨fun h => absurd h.2.1 hbinds, fun h => absurd h.2.1 hbinds⟩
    · have hnearer : nearer (it :: scope) = it :: nearer scope := by simp [nearer, howner]
      have hne : item ≠ it := fun h => howner (h ▸ hitem)
      rw [hnearer, List.forall_mem_cons, List.mem_cons, or_iff_right hne]
      by_cases hbinds : it.source.binds a = true
      · simp [hbinds, howner]
      · rw [if_neg hbinds, ih, Bool.not_eq_true] at *
        simp [hbinds]

/-- Only an item of the scope is an attribute bound to. -/
theorem exists_of_boundTo {k : Nat} (h : boundTo scope a = .moved k) :
    ∃ it ∈ scope, ∃ k, it.owner = .moved k := by
  induction scope with
  | nil => cases h
  | cons it scope ih =>
    rw [boundTo_cons] at h
    split at h
    · exact ⟨it, List.mem_cons_self, k, h⟩
    · obtain ⟨it', hit', hk⟩ := ih h
      exact ⟨it', List.mem_cons_of_mem _ hit', hk⟩

end

/-- A column with an origin is a column of the CTE. -/
theorem hasOutput_of_columnOrigins {block : List ScopeItem} {pr : Projection} {name : String}
    (hcolumns : pr.subqueryColumns = []) (h : columnOrigins block pr.args name ≠ []) :
    hasOutput (block.map ScopeItem.source) pr name = true := by
  obtain ⟨owner, howner⟩ := List.exists_mem_of_ne_nil _ h
  obtain ⟨e, he, horigin⟩ := List.mem_flatMap.mp howner
  rw [hasOutput, hcolumns, List.isEmpty_nil, if_pos rfl, List.any_eq_true]
  refine ⟨e, he, ?_⟩
  rw [originsIn] at horigin
  rw [givesColumn]
  cases hstar : starQualifier e with
  | none =>
    simp only [hstar] at horigin
    split at horigin
    · next hname => simpa using hname
    · cases horigin
  | some aliasName =>
    simp only [hstar] at horigin
    obtain ⟨it, hit, -⟩ := List.mem_map.mp horigin
    rw [List.mem_filter] at hit
    simp only [List.any_map, List.any_eq_true, Function.comp_apply]
    exact ⟨it, hit⟩

section

variable (before : RaTree) (join d : Nat) (outer : RaNode)

/-- The CTE in the scopes. -/
def newItem : ScopeItem :=
  cteItem (movedItems before.ctes outer) (cteProjection before join d outer)

variable {before join d outer}

private theorem renamePlaced_ref (y : Placed) :
    (renamePlaced (moveRenames before outer) (visited join d before.root) y).ref =
      newRef before join d outer y := by
  have hrenamed : renamedRef (moveRenames before outer) y.ref =
      if y.ref.2 ∈ listedNames outer then (y.ref.1, cteNameOf before) else y.ref :=
    renamedRef_cteRenames y.ref
  rw [renamePlaced, newRef]
  by_cases hreached : y.node ∈ visited join d before.root ∧ y.reached = true
  · rw [if_pos hreached, hrenamed]
    by_cases hlisted : y.ref.2 ∈ listedNames outer
    · rw [if_pos hlisted, if_pos ⟨hreached, hlisted⟩]
    · rw [if_neg hlisted, if_neg fun h => hlisted h.2]
  · rw [if_neg hreached, if_neg fun h => hreached h.1]

private theorem renamePlaced_scope {m : RenameMap} {is : List Nat} (y : Placed) :
    (renamePlaced m is y).scope = y.scope := by
  rw [renamePlaced]
  split <;> rfl

@[simp] theorem newRef_fst (x : Placed) : (newRef before join d outer x).1 = x.ref.1 := by
  rw [newRef]
  split <;> rfl

/-- The CTE has an attribute of one of its columns that is left with its name or without a
qualifier. -/
private theorem newItem_binds {x : Placed}
    (hcolumn : hasOutput ((movedItems before.ctes outer).map ScopeItem.source)
      (cteProjection before join d outer) x.ref.1 = true)
    (hqualifier : IsRenamed before join d outer x ∨ x.ref.2 = "" ∨ x.ref.2 = cteNameOf before) :
    (newItem before join d outer).source.binds (newRef before join d outer x) = true := by
  rw [Source.binds]
  split
  · rw [newRef_fst]
    exact hcolumn
  · next hne =>
    refine decide_eq_true ?_
    by_cases hren : IsRenamed before join d outer x
    · rw [newRef, if_pos hren]
      rfl
    · rw [newRef, if_neg hren] at hne ⊢
      rcases hqualifier with h | h | h
      · exact absurd h hren
      · exact absurd h hne
      · exact h.symm

/-- One attribute. -/
theorem isKept_iff_isFollowed {x y : Placed} (h : Aligned (newItem before join d outer) x y) :
    IsKept (columnOrigins (movedItems before.ctes outer) (cteProjection before join d outer).args) x
        (renamePlaced (moveRenames before outer) (visited join d before.root) y) ↔
      IsFollowed before join d outer x y := by
  have hnew : newRef before join d outer y = newRef before join d outer x := by
    have hiff : IsRenamed before join d outer y ↔ IsRenamed before join d outer x := by
      rw [IsRenamed, IsRenamed, h.node, h.reached, h.ref]
    rw [newRef, newRef, if_congr hiff rfl rfl, h.ref]
  have href := (renamePlaced_ref y).trans hnew
  have howner : (renamePlaced (moveRenames before outer) (visited join d before.root) y).owner =
      boundTo y.scope (newRef before join d outer x) := by
    rw [Placed.owner, href, renamePlaced_scope]
  have hcte := boundTo_eq_cte_iff (a := newRef before join d outer x) rfl h.scope.cte
  constructor
  · intro hkept
    have hbound (k : Nat) (hk : x.owner = .moved k) := hcte.mp (howner ▸ (hkept.moved k hk).1)
    refine ⟨fun k hk => ?_, fun k hk => (hbound k hk).2.2, fun k hk => ?_, fun hother hren => ?_⟩
    · by_contra hnot
      rw [not_or, not_or] at hnot
      have hbinds := (hbound k hk).2.1
      simp only [newRef, if_neg hnot.1, Source.binds, if_neg hnot.2.1] at hbinds
      exact hnot.2.2 (of_decide_eq_true hbinds).symm
    · have horigin := (hkept.moved k hk).2.2
      rwa [href, newRef_fst] at horigin
    · have hsame := hkept.other hother
      rw [href, newRef, if_pos hren] at hsame
      exact (congrArg Prod.snd hsame).symm
  · intro hfollowed
    constructor
    · intro k hk
      have horigin := hfollowed.column k hk
      rw [howner, href, newRef_fst]
      have hempty : (cteProjection before join d outer).subqueryColumns = [] := rfl
      have hcolumn := hasOutput_of_columnOrigins hempty (horigin ▸ List.cons_ne_nil _ _)
      exact ⟨hcte.mpr ⟨h.scope.moved (exists_of_boundTo hk),
        newItem_binds hcolumn (hfollowed.qualifier k hk), hfollowed.nearest k hk⟩, rfl, horigin⟩
    · intro hother
      rw [href, newRef]
      split
      · next hren => exact Prod.ext rfl (hfollowed.other hother hren).symm
      · rfl

end

section

variable {s s' : State} {join d : Nat} {u : Unit}

private theorem corresponds_newItem (before : RaTree) (join d : Nat) (outer : RaNode) :
    Corresponds (newItem before join d outer) (movedItems before.ctes outer)
      [newItem before join d outer] :=
  ⟨fun _ => List.mem_singleton_self _, fun _ hit _ => List.mem_singleton.mp hit⟩

/-- Columns that are made from one item each are different when the items or the names are. -/
private theorem columns_ne {origins : String → List Owner} {xs ys : List Placed}
    (h : List.Forall₂ (IsKept origins) xs ys) : ∀ x ∈ xs.zip ys, ∀ y ∈ xs.zip ys, ∀ k l,
      x.1.owner = .moved k → y.1.owner = .moved l → (k, x.1.ref.1) ≠ (l, y.1.ref.1) →
        x.2.ref.1 ≠ y.2.ref.1 := by
  intro x hx y hy k l hk hl hne heq
  obtain ⟨-, hkept⟩ := List.forall₂_iff_zip.mp h
  obtain ⟨-, hxname, hxorigin⟩ := (hkept hx).moved k hk
  obtain ⟨-, hyname, hyorigin⟩ := (hkept hy).moved l hl
  rw [heq, hyorigin, List.cons.injEq, Owner.moved.injEq] at hxorigin
  rw [← hxname, ← hyname, heq, hxorigin.1] at hne
  exact hne rfl

/-- When `decorrelate_subquery` moves the outer side to a CTE, bindings are preserved exactly when
the renaming follows every attribute. -/
theorem moveToCte_preservesBinding_iff (hacyclic : Acyclic s.tree.root)
    (hrun : outcome (moveToCte join d) s = (.ok u, s')) :
    ∃ outer, leftSide join s.tree.root = some outer ∧
      ((∃ cte pr, PreservesBinding s.tree join d outer s'.tree cte pr) ↔
        FollowsAll s.tree join d outer) := by
  obtain ⟨outer, hleft, hctes, hroot⟩ := moveToCte_spec hacyclic hrun
  refine ⟨outer, hleft, ?_⟩
  have hafter : placedAfter s.tree join d outer s'.tree (cteProjection s.tree join d outer) =
      (placedWithCte s.tree join d outer).map
        (renamePlaced (moveRenames s.tree outer) (visited join d s.tree.root)) := by
    rw [placedAfter, hroot, placedIn_movedTree, placedWithCte, hctes]
  have haligned : List.Forall₂ (Aligned (newItem s.tree join d outer))
      (placedBefore s.tree join d outer) (placedWithCte s.tree join d outer) :=
    aligned_atPlaces (corresponds_newItem s.tree join d outer) join d _ _ _ _
  have hbindings : List.Forall₂ (IsKept (columnOrigins (movedItems s.tree.ctes outer)
      (cteProjection s.tree join d outer).args)) (placedBefore s.tree join d outer)
        (placedAfter s.tree join d outer s'.tree (cteProjection s.tree join d outer)) ↔
      FollowsAll s.tree join d outer := by
    rw [hafter, List.forall₂_map_right_iff, FollowsAll]
    exact ⟨List.Forall₂.mp (fun _ _ h => (isKept_iff_isFollowed h).mp) haligned,
      List.Forall₂.mp (fun _ _ h => (isKept_iff_isFollowed h).mpr) haligned⟩
  constructor
  · rintro ⟨cte, pr, h⟩
    have hcte := List.append_cancel_left (hctes.symm.trans h.ctes)
    cases hcte
    exact hbindings.mp h.bindings
  · intro h
    have hkept := hbindings.mpr h
    refine ⟨s.tree.nextId, cteProjection s.tree join d outer, hctes, ?_, hkept, columns_ne hkept⟩
    intro c hc
    rw [hroot] at hc
    exact ⟨_, sides_movedTree _ c hc⟩

end

/-- `select <args> from lineitem where l_quantity < (select ... where ps_partkey < l_partkey)` once
the subquery is a derived table that cannot be decoupled. -/
def unnested (args : List Expr) : State where
  tree := {
    root :=
      .projection 0 { args := args } <|
        .selection 1 (.boolPredicate .and
          [.predicate (.attribute "l_quantity" "") (.attribute "m" "t1") "<",
            .predicate (.attribute "l_partkey" "") (.attribute "t1_l_partkey" "t1") "="]) <|
          .join 2 { type := .crossProduct } (.relation 3 "lineitem" "") <|
            .projection 4
              { args := [.funcCall "min" [.attribute "ps_supplycost" ""] true false,
                  .attribute "l_partkey" "d"]
                subqueryAlias := "t1", subqueryColumns := ["m", "t1_l_partkey"] } <|
              .selection 5
                (.predicate (.attribute "ps_partkey" "") (.attribute "l_partkey" "d") "<") <|
                .join 6 { type := .crossProduct }
                  (.projection 7
                    { args := [.attribute "l_partkey" ""], subqueryAlias := "d"
                      subqueryColumns := ["l_partkey"] } (.relation 3 "lineitem" ""))
                  (.relation 8 "partsupp" "")
    counter := 2
    nextId := 9 }

private theorem acyclic_unnested (args : List Expr) : Acyclic (unnested args).tree.root := by
  simp [unnested, Acyclic, operatorIds]

/-- Without qualifiers the attributes are found in the CTE. With one, an attribute in an arithmetic
expression keeps it, and `lineitem` is not there any more. -/
theorem unnested_bindings :
    (∃ s' cte pr, outcome (moveToCte 2 7) (unnested [.attribute "l_quantity" ""]) = (.ok (), s') ∧
      PreservesBinding (unnested [.attribute "l_quantity" ""]).tree 2 7
        (.relation 3 "lineitem" "") s'.tree cte pr) ∧
    ∃ s', outcome (moveToCte 2 7)
        (unnested [.expression (.attribute "l_quantity" "lineitem") (.constant "1" .int) "+"]) =
          (.ok (), s') ∧
      ¬ ∃ cte pr, PreservesBinding
        (unnested [.expression (.attribute "l_quantity" "lineitem") (.constant "1" .int) "+"]).tree
          2 7 (.relation 3 "lineitem" "") s'.tree cte pr := by
  constructor
  · have hrun : ∃ s', outcome (moveToCte 2 7) (unnested [.attribute "l_quantity" ""]) =
        (.ok (), s') := ⟨_, rfl⟩
    obtain ⟨s', hs'⟩ := hrun
    obtain ⟨outer, hleft, hiff⟩ := moveToCte_preservesBinding_iff (acyclic_unnested _) hs'
    obtain rfl := Option.some.inj hleft
    obtain ⟨cte, pr, h⟩ := hiff.mpr (by decide +kernel)
    exact ⟨s', cte, pr, hs', h⟩
  · have hrun : ∃ s', outcome (moveToCte 2 7)
        (unnested [.expression (.attribute "l_quantity" "lineitem") (.constant "1" .int) "+"]) =
          (.ok (), s') := ⟨_, rfl⟩
    obtain ⟨s', hs'⟩ := hrun
    refine ⟨s', hs', ?_⟩
    obtain ⟨outer, hleft, hiff⟩ := moveToCte_preservesBinding_iff (acyclic_unnested _) hs'
    obtain rfl := Option.some.inj hleft
    rw [hiff]
    decide +kernel

end SqlOptimizer.Unnesting.MovedBindings
