import SqlOptimizer.Unnesting.DecorrelateSubquery

/-!
The columns of D. The loop over the correlated attributes compares the qualifier and the name
written one after the other, while the columns and the new attributes have the name alone.
-/

set_option autoImplicit false
set_option relaxedAutoImplicit false

namespace SqlOptimizer.Unnesting.DColumns

open Algebra.RelationalAlgebra
open Tree.Frames Tree.Walks
open Parse.PgQuery
open Logic.Triples
open Objects Attributes Markers PushDownDepJoin Decouple ExistsIn DecorrelateSubquery

/-- The name and the qualifier that an attribute object has before the loop. -/
def attributeOf (o : Occurrence) : AttributeRef := (o.name, o.aliasName)

/-- What the loop compares. -/
def key (a : AttributeRef) : String := a.2 ++ a.1

theorem newColumns_cons (changed : List (Nat × Nat)) (seen : List String) (o : Occurrence)
    (os : List Occurrence) : newColumns changed seen (o :: os) =
      if key (o.name, currentAlias changed o) ∈ seen then newColumns (objectOf o :: changed) seen os
      else (o.name, currentAlias changed o) ::
        newColumns (objectOf o :: changed) (key (o.name, currentAlias changed o) :: seen) os := rfl

section

variable {changed : List (Nat × Nat)} {seen : List String} {os : List Occurrence}

/-- No two columns have one key, and none has a key that has been seen. -/
theorem nodup_keys : ((newColumns changed seen os).map key).Nodup ∧
    ∀ c ∈ newColumns changed seen os, key c ∉ seen := by
  induction os generalizing changed seen with
  | nil => simp [newColumns]
  | cons o os ih =>
    rw [newColumns_cons]
    split
    · exact ih
    · next hnew =>
      obtain ⟨hnodup, hfresh⟩ := @ih (objectOf o :: changed)
        (key (o.name, currentAlias changed o) :: seen)
      refine ⟨List.nodup_cons.mpr ⟨fun hmem => ?_, hnodup⟩, ?_⟩
      · obtain ⟨c, hc, heq⟩ := List.mem_map.mp hmem
        exact hfresh c hc (heq ▸ List.mem_cons_self)
      · rw [List.forall_mem_cons]
        exact ⟨hnew, fun c hc hseen => hfresh c hc (List.mem_cons_of_mem _ hseen)⟩

/-- A column has the name of an attribute, and its qualifier or that of D. -/
theorem mem_newColumns {c : AttributeRef} (h : c ∈ newColumns changed seen os) :
    ∃ o ∈ os, c = attributeOf o ∨ c = (o.name, "d") := by
  induction os generalizing changed seen with
  | nil => cases h
  | cons o os ih =>
    have hrest {changed : List (Nat × Nat)} {seen : List String}
        (h : c ∈ newColumns changed seen os) :
        ∃ o' ∈ o :: os, c = attributeOf o' ∨ c = (o'.name, "d") := by
      obtain ⟨o', ho', hc⟩ := ih h
      exact ⟨o', List.mem_cons_of_mem _ ho', hc⟩
    rw [newColumns_cons] at h
    split at h
    · exact hrest h
    · rcases List.mem_cons.mp h with rfl | h
      · refine ⟨o, List.mem_cons_self, ?_⟩
        rw [currentAlias]
        split
        · exact .inr rfl
        · exact .inl rfl
      · exact hrest h

/-- The loop over the rest of the occurrences. -/
theorem newColumns_append (l rest : List Occurrence) : ∃ changed' seen',
    newColumns changed seen (l ++ rest) =
      newColumns changed seen l ++ newColumns changed' seen' rest ∧
    (∀ i, i ∈ changed' ↔ i ∈ changed ∨ i ∈ l.map objectOf) ∧
    ∀ k, k ∈ seen' ↔ k ∈ seen ∨ ∃ c ∈ newColumns changed seen l, key c = k := by
  induction l generalizing changed seen with
  | nil => exact ⟨changed, seen, rfl, by simp, by simp [newColumns]⟩
  | cons o l ih =>
    have hchanged {changed' : List (Nat × Nat)} (h : ∀ i, i ∈ changed' ↔
        i ∈ objectOf o :: changed ∨ i ∈ l.map objectOf) (i : Nat × Nat) :
        i ∈ changed' ↔ i ∈ changed ∨ i ∈ (o :: l).map objectOf := by
      rw [h, List.map_cons, List.mem_cons, List.mem_cons, or_left_comm, or_assoc]
    rw [List.cons_append, newColumns_cons, newColumns_cons]
    split
    · obtain ⟨changed', seen', heq, hch, hseen⟩ := @ih (objectOf o :: changed) seen
      exact ⟨changed', seen', heq, hchanged hch, hseen⟩
    · obtain ⟨changed', seen', heq, hch, hseen⟩ := @ih (objectOf o :: changed)
        (key (o.name, currentAlias changed o) :: seen)
      refine ⟨changed', seen', by rw [heq, List.cons_append], hchanged hch, fun k => ?_⟩
      rw [hseen, List.mem_cons, List.exists_mem_cons_iff, or_assoc, or_left_comm, eq_comm]

end

/-- The condition on the correlated attributes: none has the name of another, none has the key of
another, and when an object is met again the name with the qualifier `d` has been seen. -/
structure DistinctlyNamed (os : List Occurrence) : Prop where
  names : ∀ x ∈ os, ∀ y ∈ os, x.name = y.name → x.aliasName = y.aliasName
  keys : ∀ x ∈ os, ∀ y ∈ os, key (attributeOf x) = key (attributeOf y) →
    attributeOf x = attributeOf y
  again : ∀ l₁ x l₂, os = l₁ ++ x :: l₂ → objectOf x ∈ l₁.map objectOf →
    ∃ y ∈ l₁, key (attributeOf y) = key (x.name, "d")

/-- An object has one name and one qualifier. -/
def OneAttributeEach (os : List Occurrence) : Prop :=
  ∀ x ∈ os, ∀ y ∈ os, objectOf x = objectOf y → attributeOf x = attributeOf y

/-- Each attribute has one column, and there are no others. -/
structure OneColumnEach (os : List Occurrence) (columns : List AttributeRef) : Prop where
  column : ∀ x ∈ os, columns.count (attributeOf x) = 1
  only : ∀ c ∈ columns, ∃ x ∈ os, attributeOf x = c

section

variable {os : List Occurrence} (hobjects : OneAttributeEach os)

include hobjects

/-- Under the condition the loop adds a column for each new attribute. -/
private theorem columns_of_distinctlyNamed (h : DistinctlyNamed os) {l rest : List Occurrence}
    (hos : os = l ++ rest) {changed : List (Nat × Nat)} {seen : List String}
    {columns : List AttributeRef} (hchanged : ∀ i, i ∈ changed ↔ i ∈ l.map objectOf)
    (hseen : ∀ k, k ∈ seen ↔ ∃ c ∈ columns, key c = k) (hnodup : columns.Nodup)
    (hcolumns : ∀ a, a ∈ columns ↔ ∃ x ∈ l, attributeOf x = a) :
    (columns ++ newColumns changed seen rest).Nodup ∧
      ∀ a, a ∈ columns ++ newColumns changed seen rest ↔ ∃ x ∈ os, attributeOf x = a := by
  induction rest generalizing l changed seen columns with
  | nil =>
    rw [List.append_nil] at hos
    rw [newColumns, List.append_nil, hos]
    exact ⟨hnodup, hcolumns⟩
  | cons o rest ih =>
    have hos' : os = (l ++ [o]) ++ rest := by simp [hos]
    have ho : o ∈ os := by simp [hos]
    have hl : ∀ x ∈ l, x ∈ os := fun x hx => by simp [hos, hx]
    have hchanged' (i : Nat × Nat) : i ∈ objectOf o :: changed ↔ i ∈ (l ++ [o]).map objectOf := by
      simp [hchanged, or_comm]
    rw [newColumns_cons]
    split
    · next hmem =>
      refine ih hos' hchanged' hseen hnodup fun a => ?_
      have hold : attributeOf o ∈ columns := by
        by_cases hagain : objectOf o ∈ changed
        · obtain ⟨x, hx, hobject⟩ := List.mem_map.mp ((hchanged _).mp hagain)
          exact (hcolumns _).mpr ⟨x, hx, hobjects x (hl x hx) o ho hobject⟩
        · rw [currentAlias, if_neg hagain, hseen] at hmem
          obtain ⟨c, hc, hkey⟩ := hmem
          obtain ⟨x, hx, rfl⟩ := (hcolumns c).mp hc
          rwa [← h.keys x (hl x hx) o ho hkey]
      rw [hcolumns]
      simp only [List.mem_append, List.mem_singleton, or_and_right, exists_or, exists_eq_left]
      refine ⟨.inl, fun ha => ha.elim id ?_⟩
      rintro rfl
      exact (hcolumns _).mp hold
    · next hnew =>
      -- an object that is met again has been seen with the qualifier of D
      have hfirst : objectOf o ∉ changed := by
        intro hagain
        obtain ⟨y, hy, hkey⟩ := h.again l o rest hos ((hchanged _).mp hagain)
        rw [currentAlias, if_pos hagain, hseen] at hnew
        exact hnew ⟨_, (hcolumns _).mpr ⟨y, hy, rfl⟩, hkey⟩
      rw [currentAlias, if_neg hfirst] at hnew ⊢
      rw [List.append_cons]
      refine ih hos' hchanged' (fun k => ?_) ?_ fun a => ?_
      · rw [List.mem_cons, hseen]
        simp only [List.mem_append, List.mem_singleton, or_and_right, exists_or, exists_eq_left]
        rw [or_comm, eq_comm]
      · refine List.nodup_append.mpr ⟨hnodup, List.nodup_singleton _, fun c hc d hd => ?_⟩
        rw [List.mem_singleton.mp hd]
        rintro rfl
        exact hnew ((hseen _).mpr ⟨_, hc, rfl⟩)
      · simp only [List.mem_append, List.mem_singleton, or_and_right, exists_or, exists_eq_left,
          hcolumns]
        exact or_congr_right eq_comm

theorem oneColumnEach_of_distinctlyNamed (h : DistinctlyNamed os) :
    OneColumnEach os (newColumns [] [] os) := by
  have hstart : os = [] ++ os := rfl
  obtain ⟨hnodup, hmem⟩ := @columns_of_distinctlyNamed os hobjects h [] os hstart [] [] [] (by simp)
    (by simp) List.nodup_nil (by simp)
  exact ⟨fun x hx => List.count_eq_one_of_mem hnodup ((hmem _).mpr ⟨x, hx, rfl⟩),
    fun c hc => (hmem c).mp hc⟩

/-- The condition follows when the names are distinct and each attribute has its column. -/
theorem distinctlyNamed_of_oneColumnEach
    (hnames : ∀ x ∈ os, ∀ y ∈ os, x.name = y.name → attributeOf x = attributeOf y)
    (h : OneColumnEach os (newColumns [] [] os)) : DistinctlyNamed os := by
  have hmem (x : Occurrence) (hx : x ∈ os) : attributeOf x ∈ newColumns [] [] os :=
    List.count_pos_iff.mp (by rw [h.column x hx]; exact Nat.one_pos)
  -- a column with the qualifier of D is one of the attributes
  have hown (y : Occurrence) (hy : y ∈ os) (hcol : (y.name, "d") ∈ newColumns [] [] os) :
      attributeOf y = (y.name, "d") := by
    obtain ⟨z, hz, hattr⟩ := h.only _ hcol
    rw [hnames y hy z hz (congrArg Prod.fst hattr).symm, hattr]
  refine ⟨fun x hx y hy hname => congrArg Prod.snd (hnames x hx y hy hname), ?_, ?_⟩
  · intro x hx y hy hkey
    exact List.inj_on_of_nodup_map nodup_keys.1 (hmem x hx) (hmem y hy) hkey
  · intro l₁ x l₂ hos hagain
    have hl (y : Occurrence) (hy : y ∈ l₁) : y ∈ os := by simp [hos, hy]
    have hx : x ∈ os := by simp [hos]
    obtain ⟨changed', seen', heq, hch, hseen⟩ :=
      @newColumns_append [] [] l₁ (x :: l₂)
    rw [← hos] at heq
    have hx' : currentAlias changed' x = "d" := by
      rw [currentAlias, if_pos ((hch _).mpr (.inr hagain))]
    rw [newColumns_cons, hx'] at heq
    by_cases hkey : key (x.name, "d") ∈ seen'
    · obtain ⟨c, hc, hck⟩ := ((hseen _).mp hkey).resolve_left List.not_mem_nil
      obtain ⟨y, hy, hcy⟩ := mem_newColumns hc
      have hall : c ∈ newColumns [] [] os := by
        rw [heq]
        exact List.mem_append_left _ hc
      refine ⟨y, hy, ?_⟩
      rcases hcy with rfl | rfl
      · exact hck
      · rw [hown y (hl y hy) hall, hck]
    · rw [if_neg hkey] at heq
      obtain ⟨y, hy, hobject⟩ := List.mem_map.mp hagain
      refine ⟨y, hy, ?_⟩
      rw [hobjects y (hl y hy) x hx hobject, hown x hx]
      rw [heq]
      exact List.mem_append_right _ List.mem_cons_self

end

/-- The names of the columns of D. -/
def dColumnNames (columns : List AttributeRef) : List String := columns.map Prod.fst

/-- The names of the columns of the derived table. -/
def tableColumnNames (subqueryAlias : String) (columns : List AttributeRef) : List String :=
  "m" :: columns.map fun a => subqueryAlias ++ "_" ++ a.1

/-- They are the columns that the two projections get, one select expression each, and there is one
condition for each. -/
theorem columns_of_projections (subqueryAlias : String) (columns : List AttributeRef)
    (join : Nat) (j : Join) (l : RaNode) (p : Nat) (args : List Expr) (depJoin d : Nat)
    (body : RaNode) : ∃ l' r' rArgs dArgs,
      openSubquery subqueryAlias depJoin d (.join join j l (.projection p { args := args } body)) =
        .join join { j with type := .crossProduct, marker := 0 } l' r' ∧
      addColumnsToRight subqueryAlias columns r' = .projection p
        { args := args ++ rArgs
          subqueryAlias := subqueryAlias
          subqueryColumns := tableColumnNames subqueryAlias columns }
        (.join depJoin { type := .dependentInnerLeft }
          (.projection d { args := [], subqueryAlias := "d" } l) body) ∧
      rArgs = columns.map (fun a => Expr.attribute a.1 "d") ∧
      addColumnsToD columns (.projection d { args := [], subqueryAlias := "d" } l) = .projection d
        { args := dArgs, subqueryAlias := "d", subqueryColumns := dColumnNames columns } l ∧
      dArgs = columns.map fun a => Expr.attribute a.1 "" :=
  ⟨_, _, _, _, rfl, rfl, rfl, rfl, rfl⟩

/-- Two attributes become the same attribute of D exactly when they are one, each has one column of D
and of the derived table and with it one condition, and no column name is repeated. -/
structure MapsToD (subqueryAlias : String) (o : Opened) : Prop where
  sameAttribute : ∀ x ∈ o.correlated, ∀ y ∈ o.correlated,
    qualifyByD o.dProjection o.subtree x.name x.aliasName =
      qualifyByD o.dProjection o.subtree y.name y.aliasName ↔ attributeOf x = attributeOf y
  columns : OneColumnEach o.correlated o.columns
  dColumns : (dColumnNames o.columns).Nodup
  tableColumns : (tableColumnNames subqueryAlias o.columns).Nodup

theorem append_ne_m (l r : String) : l ++ "_" ++ r ≠ "m" := by
  intro h
  have hmem : '_' ∈ (l ++ "_" ++ r).toList := by simp
  rw [h] at hmem
  exact absurd hmem (by decide)

/-- The columns have names of their own when the attributes have. -/
theorem nodup_columnNames {os : List Occurrence} {columns : List AttributeRef}
    (hnames : ∀ x ∈ os, ∀ y ∈ os, x.name = y.name → x.aliasName = y.aliasName)
    (h : OneColumnEach os columns) (subqueryAlias : String) :
    (dColumnNames columns).Nodup ∧ (tableColumnNames subqueryAlias columns).Nodup := by
  have hnodup : columns.Nodup := by
    rw [List.nodup_iff_count_le_one]
    intro c
    by_cases hc : c ∈ columns
    · obtain ⟨x, hx, rfl⟩ := h.only c hc
      exact (h.column x hx).le
    · rw [List.count_eq_zero_of_not_mem hc]
      exact Nat.zero_le 1
  have hinj : ∀ c ∈ columns, ∀ c' ∈ columns, c.1 = c'.1 → c = c' := by
    intro c hc c' hc' hname
    obtain ⟨x, hx, rfl⟩ := h.only c hc
    obtain ⟨y, hy, rfl⟩ := h.only c' hc'
    exact Prod.ext hname (hnames x hx y hy hname)
  refine ⟨hnodup.map_on hinj, List.nodup_cons.mpr ⟨fun hmem => ?_, ?_⟩⟩
  · obtain ⟨c, -, hc⟩ := List.mem_map.mp hmem
    exact append_ne_m _ _ hc
  · refine hnodup.map_on fun c hc c' hc' hname => hinj c hc c' hc' ?_
    exact String.append_right_inj (subqueryAlias ++ "_") |>.mp hname

section

variable {marker join : Nat} {subqueryAlias : String} {s s' : State} {t : DerivedTable} {o : Opened}

/-- What is collected refers to the outer side. -/
theorem isCorrelated_of_openTable
    (h : outcome (openTable marker join subqueryAlias) s = (.ok (t, o), s')) :
    ∀ x ∈ o.correlated, isCorrelated o.dProjection o.subtree x.name x.aliasName = true := by
  have hopen {depJoin d : Nat} {body : RaNode} {s s' : State} {o : Opened}
      (h : outcome (openDepJoin join subqueryAlias depJoin d body) s = (.ok o, s')) :
      ∀ x ∈ o.correlated, isCorrelated o.dProjection o.subtree x.name x.aliasName = true := by
    unfold openDepJoin at h
    simp only [outcome_bind_eq_ok, outcome_orCrash_eq_ok] at h
    obtain ⟨_, _, _, _, _, _, subtree, _, _, root, _, _, dProjection, _, _, correlated, _,
      ⟨hcor, -⟩, h⟩ := h
    cases h
    intro x hx
    obtain ⟨os, -, hos⟩ := Option.map_eq_some_iff.mp hcor
    rw [← hos] at hx
    exact (List.mem_filter.mp hx).2
  unfold openTable at h
  simp only [outcome_bind_eq_ok, outcome_get] at h
  obtain ⟨_, _, _, _, _, _, h⟩ := h
  split at h
  · simp only [outcome_bind_eq_ok] at h
    obtain ⟨_, _, _, _, _, _, _, _, _, _, _, _, _, _, hrun, h⟩ := h
    cases h
    exact hopen hrun
  · obtain ⟨_, _, _, h⟩ := outcome_bind_eq_ok.mp h
    exact absurd h outcome_badCast_ne_ok
  · cases h

end

private def equals (l r : List String) : PgNode := .aExpr .op "=" (.columnRef l) (.columnRef r)

/-- `select * from r, s where r.x = (select sum(u.b) from u where u.c = r.a and u.d = second)`. -/
def sumSubquery (second : List String) : PgNode :=
  .selectStmt false [.resTarget "" (.columnRef ["*"])] [.rangeVar "r" none, .rangeVar "s" none]
    (.aExpr .op "=" (.columnRef ["r", "x"]) <| .subLink .expr .nullptr <|
      .selectStmt false [.resTarget "" (.funcCall "sum" [.columnRef ["u", "b"]] false false)]
        [.rangeVar "u" none] (.boolExpr .and [equals ["u", "c"] ["r", "a"], equals ["u", "d"] second])
        [] .nullptr [] [])
    [] .nullptr [] []

private theorem exists_openTable {second : List String} {os : List Occurrence}
    (h : ∃ s ∈ beforeExistsIn (sumSubquery second), ∃ x ∈
      (outcome (openTable 1 2 "t1") s).1.toOption, x.2.correlated = os) :
    ∃ s s' t o, beforeExistsIn (sumSubquery second) = some s ∧
      outcome (openTable 1 2 "t1") s = (.ok (t, o), s') ∧ o.correlated = os := by
  obtain ⟨s, hs, ⟨t, o⟩, hx, hos⟩ := h
  cases hrun : outcome (openTable 1 2 "t1") s with
  | mk r s' =>
    rw [hrun] at hx
    cases r with
    | error e => cases hx
    | ok x =>
      obtain rfl : x = (t, o) := Option.some.inj hx
      exact ⟨s, s', t, o, hs, hrun, hos⟩

end SqlOptimizer.Unnesting.DColumns
