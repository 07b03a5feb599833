import SqlOptimizer.Unnesting.CteOrder

/-!
The names that the passes introduce. They are built from one counter, so no two of them are
the same; whether a query uses them already is not looked at.
-/

set_option autoImplicit false
set_option relaxedAutoImplicit false

namespace SqlOptimizer.Unnesting.FreshNames

open Algebra.RelationalAlgebra
open Tree.Walks
open Logic.NumberedNames Logic.Triples
open Parse.PgQuery Parse.ParseSqlToRa
open Objects Markers ExistsIn DecorrelateSubquery Passes CteOrder

/-- The relation names and aliases of a tree. -/
def treeNames : RaNode → List String
  | .hole => []
  | .leaf _ (.relation name aliasName) => [name, aliasName]
  | .leaf _ (.values _ aliasName _) => [aliasName]
  | .leaf _ .dummy => []
  | .unary _ (.projection pr) c => pr.subqueryAlias :: treeNames c
  | .unary _ _ c => treeNames c
  | .join _ join l r => join.aliasName :: (treeNames l ++ treeNames r)

/-- The relation names, aliases and CTE names of a query. -/
def usedNames (t : RaTree) : List String := treeNames t.root ++ t.ctes.flatMap treeNames

/-- The introduced names are not used in the query, and those with a number are distinct. -/
structure Fresh (used names : List String) : Prop where
  notUsed : ∀ name ∈ names, name ∉ used
  distinct : (names.filter (· ≠ "d")).Nodup

/-- The stems of the generated names. -/
def stems : List String := ["t", "cte_", "temp_"]

/-- The names introduced so far are fresh and have numbers below the counter. -/
structure Generated (used : List String) (counter : Nat) (names : List String) : Prop
    extends Fresh used names where
  numbers : ∀ name ∈ names, name ≠ "d" →
    ∃ stem ∈ stems, ∃ n < counter, name = numbered stem n

private theorem isStem_of_mem_stems {stem : String} (h : stem ∈ stems) : IsStem stem := by
  have hall : ∀ stem ∈ stems, IsStem stem := by decide
  exact hall stem h

private theorem numbered_ne_d {stem : String} (h : stem ∈ stems) (n : Nat) :
    numbered stem n ≠ "d" := by
  have hall : ∀ stem ∈ stems, stem ≠ "d" := by decide
  exact numbered_ne (isStem_of_mem_stems h) (by decide) (hall stem h) n

section

variable {used names : List String} {counter : Nat}

theorem Generated.newName (h : Generated used counter names) {stem : String} (hstem : stem ∈ stems)
    (hused : numbered stem counter ∉ used) :
    Generated used (counter + 1) (names ++ [numbered stem counter]) := by
  have hd := numbered_ne_d hstem counter
  refine ⟨⟨fun name hname => ?_, ?_⟩, fun name hname hne => ?_⟩
  · rcases List.mem_append.mp hname with hold | hnew
    · exact h.notUsed name hold
    · exact List.mem_singleton.mp hnew ▸ hused
  · rw [List.filter_append, List.nodup_append']
    refine ⟨h.distinct, (List.nodup_singleton _).filter _, fun name hold hnew => ?_⟩
    obtain ⟨hmem, hne⟩ := List.mem_filter.mp hold
    obtain ⟨stem', hstem', n, hn, heq⟩ := h.numbers name hmem (of_decide_eq_true hne)
    have hnew' : name = numbered stem counter :=
      List.mem_singleton.mp (List.mem_of_mem_filter hnew)
    have hinj := (numbered_inj (isStem_of_mem_stems hstem') (isStem_of_mem_stems hstem)).mp
      (heq.symm.trans hnew')
    omega
  · rcases List.mem_append.mp hname with hold | hnew
    · obtain ⟨stem', hstem', n, hn, heq⟩ := h.numbers name hold hne
      exact ⟨stem', hstem', n, Nat.lt_succ_of_lt hn, heq⟩
    · exact ⟨stem, hstem, counter, Nat.lt_succ_self _, List.mem_singleton.mp hnew⟩

theorem Generated.logName (h : Generated used counter names) (hused : "d" ∉ used) :
    Generated used counter (names ++ ["d"]) := by
  refine ⟨⟨fun name hname => ?_, ?_⟩, fun name hname hne => ?_⟩
  · rcases List.mem_append.mp hname with hold | hnew
    · exact h.notUsed name hold
    · exact List.mem_singleton.mp hnew ▸ hused
  · simpa [List.filter_append] using h.distinct
  · rcases List.mem_append.mp hname with hold | hnew
    · exact h.numbers name hold hne
    · exact absurd (List.mem_singleton.mp hnew) hne

variable (used)

/-- Between two steps the names are fresh. -/
def NamesFresh (s : State) : Prop := Generated used s.tree.counter s.names

/-- The name of the CTE that the next EXISTS or IN subquery becomes is not used. -/
def CteNameUnused (s : State) : Prop := numbered "cte_" s.tree.counter ∉ used

/-- The names that the next scalar subquery may introduce are not used. -/
structure ScalarNamesUnused (s : State) : Prop where
  d : "d" ∉ used
  t : numbered "t" s.tree.counter ∉ used
  temp : ∀ n, s.tree.counter < n → numbered "temp_" n ∉ used
  cte : ∀ n, s.tree.counter < n → numbered "cte_" n ∉ used

/-- The state within a round for a scalar subquery; `c` is the number of its derived table. -/
def InRound (c : Nat) (s : State) : Prop := NamesFresh used s ∧ c < s.tree.counter

variable {used}

theorem covered_of_blind {J : State → Prop} (hJ : Blind J) : Covered J := fun _ hs =>
  ⟨fun _ => True, J, hJ, ⟨fun _ _ => trivial, hs⟩, fun _ h => h.2⟩

theorem blind_inRound {c : Nat} (hd : "d" ∉ used)
    (htemp : ∀ n, c < n → numbered "temp_" n ∉ used) : Blind (InRound used c) where
  root _ _ h := h
  nextId _ _ h := h
  temp s h := ⟨h.1.newName (by decide) (htemp _ h.2), Nat.lt_succ_of_lt h.2⟩
  d s h := ⟨h.1.logName hd, h.2⟩
  casts _ _ h := h

private theorem keeps_modifyRoot' {c : Nat} (f : RaNode → RaNode) :
    Keeps (InRound used c) (modifyRoot f) := fun _ hs => hs

private theorem keeps_moveToCte_inRound {c : Nat} (hcte : ∀ n, c < n → numbered "cte_" n ∉ used)
    (join d : Nat) : Keeps (InRound used c) (moveToCte join d) := by
  refine .bind keeps_getRoot fun root => .bind (keeps_orCrash _) fun outer => ?_
  refine .bind (fun s hs => hs) fun cteId => .bind (fun s hs => ?_) fun cteName => ?_
  · exact ⟨hs.1.newName (by decide) (hcte _ hs.2), Nat.lt_succ_of_lt hs.2⟩
  refine .bind (fun s hs => hs) fun relId => .bind (keeps_modifyRoot' _) fun _ => ?_
  refine .bind (keeps_modifyRoot' _) fun _ => .bind keeps_getRoot fun root => ?_
  refine .bind (keeps_orCrash _) fun attributes => .bind (fun s hs => hs) fun _ => ?_
  exact .bind (keeps_orCrash _) fun renamed => keeps_modifyRoot' _

/-- A scalar subquery introduces names with the numbers from the counter on. -/
theorem decorrelateSubquery_fresh (fuel marker join : Nat) :
    Triple (fun s => NamesFresh used s ∧ ScalarNamesUnused used s)
      (decorrelateSubquery fuel marker join) (fun _ => NamesFresh used) (NamesFresh used) := by
  rintro s ⟨hs, hunused⟩
  have hround : InRound used s.tree.counter (outcome (newName "t") s).2 :=
    ⟨hs.newName (by decide) hunused.t, Nat.lt_succ_self _⟩
  have hkeeps := keeps_replaceSubquery (covered_of_blind (blind_inRound hunused.d hunused.temp))
    (keeps_moveToCte_inRound hunused.cte) fuel marker join (numbered "t" s.tree.counter)
  exact Triple.mono hkeeps (fun _ h => h) (fun _ _ h => h.1) (fun _ h => h.1) _ hround

/-- An EXISTS or IN subquery introduces the name of its CTE. -/
theorem decorrelateExistsInSubquery_fresh (join : Nat) :
    Triple (fun s => NamesFresh used s ∧ CteNameUnused used s)
      (decorrelateExistsInSubquery join) (fun _ => NamesFresh used) (NamesFresh used) := by
  have hstart : ∀ s, NamesFresh used s ∧ CteNameUnused used s → NamesFresh used s :=
    fun _ h => h.1
  have hcrash {α : Type} (o : Option α) :
      Triple (fun s => NamesFresh used s ∧ CteNameUnused used s) (orCrash o)
        (fun _ s => NamesFresh used s ∧ CteNameUnused used s) (NamesFresh used) :=
    (keeps_orCrash o).triple hstart
  refine .bind (keeps_get.triple hstart) fun s => ?_
  refine .bind (hcrash _) fun subqueryProjection => .bind (hcrash _) fun body => ?_
  refine .bind (hcrash _) fun r => ?_
  obtain ⟨sel, p⟩ := r
  refine .bind (hcrash _) fun ps => .bind (Q := fun _ s => NamesFresh used s ∧ CteNameUnused used s)
    (fun s hs => hs) fun cteId => ?_
  refine .bind (Q := fun _ => NamesFresh used) (fun s hs => hs.1.newName (by decide) hs.2)
    fun cteName => ?_
  -- no further name is generated
  change Keeps (NamesFresh used) _
  refine .bind (keeps_orCrash _) fun cte => .bind (fun s hs => hs) fun selId => ?_
  refine .bind (fun s hs => hs) fun relId => .bind (fun s hs => hs) fun prId => ?_
  split
  · exact .bind (fun s hs => hs) fun _ => fun s hs => hs
  · exact .bind (fun s hs => hs) fun _ => keeps_crash

/-- The condition on the rounds of the EXISTS and IN pass and of the scalar pass. -/
structure UnusedInRounds (used : List String) (fuel : Nat) (s : State) : Prop where
  existsIn : ∀ s₁, outcome pushDown s = (.ok (), s₁) →
    ExistsRounds (fun _ => CteNameUnused used) s₁
  scalar : ∀ s₁, outcome pushDown s = (.ok (), s₁) →
    ∀ s₂, outcome decorrelateAllExistsInSubqueries s₁ = (.ok (), s₂) →
      EachMarker [.dependentInnerLeft] (decorrelateSubquery fuel)
        (fun _ => ScalarNamesUnused used) s₂

theorem optimize_namesFresh (fuel : Nat) :
    Triple (fun s => NamesFresh used s ∧ UnusedInRounds used fuel s) (optimize fuel)
      (fun _ => NamesFresh used) (NamesFresh used) := by
  have hpush : Keeps (NamesFresh used) pushDown := by
    intro s hs
    rw [outcome_pushDown]
    cases h : Tree.PushDown.pushDownPredicates false s.tree with
    | none => exact hs
    | some tree =>
      have hcounter := (Tree.RelationNames.pushDownPredicates_frame h).2.1
      exact (congrArg (Generated used · s.names) hcounter).mpr hs
  have hexists : Triple (fun s => NamesFresh used s ∧ ExistsRounds (fun _ => CteNameUnused used) s)
      decorrelateAllExistsInSubqueries (fun _ => NamesFresh used) (NamesFresh used) :=
    forEachMarker_of_eachMarker (fun _ h => h) fun p join _ => decorrelateExistsInSubquery_fresh join
  have hscalar : Triple (fun s => NamesFresh used s ∧
        EachMarker [.dependentInnerLeft] (decorrelateSubquery fuel)
          (fun _ => ScalarNamesUnused used) s)
      (generalQueryUnnesting fuel) (fun _ => NamesFresh used) (NamesFresh used) :=
    forEachMarker_of_eachMarker (fun _ h => h) fun p join _ =>
      decorrelateSubquery_fresh fuel p.marker join
  let AfterPush (s₁ : State) : Prop :=
    ∃ s, UnusedInRounds used fuel s ∧ outcome pushDown s = (.ok (), s₁)
  have hpush₁ : Triple (fun s => NamesFresh used s ∧ UnusedInRounds used fuel s) pushDown
      (fun _ s₁ => NamesFresh used s₁ ∧ AfterPush s₁) (NamesFresh used) := hpush.remember _
  refine .bind hpush₁ fun _ => .bind ((hexists.remember AfterPush).pre ?_) fun _ => ?_
  · rintro s₁ ⟨hs₁, s, hrounds, h⟩
    exact ⟨⟨hs₁, hrounds.existsIn s₁ h⟩, s, hrounds, h⟩
  refine .bind (hscalar.pre ?_) fun _ => hpush
  rintro s₂ ⟨hs₂, s₁, ⟨s, hrounds, h⟩, h₂⟩
  exact ⟨hs₂, hrounds.scalar s₁ h s₂ h₂⟩

/-- No round takes a used name when the query has none of the shapes. -/
theorem unusedInRounds_of_avoids {fuel : Nat} {s : State} (hd : "d" ∉ used)
    (h : ∀ stem ∈ stems, ∀ name ∈ used, ¬ stem.toList <+: name.toList) :
    UnusedInRounds used fuel s := by
  have hnumbered (stem : String) (hstem : stem ∈ stems) (n : Nat) : numbered stem n ∉ used := by
    intro hmem
    exact h stem hstem _ hmem (by simp [numbered])
  have hscalar (s : State) : ScalarNamesUnused used s :=
    ⟨hd, hnumbered _ (by decide) _, fun n _ => hnumbered _ (by decide) n,
      fun n _ => hnumbered _ (by decide) n⟩
  exact ⟨fun s₁ _ pairs _ => eachRound_of_forall (fun _ s => hnumbered _ (by decide) _) _ _,
    fun s₁ _ s₂ _ pairs _ => eachRound_of_forall (fun _ s => hscalar s) _ _⟩

end

private def equals (l r : List String) : PgNode := .aExpr .op "=" (.columnRef l) (.columnRef r)

/-- `select * from r x where x.a = (select min(s.b) from s where s.c = x.c)` for an alias `x`. -/
def minimumFor (x : String) : PgNode :=
  .selectStmt false [.resTarget "" (.columnRef ["*"])] [.rangeVar "r" (some ⟨x, []⟩)]
    (.aExpr .op "=" (.columnRef [x, "a"]) <| .subLink .expr .nullptr <|
      .selectStmt false [.resTarget "" (.funcCall "min" [.columnRef ["s", "b"]] false false)]
        [.rangeVar "s" none] (equals ["s", "c"] [x, "c"]) [] .nullptr [] [])
    [] .nullptr [] []

end SqlOptimizer.Unnesting.FreshNames
