import SqlOptimizer.Unnesting.CteOrder

/-!
The order of the WITH list for a statement: the parser hoists the WITH queries in an order in
which references go backward, and the passes append to the list.
-/

set_option autoImplicit false
set_option relaxedAutoImplicit false

namespace SqlOptimizer.Unnesting.WithOrder

open Algebra.RelationalAlgebra
open Tree.Walks Tree.RelationNames
open Logic.NumberedNames Logic.Triples
open Parse.PgQuery Parse.Builder Parse.ParseSqlToRa Parse.Supported
open Parse.Inventory Parse.Scoping Parse.HoistedTrees Parse.WithBinding
open Objects DecorrelateSubquery CteOrder

/-- All relation names of the blocks with what they refer to. -/
def occurrences (b : Blocks) : List Occurrence := b.own ++ b.ctes.flatMap Block.occurrences

/-- The names of the base tables. -/
def baseTables (b : Blocks) : List String :=
  ((occurrences b).filter fun o => o.target.isNone).map Occurrence.name

/-- The WITH queries have distinct names, which are no names of base tables and none of the names
that are generated from the counter on. -/
structure DistinctNames (b : Blocks) (counter : Nat) : Prop where
  nodup : b.names.Nodup
  notTables : ∀ name ∈ b.names, name ∉ baseTables b
  notGenerated : ∀ name ∈ b.names, Known counter name

theorem relations_parts (t : RaNode) : relations (parts t) = ↑(relationNames t) := by
  have hnode (i : Nat) (es : List Expr) (items : List Item) :
      relations (nodeParts i es items) = ↑(items.filterMap relationName) := rfl
  induction t with
  | hole => rfl
  | leaf i op => cases op <;> rfl
  | unary i op c ih =>
    have hop : (unaryItems op).filterMap relationName = [] := by
      cases op with
      | projection pr =>
        simp only [unaryItems]
        split <;> rfl
      | _ => rfl
    simp [parts, hnode, hop, ih, relationNames]
  | join i join l r ihl ihr =>
    have hjoin : (joinItems join).filterMap relationName = [] := by
      unfold joinItems
      split
      · rfl
      · split <;> rfl
    have hmarker : relations (markerParts join) = 0 := rfl
    simp [parts, hnode, hjoin, hmarker, ihl, ihr, relationNames]

private theorem mem_relationNames {t : RaNode} {os : List Occurrence} (h : Owns (parts t) os)
    {name : String} : name ∈ relationNames t ↔ ∃ o ∈ os, o.name = name := by
  have hnames : (relationNames t : Multiset String) = ↑(os.map Occurrence.name) :=
    (relations_parts t).symm.trans h.relations
  rw [← Multiset.mem_coe, hnames, Multiset.mem_coe, List.mem_map]

/-- A relation name is that of a base table or that of a WITH query. -/
private theorem known_occurrence {b : Blocks} {counter : Nat} (h : DistinctNames b counter)
    (htables : ∀ name ∈ baseTables b, Known counter name) {o : Occurrence}
    (ho : o ∈ occurrences b) (href : RefersTo b.names [o]) : Known counter o.name := by
  cases htarget : o.target with
  | none =>
    refine htables o.name (List.mem_map.mpr ⟨o, List.mem_filter.mpr ⟨ho, ?_⟩, rfl⟩)
    simp [htarget]
  | some j =>
    exact h.notGenerated o.name (List.mem_of_getElem? (href o List.mem_cons_self j htarget))

/-- The parser hands over an ordered WITH list. -/
theorem ordered_ofParser {stmt : PgNode} {t : RaNode} {s : ParserState} (h : isSelect stmt = true)
    (hgood : isBuildable stmt = true) (hparse : parse stmt = some (t, s))
    (hnames : DistinctNames (blocks stmt [] 0) s.counter)
    (htables : ∀ name ∈ baseTables (blocks stmt [] 0), Known s.counter name) :
    Ordered (ofParser t s) := by
  obtain ⟨hctes, howns⟩ := parse_hoists h hgood hparse
  have hback := backward_blocks stmt [] [] (by simp [Consistent])
  generalize hb : blocks stmt [] [].length = b at hback
  have hb' : blocks stmt [] 0 = b := hb
  rw [hb'] at hctes howns hnames htables
  have hblock (cte : RaNode) (i : Nat) (hi : s.ctes[i]? = some cte) :
      ∃ block, b.ctes[i]? = some block ∧ IsCte cte block := by
    obtain ⟨hlt, rfl⟩ := List.getElem?_eq_some_iff.mp hi
    have hi' : i < b.ctes.length := hctes.length_eq ▸ hlt
    exact ⟨b.ctes.get ⟨i, hi'⟩, List.getElem?_eq_getElem hi', hctes.get _ _⟩
  have hrefs (i : Nat) (block : Block) (hi : b.ctes[i]? = some block) (o : Occurrence)
      (ho : o ∈ block.occurrences) (k : Nat) (hk : o.target = some k) :
      (b.names.take i)[k]? = some o.name := by
    simpa using hback.ctes i block hi o ho k hk
  have hknown (i : Nat) (block : Block) (hi : b.ctes[i]? = some block) (o : Occurrence)
      (ho : o ∈ block.occurrences) : Known s.counter o.name := by
    refine known_occurrence hnames htables
      (List.mem_append_right _ (List.mem_flatMap.mpr ⟨block, List.mem_of_getElem? hi, ho⟩)) ?_
    rintro o' ho' k hk
    obtain rfl := List.mem_singleton.mp ho'
    have htake := hrefs i block hi o' ho k hk
    rw [List.getElem?_take] at htake
    split at htake
    · exact htake
    · cases htake
  have hname (i : Nat) (block : Block) (hi : b.ctes[i]? = some block) :
      b.names[i]? = some block.name := by
    simp [Blocks.names, hi]
  refine ⟨fun name hmem => ?_, ⟨fun cte hcte => ?_, fun i j cte cte' hi hj hmem => ?_⟩⟩
  · obtain ⟨o, ho, rfl⟩ := (mem_relationNames howns).mp hmem
    refine known_occurrence hnames htables (List.mem_append_left _ ho) ?_
    rintro o' ho' k hk
    obtain rfl := List.mem_singleton.mp ho'
    simpa using hback.own o' ho k hk
  · obtain ⟨i, hi⟩ := List.getElem?_of_mem hcte
    obtain ⟨block, hib, hiscte⟩ := hblock cte i hi
    refine ⟨?_, fun name hmem => ?_⟩
    · rw [cteName_eq hiscte]
      exact hnames.notGenerated _ (List.mem_of_getElem? (hname i block hib))
    · obtain ⟨o, ho, rfl⟩ := (mem_relationNames hiscte.2).mp hmem
      exact hknown i block hib o ho
  · obtain ⟨block, hib, hiscte⟩ := hblock cte i hi
    obtain ⟨block', hjb, hiscte'⟩ := hblock cte' j hj
    obtain ⟨o, ho, heq⟩ := (mem_relationNames hiscte.2).mp hmem
    rw [cteName_eq hiscte'] at heq
    cases htarget : o.target with
    | none =>
      -- the name would be that of a base table and of a WITH query
      refine absurd (List.mem_map.mpr ⟨o, List.mem_filter.mpr ⟨?_, by simp [htarget]⟩, heq⟩)
        (hnames.notTables _ (List.mem_of_getElem? (hname j block' hjb)))
      exact List.mem_append_right _ (List.mem_flatMap.mpr ⟨block, List.mem_of_getElem? hib, ho⟩)
    | some k =>
      have htake := hrefs i block hib o ho k htarget
      rw [List.getElem?_take, heq, ← hname j block' hjb] at htake
      split at htake
      · next hlt =>
        have hj' : j < b.names.length := by
          have := (List.getElem?_eq_some_iff.mp (hname j block' hjb)).1
          exact this
        have hkj : k = j := ((List.getElem?_inj hj' hnames.nodup).mp htake.symm).symm
        omega
      · rw [hname j block' hjb] at htake
        cases htake

/-- What `optimize` does to the WITH list of a statement whose base tables have no generated CTE
names: it stays in order when no EXISTS or IN subquery is rewritten inside a CTE. -/
theorem optimize_backwardReferences {stmt : PgNode} {t : RaNode} {s : ParserState}
    (h : isSelect stmt = true) (hgood : isBuildable stmt = true)
    (hparse : parse stmt = some (t, s)) (hnames : DistinctNames (blocks stmt [] 0) s.counter)
    (htables : ∀ name ∈ baseTables (blocks stmt [] 0), Known s.counter name)
    (hrounds : ∀ s₁, outcome pushDown (ofParser t s) = (.ok (), s₁) →
      ExistsRounds JoinOutsideCtes s₁)
    {fuel : Nat} {s' : State} (hrun : outcome (optimize fuel) (ofParser t s) = (.ok (), s')) :
    BackwardReferences s'.tree.ctes :=
  (optimize_ordered (ordered_ofParser h hgood hparse hnames htables) hrounds hrun).2.backward

/-- A name that does not start like a generated one. -/
private theorem known_of_not_prefix {c : Nat} {name : String}
    (h : ¬ "cte_".toList <+: name.toList) : Known c name := by
  rintro n - rfl
  exact h (by simp [numbered])

private def select (items : List PgNode) (condition : PgNode) : PgNode :=
  .selectStmt false [.resTarget "" (.columnRef ["*"])] items condition [] .nullptr [] []

private def equals (l r : List String) : PgNode := .aExpr .op "=" (.columnRef l) (.columnRef r)

/-- `select * from r where exists (select * from s where exists (select * from u where u.x = s.x)
and s.y = r.y)`. -/
def nestedExists : PgNode :=
  select [.rangeVar "r" none] <| .subLink .exists .nullptr <|
    select [.rangeVar "s" none] <| .boolExpr .and
      [.subLink .exists .nullptr <|
        select [.rangeVar "u" none] (equals ["u", "x"] ["s", "x"]),
        equals ["s", "y"] ["r", "y"]]

theorem nestedExists_backwardReferences : ∃ t s s', parse nestedExists = some (t, s) ∧
    outcome (optimize 0) (ofParser t s) = (.ok (), s') ∧ BackwardReferences s'.tree.ctes := by
  obtain ⟨s', hs'⟩ := Option.isSome_iff_exists.mp
    (by decide +kernel : (rewritten nestedExists 0).isSome = true)
  obtain ⟨t, s, hparse, hrun⟩ := rewritten_eq_some.mp hs'
  have htables : ∀ name ∈ baseTables (blocks nestedExists [] 0), Known s.counter name := by
    have hnames : ∀ name ∈ baseTables (blocks nestedExists [] 0),
        ¬ "cte_".toList <+: name.toList := by decide +kernel
    exact fun name hname => known_of_not_prefix (hnames name hname)
  have hempty : (blocks nestedExists [] 0).names = [] := by decide +kernel
  have hrounds : ∀ p ∈ parse nestedExists, ∀ s₁,
      outcome pushDown (ofParser p.1 p.2) = (.ok (), s₁) → ExistsRounds JoinOutsideCtes s₁ := by
    decide +kernel
  exact ⟨t, s, s', hparse, hrun, optimize_backwardReferences (by decide) (by decide) hparse
    ⟨by simp [hempty], by simp [hempty], by simp [hempty]⟩ htables (hrounds (t, s) hparse) hrun⟩

/-- `select * from r where exists (select * from s marker_1 where exists (select * from u where
u.x = marker_1.x) and marker_1.y = r.y)`. -/
def markerAlias : PgNode :=
  select [.rangeVar "r" none] <| .subLink .exists .nullptr <|
    select [.rangeVar "s" (some ⟨"marker_1", []⟩)] <| .boolExpr .and
      [.subLink .exists .nullptr <|
        select [.rangeVar "u" none] (equals ["u", "x"] ["marker_1", "x"]),
        equals ["marker_1", "y"] ["r", "y"]]

/-- The first CTE refers to the second one. -/
theorem markerAlias_forwardReference : ∃ t s s', parse markerAlias = some (t, s) ∧
    DistinctNames (blocks markerAlias [] 0) s.counter ∧
    outcome (optimize 0) (ofParser t s) = (.ok (), s') ∧ ¬ BackwardReferences s'.tree.ctes := by
  have hforward : (rewritten markerAlias 0).any (fun s' => s'.tree.ctes[0]?.any fun cte =>
      s'.tree.ctes[1]?.any fun cte' => cteName cte' ∈ relationNames cte) = true := by
    decide +kernel
  cases hs' : rewritten markerAlias 0 with
  | none => simp [hs'] at hforward
  | some s' =>
    obtain ⟨t, s, hparse, hrun⟩ := rewritten_eq_some.mp hs'
    have hempty : (blocks markerAlias [] 0).names = [] := by decide +kernel
    refine ⟨t, s, s', hparse, ⟨by simp [hempty], by simp [hempty], by simp [hempty]⟩, hrun, ?_⟩
    intro hback
    rw [hs', Option.any_some, Option.any_eq_true] at hforward
    obtain ⟨cte, hcte, hforward⟩ := hforward
    rw [Option.any_eq_true] at hforward
    obtain ⟨cte', hcte', hforward⟩ := hforward
    have hlt := hback 0 1 cte cte' hcte hcte' (by simpa using hforward)
    omega

end SqlOptimizer.Unnesting.WithOrder
