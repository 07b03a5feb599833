import SqlOptimizer.Parse.PgQuery
import Mathlib.Data.List.Nodup

/-!
What the relation names of a statement refer to. A WITH query is visible in the WITH
queries after it and in the statement below its clause, also in nested statements, unless
a nearer WITH query has the same name. The parser hoists all WITH queries into one list,
in the order in which it meets them; a reference is written as a place in that list.
-/

set_option autoImplicit false
set_option relaxedAutoImplicit false

namespace SqlOptimizer.Parse.Scoping

open PgQuery

/-- A relation name with the place of the WITH query that it refers to; a base table has
none. -/
structure Occurrence where
  name : String
  target : Option Nat
  deriving DecidableEq, Repr

/-- A hoisted WITH query with the relation names of its body. -/
structure Block where
  name : String
  occurrences : List Occurrence
  deriving DecidableEq, Repr

/-- The WITH queries that a node hoists, and the relation names outside of them. -/
structure Blocks where
  ctes : List Block := []
  own : List Occurrence := []
  deriving DecidableEq, Repr

/-- The visible WITH queries with their places, the nearest first. -/
abbrev Scope := List (String × Nat)

def Blocks.names (b : Blocks) : List String := b.ctes.map Block.name

/-- One node after another; the argument is the number of WITH queries hoisted before. -/
def seq (x y : Nat → Blocks) (k : Nat) : Blocks :=
  { ctes := (x k).ctes ++ (y (k + (x k).ctes.length)).ctes
    own := (x k).own ++ (y (k + (x k).ctes.length)).own }

mutual

/-- The blocks of a node in a scope. Expressions of supported statements hold none. -/
def blocks : PgNode → Scope → Nat → Blocks
  | .rangeVar relname _, sc, _ => { own := [⟨relname, sc.lookup relname⟩] }
  | .rangeSubselect subquery _, sc, k => blocks subquery sc k
  | .joinExpr _ larg rarg _ _, sc, k => seq (blocks larg sc) (blocks rarg sc) k
  | .boolExpr _ args, sc, k => allBlocks args sc k
  | .aExpr _ _ lexpr rexpr, sc, k => seq (blocks lexpr sc) (blocks rexpr sc) k
  | .subLink _ _ subselect, sc, k => blocks subselect sc k
  | .selectStmt _ _ fromClause whereClause _ havingClause _ withClause, sc, k =>
      let w := withBlocks withClause sc k
      let body := seq (blocks havingClause w.2)
        (seq (blocks whereClause w.2) (allBlocks fromClause w.2)) (k + w.1.length)
      { ctes := w.1 ++ body.ctes, own := body.own }
  | _, _, _ => {}

def allBlocks : List PgNode → Scope → Nat → Blocks
  | [], _, _ => {}
  | n :: ns, sc, k => seq (blocks n sc) (allBlocks ns sc) k

/-- The blocks of a WITH clause, and the scope of the statement below it. -/
def withBlocks : List PgNode → Scope → Nat → List Block × Scope
  | [], sc, _ => ([], sc)
  | .commonTableExpr ctename _ ctequery :: ns, sc, k =>
      let b := blocks ctequery sc k
      let place := k + b.ctes.length
      let rest := withBlocks ns ((ctename, place) :: sc) (place + 1)
      (b.ctes ++ ⟨ctename, b.own⟩ :: rest.1, rest.2)
  | _ :: ns, sc, k => withBlocks ns sc k

end

/-- The place of the WITH query that a relation name refers to in the printed statement,
where the names before the place `i` are visible. -/
def printedTarget (names : List String) (i : Nat) (name : String) : Option Nat :=
  (names.take i).idxOf? name

/-- Every reference of an occurrence is a place in the list, under the same name. -/
def RefersTo (names : List String) (os : List Occurrence) : Prop :=
  ∀ o ∈ os, ∀ j, o.target = some j → names[j]? = some o.name

/-- The places in a scope are right. -/
def Consistent (names : List String) (sc : Scope) : Prop :=
  ∀ p ∈ sc, names[p.2]? = some p.1

/-- The blocks refer to the WITH queries before them; `names` are those hoisted before. -/
structure Backward (names : List String) (b : Blocks) : Prop where
  own : RefersTo (names ++ b.names) b.own
  ctes : ∀ i block, b.ctes[i]? = some block →
    RefersTo (names ++ b.names.take i) block.occurrences

section

variable {names : List String} {a b : Blocks}

theorem RefersTo.append {os : List Occurrence} (h : RefersTo names os) (more : List String) :
    RefersTo (names ++ more) os := by
  intro o ho j hj
  have hname := h o ho j hj
  rw [List.getElem?_append_left (List.getElem?_eq_some_iff.mp hname).1]
  exact hname

theorem Consistent.append {sc : Scope} (h : Consistent names sc) (more : List String) :
    Consistent (names ++ more) sc := by
  intro p hp
  have hname := h p hp
  rw [List.getElem?_append_left (List.getElem?_eq_some_iff.mp hname).1]
  exact hname

theorem Backward.nil (names : List String) : Backward names {} :=
  ⟨by simp [RefersTo], by simp⟩

/-- The WITH queries of one node come before those of the next. -/
private theorem Backward.concat (ha : Backward names a) (hb : Backward (names ++ a.names) b) :
    Backward names ⟨a.ctes ++ b.ctes, a.own ++ b.own⟩ := by
  have hnames : Blocks.names ⟨a.ctes ++ b.ctes, a.own ++ b.own⟩ = a.names ++ b.names := by
    simp [Blocks.names]
  refine ⟨?_, fun i block hi => ?_⟩
  · rw [hnames, ← List.append_assoc]
    intro o ho
    rcases List.mem_append.mp ho with ho | ho
    · exact ha.own.append b.names o ho
    · exact hb.own o ho
  · rw [hnames]
    have hlength : a.names.length = a.ctes.length := by simp [Blocks.names]
    rcases Nat.lt_or_ge i a.ctes.length with hlt | hge
    · rw [List.take_append_of_le_length (by omega)]
      exact ha.ctes i block (by rwa [List.getElem?_append_left hlt] at hi)
    · rw [List.getElem?_append_right hge] at hi
      rw [List.take_append, List.take_of_length_le (hlength ▸ hge), hlength, ← List.append_assoc]
      exact hb.ctes _ block hi

theorem Backward.seq {x y : Nat → Blocks} (hx : Backward names (x names.length))
    (hy : ∀ more : List String, Backward (names ++ more) (y (names ++ more).length)) :
    Backward names (seq x y names.length) := by
  have h := hy (x names.length).names
  rw [List.length_append, show (x names.length).names.length = (x names.length).ctes.length by
    simp [Blocks.names]] at h
  exact hx.concat h

/-- A statement becomes a WITH query. -/
private theorem Backward.cte (h : Backward names b) (name : String) :
    Backward names ⟨b.ctes ++ [⟨name, b.own⟩], []⟩ := by
  have hnames : Blocks.names ⟨b.ctes ++ [⟨name, b.own⟩], []⟩ = b.names ++ [name] := by
    simp [Blocks.names]
  have hlength : b.names.length = b.ctes.length := by simp [Blocks.names]
  refine ⟨by simp [RefersTo], fun i block hi => ?_⟩
  rw [hnames]
  rcases Nat.lt_or_ge i b.ctes.length with hlt | hge
  · rw [List.take_append_of_le_length (by omega)]
    exact h.ctes i block (by rwa [List.getElem?_append_left hlt] at hi)
  · obtain rfl : i = b.ctes.length := by
      have hlt := (List.getElem?_eq_some_iff.mp hi).1
      simp only [List.length_append, List.length_singleton] at hlt
      omega
    simp only [List.getElem?_concat_length, Option.some.injEq] at hi
    subst hi
    rw [List.take_append_of_le_length (by omega), List.take_of_length_le (by omega)]
    exact h.own

/-- What is to be shown for a node. -/
def RefersBackward (n : PgNode) : Prop :=
  ∀ names sc, Consistent names sc → Backward names (blocks n sc names.length)

private theorem backward_allBlocks {ns : List PgNode} (ih : ∀ n ∈ ns, RefersBackward n)
    (names : List String) {sc : Scope} (hsc : Consistent names sc) :
    Backward names (allBlocks ns sc names.length) := by
  induction ns generalizing names with
  | nil => exact .nil names
  | cons n ns ihns =>
    rw [List.forall_mem_cons] at ih
    exact .seq (ih.1 names sc hsc) fun more => ihns ih.2 (names ++ more) (hsc.append more)

/-- A WITH query refers to those before it, and becomes visible after it. -/
private theorem backward_withBlocks {ns : List PgNode}
    (ih : ∀ n ∈ ns, ∀ name cols query, n = .commonTableExpr name cols query → RefersBackward query)
    (names : List String) {sc : Scope} (hsc : Consistent names sc) :
    Backward names ⟨(withBlocks ns sc names.length).1, []⟩ ∧
      Consistent (names ++ (withBlocks ns sc names.length).1.map Block.name)
        (withBlocks ns sc names.length).2 := by
  induction ns generalizing names sc with
  | nil => exact ⟨.nil names, by simpa [withBlocks] using hsc⟩
  | cons n ns ihns =>
    rw [List.forall_mem_cons] at ih
    cases n with
    | commonTableExpr name cols query =>
      have hquery := ih.1 name cols query rfl names sc hsc
      simp only [withBlocks]
      generalize blocks query sc names.length = b at hquery ⊢
      have hsc' : Consistent (names ++ (b.names ++ [name]))
          ((name, names.length + b.ctes.length) :: sc) := by
        intro p hp
        rcases List.mem_cons.mp hp with rfl | hp
        · simp [Blocks.names]
        · exact hsc.append _ p hp
      have hlength : (names ++ (b.names ++ [name])).length = names.length + b.ctes.length + 1 := by
        simp [Blocks.names, Nat.add_assoc]
      obtain ⟨hrest, hscope⟩ := ihns ih.2 _ hsc'
      rw [hlength] at hrest hscope
      generalize withBlocks ns _ _ = rest at hrest hscope ⊢
      have hconcat := (hquery.cte name).concat (b := ⟨rest.1, []⟩)
        (by simpa [Blocks.names] using hrest)
      exact ⟨by simpa using hconcat, by simpa [Blocks.names] using hscope⟩
    | _ => exact ihns ih.2 names hsc

/-- References point backwards in the list of hoisted WITH queries. -/
theorem backward_blocks (n : PgNode) : RefersBackward n := by
  have hplain (names : List String) : Backward names {} := .nil names
  suffices h : RefersBackward n ∧
      ∀ name cols query, n = .commonTableExpr name cols query → RefersBackward query from h.1
  induction n using PgNode.ind with
  | rangeVar relname a =>
    refine ⟨fun names sc hsc => ⟨?_, by simp [blocks]⟩, nofun⟩
    intro o ho j hj
    obtain rfl := List.mem_singleton.mp ho
    obtain ⟨l₁, l₂, rfl, -⟩ := List.lookup_eq_some_iff.mp hj
    simpa [Blocks.names, blocks] using hsc (relname, j) (by simp)
  | rangeSubselect subquery a ih => exact ⟨ih.1, nofun⟩
  | joinExpr type larg rarg quals a ihl ihr =>
    exact ⟨fun names sc hsc => .seq (ihl.1 names sc hsc) fun more =>
      ihr.1 _ _ (hsc.append more), nofun⟩
  | boolExpr op args ih =>
    exact ⟨fun names sc hsc => backward_allBlocks (fun n hn => (ih n hn).1) names hsc, nofun⟩
  | aExpr kind name lexpr rexpr ihl ihr =>
    exact ⟨fun names sc hsc => .seq (ihl.1 names sc hsc) fun more =>
      ihr.1 _ _ (hsc.append more), nofun⟩
  | subLink type testexpr subselect iht ihs => exact ⟨ihs.1, nofun⟩
  | commonTableExpr name cols query ih =>
    refine ⟨fun names sc hsc => hplain names, fun _ _ _ h => ?_⟩
    cases h
    exact ih.1
  | selectStmt distinct targetList fromClause whereClause groupClause havingClause sortClause
      withClause iht ihf ihw ihg ihh ihs ihc =>
    refine ⟨fun names sc hsc => ?_, nofun⟩
    obtain ⟨hwith, hscope⟩ := backward_withBlocks (fun n hn => (ihc n hn).2) names hsc
    simp only [blocks]
    generalize withBlocks withClause sc names.length = w at hwith hscope ⊢
    have hbody : Backward (names ++ w.1.map Block.name) (seq (blocks havingClause w.2)
        (seq (blocks whereClause w.2) (allBlocks fromClause w.2))
        (names ++ w.1.map Block.name).length) := by
      refine .seq (ihh.1 _ _ hscope) fun more => ?_
      refine .seq (ihw.1 _ _ (hscope.append more)) fun more' => ?_
      exact backward_allBlocks (fun n hn => (ihf n hn).1) _ ((hscope.append more).append more')
    have hlength : (names ++ w.1.map Block.name).length = names.length + w.1.length := by simp
    rw [hlength] at hbody
    simpa using hwith.concat hbody
  | _ => exact ⟨fun names sc hsc => hplain names, nofun⟩

end

/-- The occurrences refer to the same WITH queries in the printed statement, at the place
`i` of its WITH list. -/
def KeepsTargets (names : List String) (i : Nat) (os : List Occurrence) : Prop :=
  ∀ o ∈ os, printedTarget names i o.name = o.target

/-- No base table has the name of a WITH query before the place `i`. -/
def NoCapture (names : List String) (i : Nat) (os : List Occurrence) : Prop :=
  ∀ o ∈ os, o.target = none → o.name ∉ names.take i

/-- With distinct names, a reference to an earlier WITH query is kept; only a base table
can get another meaning. -/
theorem keepsTargets_iff {names : List String} (hnames : names.Nodup) {i : Nat}
    {os : List Occurrence} (hos : RefersTo (names.take i) os) :
    KeepsTargets names i os ↔ NoCapture names i os := by
  refine forall₂_congr fun o ho => ?_
  rw [printedTarget]
  cases htarget : o.target with
  | none => simp [List.idxOf?_eq_none_iff]
  | some j =>
    have hj := hos o ho j htarget
    obtain ⟨hlt, hname⟩ := List.getElem?_eq_some_iff.mp hj
    have hnodup : (names.take i).Nodup := hnames.sublist (List.take_sublist i names)
    have hfirst : (names.take i).idxOf? o.name = some j := by
      refine List.idxOf?_eq_some_iff.mpr ⟨hlt, hname, fun k hk heq => ?_⟩
      have hkj := hnodup.getElem_inj_iff.mp (heq.trans hname.symm)
      omega
    simp [hfirst]

end SqlOptimizer.Parse.Scoping
