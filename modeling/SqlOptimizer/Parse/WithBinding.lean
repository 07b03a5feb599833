import SqlOptimizer.Parse.HoistedTrees

/-!
What hoisting does to the relation names of a statement. `deparse` prints one WITH list,
in the order of the CTEs, before the main tree; a relation of the printed statement refers
to an earlier WITH query of its name, and to a base table if there is none.
-/

set_option autoImplicit false
set_option relaxedAutoImplicit false

namespace SqlOptimizer.Parse.WithBinding

open Algebra.RelationalAlgebra
open PgQuery Builder ParseSqlToRa Inventory Supported Scoping HoistedTrees

/-- The name under which `deparse_ctes` prints a CTE. -/
def cteName : RaNode → String
  | .projection _ pr _ => pr.subqueryAlias
  | _ => ""

/-- The relation names of a tree that is printed after the first `i` WITH queries. -/
def printedOccurrences (names : List String) (i : Nat) (t : RaNode) : Multiset Occurrence :=
  (relations (parts t)).map fun name => ⟨name, printedTarget names i name⟩

/-- The printed statement is accepted, and all its relation names refer to what they refer
to in `stmt`. -/
structure PreservesBinding (stmt : PgNode) (root : RaNode) (ctes : List RaNode) : Prop where
  distinct : (ctes.map cteName).Nodup
  root : printedOccurrences (ctes.map cteName) ctes.length root = ↑(blocks stmt [] 0).own
  ctes : ∀ i cte block, ctes[i]? = some cte → (blocks stmt [] 0).ctes[i]? = some block →
    printedOccurrences (ctes.map cteName) i cte = ↑block.occurrences

/-- The WITH queries of a statement have distinct names, and no base table has the name of
a WITH query that is hoisted before the place of its own block. -/
structure Uncaptured (b : Blocks) : Prop where
  distinct : b.names.Nodup
  own : NoCapture b.names b.ctes.length b.own
  ctes : ∀ i block, b.ctes[i]? = some block → NoCapture b.names i block.occurrences

/-- The occurrences of a block are printed as they are exactly when all of them keep their
targets. -/
private theorem printedOccurrences_eq_iff {t : RaNode} {os : List Occurrence} (h : Owns (parts t) os)
    (names : List String) (i : Nat) :
    printedOccurrences names i t = ↑os ↔ KeepsTargets names i os := by
  rw [printedOccurrences, h.relations, Multiset.map_coe, List.map_map]
  constructor
  · intro hprinted o ho
    have hmem : o ∈ (↑os : Multiset Occurrence) := Multiset.mem_coe.mpr ho
    rw [← hprinted] at hmem
    obtain ⟨o', -, rfl⟩ := List.mem_map.mp (Multiset.mem_coe.mp hmem)
    rfl
  · intro hkeep
    congr 1
    refine (List.map_congr_left fun o ho => ?_).trans (List.map_id os)
    rw [Function.comp_apply, hkeep o ho]
    rfl

theorem cteName_eq {t : RaNode} {block : Block} (h : IsCte t block) :
    cteName t = block.name := by
  obtain ⟨⟨i, pr, c, rfl, hname⟩, -⟩ := h
  exact hname

private theorem preservesBinding_iff_of_hoists {stmt : PgNode} {t : RaNode} {ctes : List RaNode}
    (hctes : List.Forall₂ IsCte ctes (blocks stmt [] 0).ctes)
    (howns : Owns (parts t) (blocks stmt [] 0).own) :
    PreservesBinding stmt t ctes ↔ Uncaptured (blocks stmt [] 0) := by
  have hback := backward_blocks stmt [] [] (by simp [Consistent])
  generalize hb : blocks stmt [] [].length = b at hback
  have hb' : blocks stmt [] 0 = b := hb
  rw [hb'] at hctes howns
  have hnames : ctes.map cteName = b.names := by
    refine List.ext_getElem (by simp [Blocks.names, hctes.length_eq]) fun i hi hi' => ?_
    simp only [Blocks.names, List.getElem_map]
    exact cteName_eq (hctes.get _ _)
  have hlength : b.names.length = b.ctes.length := by simp [Blocks.names]
  have hroot (hnodup : b.names.Nodup) :
      printedOccurrences b.names ctes.length t = ↑b.own ↔ NoCapture b.names b.ctes.length b.own := by
    rw [printedOccurrences_eq_iff howns, hctes.length_eq, keepsTargets_iff hnodup]
    rw [List.take_of_length_le (by omega)]
    simpa using hback.own
  have hcte (hnodup : b.names.Nodup) (i : Nat) (cte : RaNode) (block : Block)
      (hi : ctes[i]? = some cte) (hi' : b.ctes[i]? = some block) :
      printedOccurrences b.names i cte = ↑block.occurrences ↔
        NoCapture b.names i block.occurrences := by
    have hcte : IsCte cte block := by
      obtain ⟨hlt, rfl⟩ := List.getElem?_eq_some_iff.mp hi
      obtain ⟨hlt', rfl⟩ := List.getElem?_eq_some_iff.mp hi'
      exact hctes.get hlt hlt'
    rw [printedOccurrences_eq_iff hcte.2, keepsTargets_iff hnodup]
    simpa using hback.ctes i block hi'
  constructor
  · rintro ⟨hdistinct, hroot', hctes'⟩
    rw [hnames, hb'] at *
    refine ⟨hdistinct, (hroot hdistinct).mp hroot', fun i block hi => ?_⟩
    have hlt : i < ctes.length := hctes.length_eq ▸ (List.getElem?_eq_some_iff.mp hi).1
    have hi' : ctes[i]? = some ctes[i] := List.getElem?_eq_getElem hlt
    exact (hcte hdistinct i _ block hi' hi).mp (hctes' i _ block hi' hi)
  · rintro ⟨hdistinct, hown, hocc⟩
    refine ⟨hnames ▸ hdistinct, ?_, fun i cte block hi hi' => ?_⟩
    · rw [hnames, hb']
      exact (hroot hdistinct).mpr hown
    · rw [hb'] at hi'
      rw [hnames]
      exact (hcte hdistinct i cte block hi hi').mpr (hocc i block hi')

/-- `with x as (select * from r) select * from (with y as (select * from x) select * from y) d,
(select * from x) e`. -/
def nestedWith : PgNode :=
  let select := fun items ctes => PgNode.selectStmt false
    [.resTarget "" (.columnRef ["*"])] items .nullptr [] .nullptr [] ctes
  let table := fun name => PgNode.rangeVar name none
  select
    [.rangeSubselect (select [table "y"] [.commonTableExpr "y" [] (select [table "x"] [])]) ⟨"d", []⟩,
      .rangeSubselect (select [table "x"] []) ⟨"e", []⟩]
    [.commonTableExpr "x" [] (select [table "r"] [])]

/-- `select * from (with r as (select * from s) select * from r) d, r`. -/
def shadowedTable : PgNode :=
  let select := fun items ctes => PgNode.selectStmt false
    [.resTarget "" (.columnRef ["*"])] items .nullptr [] .nullptr [] ctes
  let table := fun name => PgNode.rangeVar name none
  select
    [.rangeSubselect (select [table "r"] [.commonTableExpr "r" [] (select [table "s"] [])]) ⟨"d", []⟩,
      table "r"]
    []

end SqlOptimizer.Parse.WithBinding
