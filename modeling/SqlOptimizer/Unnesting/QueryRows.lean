import SqlOptimizer.Semantics.RowShape
import SqlOptimizer.Unnesting.CteOrder

/-!
The rows of a query with its WITH list. Each WITH query is a table for the WITH queries after it
and for the main query.
-/

set_option autoImplicit false
set_option relaxedAutoImplicit false

namespace SqlOptimizer.Unnesting.QueryRows

open Algebra.RelationalAlgebra
open Tree.Walks Tree.RelationNames
open Parse.WithBinding (cteName)
open Semantics.Evaluation Semantics.References Semantics.RowShape

variable {V : Type} [DecidableEq V] (I : Interpretation V)

/-- The names and the values of the columns of a row. -/
def columnNamesOf (row : Row V) : List String := (starColumns "" row).map Prod.fst

def columnValuesOf (row : Row V) : List (Option V) := (starColumns "" row).map Prod.snd

/-- All rows of a tree have the names of its row of NULLs. -/
theorem columnNamesOf_mem {db : Database V} {t : RaNode} {env : Row V} {s : Tuple V}
    (hs : s ∈ evaluate db I t env) : columnNamesOf s.row = columnNamesOf (nullRow db t) := by
  have hshape := starColumns_erase "" s.row
  rw [shape_evaluate db I t env s hs] at hshape
  rw [columnNamesOf, columnNamesOf, ← hshape, eraseColumns, List.map_map]
  rfl

/-- The table that a tree stands for outside any other query. -/
def tableOf (db : Database V) (t : RaNode) : Table V where
  columns := columnNamesOf (nullRow db t)
  rows := (evaluate db I t []).map fun s => columnValuesOf s.row
  rectangular := by
    intro r hr
    obtain ⟨s, hs, rfl⟩ := List.mem_map.mp hr
    rw [← columnNamesOf_mem I hs, columnValuesOf, columnNamesOf, List.length_map, List.length_map]

/-- A WITH query hides a table of its name. -/
def withTable (db : Database V) (cte : RaNode) : Database V :=
  Function.update db (cteName cte) (tableOf I db cte)

/-- The tables that the main query reads. -/
def withTables (db : Database V) (ctes : List RaNode) : Database V := ctes.foldl (withTable I) db

/-- The rows of a query. -/
def queryRows (db : Database V) (t : RaTree) : List (Tuple V) :=
  evaluate (withTables I db t.ctes) I t.root []

theorem withTables_concat (db : Database V) (ctes : List RaNode) (cte : RaNode) :
    withTables I db (ctes ++ [cte]) = withTable I (withTables I db ctes) cte := by
  rw [withTables, List.foldl_append]
  rfl

section

variable {db db' : Database V} {t : RaNode}

omit [DecidableEq V] in
/-- A tree depends on the tables that it names. -/
theorem nullRow_tables (h : ∀ name ∈ relationNames t, db name = db' name) :
    nullRow db t = nullRow db' t := by
  induction t with
  | hole => rfl
  | leaf i op =>
    cases op with
    | relation name a => rw [nullRow, nullRow, h name (List.mem_singleton_self name)]
    | values vs a column => rfl
    | dummy => rfl
  | unary i op c ih =>
    have hc := ih h
    cases op with
    | projection pr => rw [nullRow, nullRow, hc]
    | _ => exact hc
  | join i join l r ihl ihr =>
    simp only [relationNames, List.forall_mem_append] at h
    rw [nullRow, nullRow, ihl h.1, ihr h.2]

variable {I} in
theorem evaluate_tables (h : ∀ name ∈ relationNames t, db name = db' name) (env : Row V) :
    evaluate db I t env = evaluate db' I t env := by
  induction t generalizing env with
  | hole => rfl
  | leaf i op =>
    cases op with
    | relation name a => rw [evaluate, evaluate, h name (List.mem_singleton_self name)]
    | values vs a column => rfl
    | dummy => rfl
  | unary i op c ih =>
    have hnull : nullRow db c = nullRow db' c := nullRow_tables h
    have hc := ih h env
    cases op with
    | groupBy args implicit => cases implicit <;> simp only [evaluate, hc, hnull]
    | _ => simp only [evaluate, hc]
  | join i join l r ihl ihr =>
    simp only [relationNames, List.forall_mem_append] at h
    have hl := ihl h.1
    have hr := ihr h.2
    simp only [evaluate, hl, hr, nullRow_tables h.1, nullRow_tables h.2]

end

/-- The rows of a WITH query, where it is read. -/
theorem evaluate_withTable (db : Database V) (cte : RaNode) (i : Nat) (a : String) (env : Row V) :
    evaluate (withTable I db cte) I (.relation i (cteName cte) a) env =
      (evaluate db I cte []).map fun s =>
        ⟨[.source (qualifier (cteName cte) a) (starColumns "" s.row)], []⟩ := by
  have htable : withTable I db cte (cteName cte) = tableOf I db cte := Function.update_self ..
  rw [evaluate, htable, tableOf, List.map_map]
  refine List.map_congr_left fun s hs => ?_
  have hzip : (columnNamesOf (nullRow db cte)).zip (columnValuesOf s.row) =
      starColumns "" s.row := by
    rw [← columnNamesOf_mem I hs, columnNamesOf, columnValuesOf, List.zip_map']
    exact List.map_id _
  rw [Function.comp_apply, hzip]

/-- A WITH query whose name a tree does not mention. -/
theorem withTable_of_ne (db : Database V) {cte : RaNode} {name : String} (h : name ≠ cteName cte) :
    withTable I db cte name = db name := Function.update_of_ne h ..

theorem evaluate_withTable_of_notMem {db : Database V} {cte t : RaNode}
    (h : cteName cte ∉ relationNames t) (env : Row V) :
    evaluate (withTable I db cte) I t env = evaluate db I t env :=
  evaluate_tables (fun _ hname => withTable_of_ne I db fun heq => h (heq ▸ hname)) env

end SqlOptimizer.Unnesting.QueryRows
