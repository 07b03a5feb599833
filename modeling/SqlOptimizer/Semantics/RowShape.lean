import SqlOptimizer.Semantics.References

/-!
All rows of a tree have the bindings of its row of NULLs, with other values. So the
names that a tree offers do not depend on the rows that it yields.
-/

set_option autoImplicit false
set_option relaxedAutoImplicit false

namespace SqlOptimizer.Semantics.RowShape

open Algebra.RelationalAlgebra
open Logic.NestedLoops Logic.ThreeValued
open Evaluation References

variable {V : Type}

/-- Columns without their values. -/
def eraseColumns (cs : List (String × Option V)) : List (String × Option V) :=
  cs.map fun c => (c.1, none)

theorem eraseColumns_eq (cs : List (String × Option V)) :
    eraseColumns cs = (cs.map Prod.fst).map fun c => (c, none) := by
  rw [eraseColumns, List.map_map]
  rfl

theorem starColumns_erase (a : String) (row : Row V) :
    eraseColumns (starColumns a row) = starColumns a (row.map erase) := by
  simp only [eraseColumns, starColumns, List.map_flatMap, List.flatMap_map]
  refine List.flatMap_congr fun b _ => ?_
  cases b with
  | source q cs => by_cases h : a = "" ∨ q = a <;> simp [erase, h]
  | subquery m v h => rfl

private theorem selectColumn_erase (val : Expr → Option V) (row : Row V) (e : Expr) :
    eraseColumns (selectColumn val row e) = selectColumn (fun _ => none) (row.map erase) e := by
  unfold selectColumn
  split
  · exact starColumns_erase _ row
  · exact starColumns_erase _ row
  · rfl

private theorem renameColumns_erase (names : List String) (cs : List (String × Option V)) :
    eraseColumns (renameColumns names cs) = renameColumns names (eraseColumns cs) := by
  unfold renameColumns
  split
  · rfl
  · have hsnd : (eraseColumns cs).map Prod.snd = (cs.map Prod.snd).map fun _ => none := by
      simp only [eraseColumns, List.map_map]
      rfl
    rw [hsnd, List.zip_map_right (f := fun _ => none), eraseColumns]
    rfl

private theorem projectRow_erase (pr : Projection) (val : Expr → Option V) (row : Row V) :
    (projectRow pr val row).map erase = projectRow pr (fun _ => none) (row.map erase) := by
  simp only [projectRow, List.map_cons, List.map_nil, erase, List.cons.injEq, Binding.source.injEq,
    true_and, and_true]
  have hflat : eraseColumns (pr.args.flatMap (selectColumn val row)) =
      pr.args.flatMap (selectColumn (fun _ => none) (row.map erase)) := by
    rw [eraseColumns, List.map_flatMap]
    exact List.flatMap_congr fun e _ => selectColumn_erase val row e
  rw [← eraseColumns, renameColumns_erase, hflat]

private theorem renameJoin_erase (join : Join) (row : Row V) :
    (renameJoin join row).map erase = renameJoin join (row.map erase) := by
  unfold renameJoin
  split
  · simp only [List.map_cons, List.map_nil, erase, List.cons.injEq, Binding.source.injEq, true_and,
      and_true]
    rw [← eraseColumns, renameColumns_erase, starColumns_erase]
  · rfl

variable (db : Database V)

/-- The row of NULLs has no values. -/
theorem nullRow_erase (t : RaNode) : (nullRow db t).map erase = nullRow db t := by
  induction t with
  | hole => rfl
  | leaf i op =>
    cases op with
    | relation name a => simp [nullRow, erase]
    | values vs a column => rfl
    | dummy => rfl
  | unary i op c ih =>
    cases op with
    | projection pr => rw [nullRow, projectRow_erase, ih]
    | _ => exact ih
  | join i join l r ihl ihr =>
    rw [nullRow, renameJoin_erase]
    refine congrArg _ ?_
    split
    · rw [List.map_append, ihl]
      rfl
    · split <;> simp only [List.map_append, ihl, ihr]

variable [DecidableEq V] (I : Interpretation V)

omit [DecidableEq V] in
private theorem shape_beside {a b : Tuple V} {x y : Row V} (ha : a.row.map erase = x)
    (hb : b.row.map erase = y) : (beside a b).row.map erase = x ++ y := by
  rw [beside, List.map_append, ha, hb]

omit [DecidableEq V] in
private theorem shape_matching {on : Tuple V → Bool} {x y : Row V} {r : List (Tuple V)}
    {a : Tuple V} (ha : a.row.map erase = x) (hr : ∀ t ∈ r, t.row.map erase = y) :
    ∀ t ∈ matching beside on r a, t.row.map erase = x ++ y := by
  intro t ht
  obtain ⟨s, hs, rfl⟩ := List.mem_map.mp (List.mem_filter.mp ht).1
  exact shape_beside ha (hr s hs)

omit [DecidableEq V] in
private theorem shape_leftJoin {on : Tuple V → Bool} {x y : Row V} {l r : List (Tuple V)}
    (hl : ∀ t ∈ l, t.row.map erase = x) (hr : ∀ t ∈ r, t.row.map erase = y)
    (hy : y.map erase = y) :
    ∀ t ∈ leftJoin beside (beside · ⟨y, []⟩) on l r, t.row.map erase = x ++ y := by
  intro t ht
  obtain ⟨a, ha, ht⟩ := List.mem_flatMap.mp ht
  split at ht
  · cases List.mem_singleton.mp ht
    exact shape_beside (hl a ha) hy
  · exact shape_matching (hl a ha) hr t ht

/-- Every row of a tree has the shape of its row of NULLs. -/
theorem shape_evaluate (t : RaNode) (env : Row V) :
    ∀ s ∈ evaluate db I t env, s.row.map erase = nullRow db t := by
  induction t generalizing env with
  | hole => simp [evaluate]
  | leaf i op =>
    cases op with
    | relation name a =>
      intro s hs
      obtain ⟨r, hr, rfl⟩ := List.mem_map.mp hs
      have hzip : eraseColumns ((db name).columns.zip r) =
          (db name).columns.map fun c => (c, none) := by
        rw [eraseColumns_eq, List.map_fst_zip ((db name).rectangular r hr).ge]
      simp only [List.map_cons, List.map_nil, erase, nullRow]
      rw [← hzip, eraseColumns]
    | values vs a column =>
      intro s hs
      obtain ⟨v, hv, rfl⟩ := List.mem_map.mp hs
      rfl
    | dummy =>
      intro s hs
      cases List.mem_singleton.mp hs
      rfl
  | unary i op c ih =>
    have hgroup {ts : List (Tuple V)} (hts : ∀ s ∈ ts, s ∈ evaluate db I c env) :
        (groupTuple (nullRow db c) ts).row.map erase = nullRow db c := by
      cases ts with
      | nil => exact nullRow_erase db c
      | cons s ts => exact ih env s (hts s List.mem_cons_self)
    cases op with
    | root => exact ih env
    | projection pr =>
      intro s hs
      have hs' : s ∈ (evaluate db I c env).map fun t =>
          (⟨projectRow pr (value I (t.context env)) t.row, []⟩ : Tuple V) := by
        rw [evaluate] at hs
        split at hs
        · exact List.mem_dedup.mp hs
        · exact hs
      obtain ⟨t, ht, rfl⟩ := List.mem_map.mp hs'
      rw [projectRow_erase, ih env t ht, nullRow]
    | selection p => exact fun s hs => ih env s (List.mem_filter.mp hs).1
    | orderBy args directions => exact ih env
    | groupBy args implicit =>
      cases implicit with
      | true =>
        intro s hs
        cases List.mem_singleton.mp hs
        exact hgroup fun _ h => h
      | false =>
        intro s hs
        obtain ⟨ts, hts, rfl⟩ := List.mem_map.mp hs
        obtain ⟨k, -, rfl⟩ := List.mem_map.mp hts
        exact hgroup fun _ h => (List.mem_filter.mp h).1
    | having p => exact fun s hs => ih env s (List.mem_filter.mp hs).1
  | join i join l r ihl ihr =>
    intro s hs
    obtain ⟨t, ht, rfl⟩ := List.mem_map.mp hs
    rw [renameTuple, renameJoin_erase, nullRow]
    refine congrArg _ ?_
    by_cases hm : join.marker ≠ 0
    · rw [if_pos hm] at ht ⊢
      obtain ⟨a, ha, rfl⟩ := List.mem_map.mp ht
      exact shape_beside (ihl env a ha) rfl
    · rw [if_neg hm] at ht ⊢
      have hleft := @shape_leftJoin _ (satisfies I env join.predicate) _ _ _ _ (ihl env) (ihr env)
        (nullRow_erase db r)
      cases htype : join.type with
      | crossProduct | inner =>
        simp only [htype] at ht ⊢
        obtain ⟨a, ha, ht⟩ := List.mem_flatMap.mp ht
        exact shape_matching (ihl env a ha) (ihr env) t ht
      | dependentInnerLeft =>
        simp only [htype] at ht ⊢
        obtain ⟨a, ha, ht⟩ := List.mem_flatMap.mp ht
        exact shape_matching (ihl env a ha) (ihr _) t ht
      | left =>
        simp only [htype] at ht ⊢
        exact hleft t ht
      | fullOuter =>
        simp only [htype] at ht ⊢
        rcases List.mem_append.mp ht with ht | ht
        · exact hleft t ht
        · obtain ⟨b, hb, rfl⟩ := List.mem_map.mp ht
          exact shape_beside (nullRow_erase db l) (ihr env b (List.mem_filter.mp hb).1)
      | _ =>
        simp only [htype] at ht ⊢
        exact ihl env t ht

end SqlOptimizer.Semantics.RowShape
