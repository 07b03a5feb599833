import SqlOptimizer.Semantics.References
import SqlOptimizer.Unnesting.LiftedConjuncts

/-!
The rows of the CTE that an EXISTS or IN subquery becomes. A row has the inner attributes of
the correlating predicates only, under the name of the CTE; what the selection from it compares
and selects is read from there.
-/

set_option autoImplicit false
set_option relaxedAutoImplicit false

namespace SqlOptimizer.Unnesting.CteRows

open Algebra.RelationalAlgebra
open Tree.Walks
open Logic.NumberedNames Logic.ThreeValued Logic.Triples
open Semantics.Evaluation Semantics.References
open Parse.PgQuery
open Objects Attributes ExistsIn DecorrelateSubquery FirstSelection LiftedConjuncts

variable {V : Type}

/-- The value of an attribute. -/
def attributeValue (scope : Row V) (a : AttributeRef) : Option V :=
  (lookup scope (.column a.1 a.2)).1

/-- The column names of the CTE. -/
def columnNames (qs : List CorrelatingPredicate) : List String := qs.map fun q => q.inner.1

/-- The columns of the CTE for a row of the subquery. -/
def cteColumns (qs : List CorrelatingPredicate) (scope : Row V) : List (String × Option V) :=
  qs.map fun q => (q.inner.1, attributeValue scope q.inner)

/-- The row of the CTE for a row of the subquery. -/
def cteRow (cteName : String) (qs : List CorrelatingPredicate) (scope : Row V) : Row V :=
  [.source cteName (cteColumns qs scope)]

/-- It is the row that the projection of the CTE gives. -/
theorem projectRow_cteProjectionOf [DecidableEq V] (I : Interpretation V) (cteName : String)
    {qs : List CorrelatingPredicate} (h : "*" ∉ columnNames qs) (row env : Row V) :
    projectRow (cteProjectionOf cteName qs) (value I ⟨row ++ env, []⟩) row =
      cteRow cteName qs (row ++ env) := by
  have hone (q : CorrelatingPredicate) (hq : q ∈ qs) :
      selectColumn (value I ⟨row ++ env, []⟩) row (.attribute q.inner.1 q.inner.2) =
        [(q.inner.1, attributeValue (row ++ env) q.inner)] := by
    have hne : q.inner.1 ≠ "*" := fun heq => h (heq ▸ List.mem_map_of_mem hq)
    unfold selectColumn
    split
    · next heq => cases heq
    · next heq => exact absurd (Expr.attribute.inj heq).1 hne
    · rfl
  have hcolumns : (cteProjectionOf cteName qs).args.flatMap
      (selectColumn (value I ⟨row ++ env, []⟩) row) = cteColumns qs (row ++ env) := by
    rw [cteProjectionOf, cteColumns, List.flatMap_map]
    clear h
    induction qs with
    | nil => rfl
    | cons q qs ih =>
      rw [List.forall_mem_cons] at hone
      rw [List.flatMap_cons, List.map_cons, hone.1, ih hone.2]
      rfl
  have hzip : (columnNames qs).zip ((cteColumns qs (row ++ env)).map Prod.snd) =
      cteColumns qs (row ++ env) := by
    rw [columnNames, cteColumns, List.map_map, List.zip_map']
    rfl
  rw [projectRow, hcolumns, renameColumns]
  split
  · rfl
  · exact congrArg (fun cs => [Binding.source cteName cs]) hzip

/-- A column of the CTE that has its name alone. -/
theorem lookup_cteColumns {qs : List CorrelatingPredicate} {q : CorrelatingPredicate} (hq : q ∈ qs)
    (hone : (columnNames qs).count q.inner.1 = 1) (scope : Row V) :
    (cteColumns qs scope).lookup q.inner.1 = some (attributeValue scope q.inner) := by
  induction qs with
  | nil => cases hq
  | cons q' qs ih =>
    rw [columnNames, List.map_cons, List.count_cons] at hone
    rw [cteColumns, List.map_cons, List.lookup_cons]
    rcases List.mem_cons.mp hq with rfl | hq
    · simp
    · have hpos : 0 < (columnNames qs).count q.inner.1 :=
        List.count_pos_iff.mpr (List.mem_map_of_mem hq)
      have hne : q'.inner.1 ≠ q.inner.1 := by
        intro heq
        rw [heq, beq_self_eq_true, if_pos rfl] at hone
        exact absurd hone (by rw [columnNames] at hpos; omega)
      have hbeq : (q'.inner.1 == q.inner.1) = false := by simpa using hne
      have hbeq' : (q.inner.1 == q'.inner.1) = false := by simpa using Ne.symm hne
      rw [hbeq, if_neg Bool.false_ne_true, Nat.add_zero] at hone
      rw [hbeq']
      exact ih hq hone

section

variable {cteName : String} {qs : List CorrelatingPredicate} (scope env : Row V)

/-- An attribute with the name of the CTE as qualifier. -/
theorem attributeValue_cteRow (hname : cteName ≠ "") (x : String) :
    attributeValue (cteRow cteName qs scope ++ env) (x, cteName) =
      ((cteColumns qs scope).lookup x).join := by
  simp [attributeValue, cteRow, lookup, resolve, hname]

/-- An attribute without a qualifier that is a column of the CTE. -/
theorem attributeValue_cteRow_unqualified {x : String} {v : Option V}
    (h : (cteColumns qs scope).lookup x = some v) :
    attributeValue (cteRow cteName qs scope ++ env) (x, "") = v := by
  simp [attributeValue, cteRow, lookup, resolve, h]

/-- An attribute that is no column of the CTE. -/
theorem attributeValue_cteRow_outer {a : AttributeRef} (hname : a.2 ≠ cteName)
    (ha : a.2 = "" → a.1 ∉ columnNames qs) :
    attributeValue (cteRow cteName qs scope ++ env) a = attributeValue env a := by
  have hnot : ¬ Offers (cteRow cteName qs scope) (.column a.1 a.2) := by
    rintro ⟨b, hb, hsome⟩
    obtain rfl := List.mem_singleton.mp hb
    by_cases hempty : a.2 = ""
    · have hnone : (cteColumns qs scope).lookup a.1 = none := by
        rw [List.lookup_eq_none_iff]
        intro c hc
        obtain ⟨q, hq, rfl⟩ := List.mem_map.mp hc
        have hne : a.1 ≠ q.inner.1 := fun heq =>
          ha hempty (heq ▸ List.mem_map_of_mem hq)
        simpa using hne
      simp [resolve, hempty, hnone] at hsome
    · simp [resolve, hempty, Ne.symm hname] at hsome
  rw [attributeValue, attributeValue, lookup_append_left hnot]

end

end SqlOptimizer.Unnesting.CteRows
