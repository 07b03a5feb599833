import SqlOptimizer.Semantics.FreeReads
import SqlOptimizer.Semantics.Equivalence

/-!
Trees whose rows differ in one binding at the end. Operators that read neither the one binding nor
the other one keep this up to the next projection, whose rows are the same.
-/

set_option autoImplicit false
set_option relaxedAutoImplicit false

namespace SqlOptimizer.Semantics.ExchangedRows

open Algebra.RelationalAlgebra
open Tree.Frames
open Logic.NestedLoops
open Semantics.Evaluation Semantics.References Semantics.Equivalence
open Semantics.FreeReads

variable {V : Type}

/-- The row ends with bindings of the shape `old`, the other one with bindings of the shape
`new`. -/
def EndsExchanged (old new : Row V) (r r' : Row V) : Prop :=
  ∃ x b b', r = x ++ b ∧ r' = x ++ b' ∧ b.map erase = old ∧ b'.map erase = new

/-- So do the rows, and the members of the groups that they stand for. -/
structure Exchanged (old new : Row V) (t t' : Tuple V) : Prop where
  row : EndsExchanged old new t.row t'.row
  members : List.Forall₂ (EndsExchanged old new) t.members t'.members

/-- Rows and rows of NULLs of the two trees differ in the binding at the end. -/
structure Exchanges [DecidableEq V] (db : Database V) (I : Interpretation V) (old new : Row V)
    (x y : RaNode) : Prop where
  rows : ∀ env, List.Forall₂ (Exchanged old new) (evaluate db I x env) (evaluate db I y env)
  padding : EndsExchanged old new (nullRow db x) (nullRow db y)

/-- The expressions read neither of the bindings. -/
def ReadsNeither (old new : Row V) (es : List Expr) : Prop :=
  ∀ q ∈ allReferences es, ¬ Offers old q ∧ ¬ Offers new q

/-- The operators up to the next projection read neither of the bindings, and the projection names
its columns. -/
def IgnoredBy (old new : Row V) : List Frame → Prop
  | .unary _ (.projection pr) :: _ =>
      (∀ e ∈ pr.args, FreeReads.isStar e = false) ∧ ReadsNeither old new pr.args
  | .unary _ op :: K => ReadsNeither old new (operatorExprs op) ∧ IgnoredBy old new K
  | _ => False

section

variable {old new : Row V} {es : List Expr}

private theorem EndsExchanged.agree {r r' env : Row V} (h : EndsExchanged old new r r')
    (hes : ReadsNeither old new es) : Agree (allReferences es) (r ++ env) (r' ++ env) := by
  obtain ⟨x, b, b', rfl, rfl, rfl, rfl⟩ := h
  intro q hq
  obtain ⟨hold, hnew⟩ := hes q hq
  rw [offers_erase] at hold hnew
  rw [List.append_assoc, List.append_assoc]
  refine lookup_append_congr ?_
  rw [lookup_append_left hold, lookup_append_left hnew]

variable {t t' : Tuple V} (env : Row V)

private theorem Exchanged.agree_row (h : Exchanged old new t t') (hes : ReadsNeither old new es)
    {e : Expr} (he : e ∈ es) :
    ContextAgree (references e) ⟨t.row ++ env, []⟩ ⟨t'.row ++ env, []⟩ :=
  ⟨(h.row.agree hes).mono fun _ hq => mem_allReferences he hq, .nil⟩

private theorem Exchanged.agree_context (h : Exchanged old new t t')
    (hes : ReadsNeither old new es) {e : Expr} (he : e ∈ es) :
    ContextAgree (references e) (t.context env) (t'.context env) := by
  refine ⟨(h.row.agree hes).mono fun _ hq => mem_allReferences he hq, ?_⟩
  rw [Tuple.context, Tuple.context, List.forall₂_map_left_iff, List.forall₂_map_right_iff]
  exact h.members.imp fun _ _ hm => (hm.agree hes).mono fun _ hq => mem_allReferences he hq

/-- A projection without stars has the same row for both. -/
private theorem projectRow_exchanged {pr : Projection} {f g : Expr → Option V} {r r' : Row V}
    (hstar : ∀ e ∈ pr.args, FreeReads.isStar e = false) (h : ∀ e ∈ pr.args, f e = g e) :
    projectRow pr f r = projectRow pr g r' := by
  have hcolumn : ∀ e ∈ pr.args, selectColumn f r e = selectColumn g r' e := by
    intro e he
    have hstar := hstar e he
    unfold selectColumn
    split
    · cases hstar
    · cases hstar
    · rw [h e he]
  rw [projectRow, projectRow, List.flatMap_congr hcolumn]

end

section

variable {old new : Row V}

private theorem forall₂_filter {R : Tuple V → Tuple V → Prop} {p q : Tuple V → Bool}
    {l l' : List (Tuple V)} (h : List.Forall₂ R l l') (hpq : ∀ t t', R t t' → p t = q t') :
    List.Forall₂ R (l.filter p) (l'.filter q) :=
  List.rel_filter (fun t t' ht => by simp only [hpq t t' ht]) h

private theorem forall₂_groups {κ : Type} [DecidableEq κ] {R : Tuple V → Tuple V → Prop}
    {f g : Tuple V → κ} {l l' : List (Tuple V)} (h : List.Forall₂ R l l')
    (hkey : ∀ t t', R t t' → f t = g t') :
    List.Forall₂ (List.Forall₂ R) (groups f l) (groups g l') := by
  have hkeys : l.map f = l'.map g := by
    induction h with
    | nil => rfl
    | cons ht _ ih => rw [List.map_cons, List.map_cons, hkey _ _ ht, ih]
  rw [groups, groups, hkeys, List.forall₂_map_left_iff, List.forall₂_map_right_iff,
    List.forall₂_same]
  exact fun k _ => forall₂_filter h fun t t' ht => by rw [hkey t t' ht]

private theorem exchanged_groupTuple {r r' : Row V} {ts ts' : List (Tuple V)}
    (hdefault : EndsExchanged old new r r') (h : List.Forall₂ (Exchanged old new) ts ts') :
    Exchanged old new (groupTuple r ts) (groupTuple r' ts') := by
  constructor
  · cases h with
    | nil => exact hdefault
    | cons ht _ => exact ht.row
  · rw [groupTuple, groupTuple, List.forall₂_map_left_iff, List.forall₂_map_right_iff]
    exact h.imp fun _ _ ht => ht.row

variable [DecidableEq V] {db : Database V} {I : Interpretation V} {x y : RaNode}

/-- Below an operator that reads neither of the bindings. -/
private theorem Exchanges.unary (h : Exchanges db I old new x y) {op : UnaryOp} (i : Nat)
    (hop : ∀ pr, op ≠ .projection pr) (hreads : ReadsNeither old new (operatorExprs op)) :
    Exchanges db I old new (.unary i op x) (.unary i op y) := by
  cases op with
  | root => exact ⟨h.rows, h.padding⟩
  | orderBy args directions => exact ⟨h.rows, h.padding⟩
  | projection pr => exact absurd rfl (hop pr)
  | selection p =>
    refine ⟨fun env => ?_, h.padding⟩
    refine forall₂_filter (h.rows env) fun t t' ht => ?_
    have htruth := (determined I p).truth (ht.agree_row env hreads (List.mem_singleton_self p))
    rw [satisfies, satisfies, truth, truth, htruth]
  | having p =>
    refine ⟨fun env => ?_, h.padding⟩
    refine forall₂_filter (h.rows env) fun t t' ht => ?_
    have htruth := (determined I p).truth (ht.agree_context env hreads (List.mem_singleton_self p))
    rw [truth, truth, htruth]
  | groupBy args implicit =>
    cases implicit with
    | true =>
      exact ⟨fun env => .cons (exchanged_groupTuple h.padding (h.rows env)) .nil, h.padding⟩
    | false =>
      refine ⟨fun env => ?_, h.padding⟩
      rw [evaluate, evaluate, List.forall₂_map_left_iff, List.forall₂_map_right_iff]
      refine (forall₂_groups (h.rows env) fun t t' ht => ?_).imp fun _ _ hts =>
        exchanged_groupTuple h.padding hts
      refine List.map_congr_left fun e he => ?_
      exact (determined I e).value (ht.agree_row env hreads he)

/-- Below a projection that reads neither of the bindings. -/
private theorem Exchanges.projection (h : Exchanges db I old new x y) {pr : Projection} (i : Nat)
    (hstar : ∀ e ∈ pr.args, FreeReads.isStar e = false) (hreads : ReadsNeither old new pr.args) :
    Equivalent db I (.projection i pr x) (.projection i pr y) := by
  refine ⟨fun env => ?_, projectRow_exchanged hstar fun _ _ => rfl⟩
  have hrows : (evaluate db I x env).map (fun t =>
        (⟨projectRow pr (value I (t.context env)) t.row, []⟩ : Tuple V)) =
      (evaluate db I y env).map fun t => ⟨projectRow pr (value I (t.context env)) t.row, []⟩ := by
    rw [← List.forall₂_eq_eq_eq, List.forall₂_map_left_iff, List.forall₂_map_right_iff]
    refine (h.rows env).imp fun t t' ht => congrArg (Tuple.mk · []) ?_
    exact projectRow_exchanged hstar fun e he =>
      (determined I e).value (ht.agree_context env hreads he)
  rw [evaluate, evaluate, hrows]

/-- What reads neither of the bindings does not see which of them is there. -/
theorem Exchanges.plug (h : Exchanges db I old new x y) {K : List Frame}
    (hK : IgnoredBy old new K) : Equivalent db I (plug K x) (plug K y) := by
  induction K generalizing x y with
  | nil => exact hK.elim
  | cons f K ih =>
    cases f with
    | left i join r => exact hK.elim
    | right i join l => exact hK.elim
    | unary i op =>
      cases op with
      | projection pr => exact (h.projection i hK.1 hK.2).plug K
      | _ => exact ih (h.unary i (fun _ => UnaryOp.noConfusion) hK.1) hK.2

end

end SqlOptimizer.Semantics.ExchangedRows
