import SqlOptimizer.Logic.Prefixes
import SqlOptimizer.Unnesting.DecorrelateSubquery
import SqlOptimizer.Unnesting.FirstSelection

/-!
The conjuncts that the rewriting of an EXISTS or IN subquery moves out of it. It counts the
correlating predicates and takes as many conjuncts from the front.
-/

set_option autoImplicit false
set_option relaxedAutoImplicit false

namespace SqlOptimizer.Unnesting.LiftedConjuncts

open Algebra.RelationalAlgebra
open Tree.Addresses Tree.Frames Tree.Walks
open Logic.NumberedNames Logic.Prefixes Logic.Triples
open Parse.PgQuery
open Objects Attributes Markers ExistsIn DecorrelateSubquery FirstSelection

section

variable (relationsAliases : List (String × String))

/-- The correlating predicate that a conjunct is, if it is one. -/
def correlatingConjunct : Expr → Option CorrelatingPredicate
  | .predicate l r op => isCorrelatingPredicate relationsAliases l r op
  | _ => none

def isCorrelatingConjunct (e : Expr) : Bool := (correlatingConjunct relationsAliases e).isSome

/-- No correlating predicate occurs in the conjunct. -/
def IsLocal (e : Expr) : Prop := getCorrelatingPredicates relationsAliases e = some []

instance (e : Expr) : Decidable (IsLocal relationsAliases e) :=
  inferInstanceAs (Decidable (_ = some []))

end

section

variable {relationsAliases : List (String × String)}

theorem getCorrelatingPredicates_conjunct {e : Expr} {q : CorrelatingPredicate}
    (h : correlatingConjunct relationsAliases e = some q) :
    getCorrelatingPredicates relationsAliases e = some [q] := by
  cases e with
  | predicate l r op =>
    have h' : isCorrelatingPredicate relationsAliases l r op = some q := h
    cases l with
    | «attribute» n a =>
      cases r with
      | «attribute» n' a' => simp [getCorrelatingPredicates, h']
      | _ => cases h
    | _ => cases h
  | _ => cases h

theorem correlatingConjunct_of_isLocal {e : Expr} (h : IsLocal relationsAliases e) :
    correlatingConjunct relationsAliases e = none := by
  cases hq : correlatingConjunct relationsAliases e with
  | none => rfl
  | some q =>
    rw [IsLocal, getCorrelatingPredicates_conjunct hq] at h
    cases h

/-- A conjunction of correlating and local conjuncts. -/
theorem getAllCorrelatingPredicates_conjuncts {args : List Expr}
    (h : ∀ e ∈ args, isCorrelatingConjunct relationsAliases e = true ∨
      IsLocal relationsAliases e) :
    getAllCorrelatingPredicates relationsAliases args =
      some (args.filterMap (correlatingConjunct relationsAliases)) := by
  induction args with
  | nil => rfl
  | cons e args ih =>
    rw [List.forall_mem_cons] at h
    rw [getAllCorrelatingPredicates, ih h.2]
    rcases h.1 with hcor | hlocal
    · obtain ⟨q, hq⟩ := Option.isSome_iff_exists.mp hcor
      simp [getCorrelatingPredicates_conjunct hq, hq]
    · have hnone := correlatingConjunct_of_isLocal hlocal
      have hget : getCorrelatingPredicates relationsAliases e = some [] := hlocal
      simp [hget, hnone]

theorem length_filterMap_conjuncts (args : List Expr) :
    (args.filterMap (correlatingConjunct relationsAliases)).length =
      args.countP (isCorrelatingConjunct relationsAliases) := by
  rw [List.length_filterMap_eq_countP]
  rfl

end

/-- The right child of a join. -/
def subqueryOf (join : Nat) (s : State) : Option RaNode :=
  (findObject s.tree join).bind fun j => j.childNodes[1]?

/-- The subquery of a join with its first Selection. -/
structure SubqueryAt (join : Nat) (s : State) (i : Nat) (pr : Projection) (body : RaNode)
    (sel : Nat) (p : Expr) : Prop where
  subquery : subqueryOf join s = some (.projection i pr body)
  addressed : Addressed s.tree.nextId (.projection i pr body)
  selection : getFirstSelection body = some (sel, p)

/-- The subquery of a join with its first Selection, where there is one. -/
def subqueryParts (join : Nat) (s : State) : Option (Nat × Projection × RaNode × Nat × Expr) :=
  (subqueryOf join s).bind fun q =>
    match q with
    | .projection i pr body => (getFirstSelection body).map fun x => (i, pr, body, x.1, x.2)
    | _ => none

theorem subqueryParts_eq_some {join : Nat} {s : State} {i : Nat} {pr : Projection} {body : RaNode}
    {sel : Nat} {p : Expr} : subqueryParts join s = some (i, pr, body, sel, p) ↔
      subqueryOf join s = some (.projection i pr body) ∧ getFirstSelection body = some (sel, p) := by
  simp only [subqueryParts, Option.bind_eq_some_iff]
  constructor
  · rintro ⟨q, hq, h⟩
    split at h
    · obtain ⟨⟨sel, p⟩, hsel, heq⟩ := Option.map_eq_some_iff.mp h
      cases heq
      exact ⟨hq, hsel⟩
    · cases h
  · rintro ⟨hq, hsel⟩
    exact ⟨_, hq, by simp [hsel]⟩

section

variable {join : Nat} {s s' : State}

private theorem findObject_update {f : RaNode → RaNode} {j : RaNode} {cte : RaNode}
    (hf : ∀ t, t.id? = some join → (f t).id? = some join) {t : RaTree}
    (h : findObject s.tree join = some j) (hroot : t.root = update join f s.tree.root)
    (hctes : t.ctes = s.tree.ctes.map (update join f) ++ [cte]) :
    findObject t join = some (f j) := by
  have hmap (ts : List RaNode) :
      (ts.map (update join f)).findSome? (find? join) = (ts.findSome? (find? join)).map f := by
    induction ts with
    | nil => rfl
    | cons u us ih =>
      rw [List.map_cons, List.findSome?_cons, List.findSome?_cons, find?_update hf]
      cases find? join u with
      | none => exact ih
      | some x => rfl
  rw [findObject, hroot, hctes, find?_update hf, List.findSome?_append, hmap]
  rcases Option.or_eq_some_iff.mp h with h | ⟨hnone, h⟩
  · rw [h]
    rfl
  · rw [hnone, h]
    rfl

/-- The selection from the CTE is the new right child. -/
theorem subqueryOf_result {w : Rewriting} (hw : w.Applies join s) :
    subqueryOf join (w.result join s) = some (w.probeTree s) := by
  obtain ⟨j, hj, hright⟩ := Option.bind_eq_some_iff.mp hw.subquery
  have hkeeps : ∀ t : RaNode, t.id? = some join → (setRight (w.probeTree s) t).id? = some join := by
    intro t ht
    cases t <;> exact ht
  rw [subqueryOf, findObject_update hkeeps hj rfl rfl]
  cases j with
  | join k join' l r => cases l <;> cases r <;> first | rfl | cases hright
  | unary k op c => cases c <;> cases hright
  | _ => cases hright

/-- The rewriting of the subquery that leaves `rest` of the condition of its first Selection. -/
def rewritingTo (s : State) (i : Nat) (pr : Projection) (K : List Frame) (sel : Nat) (p : Expr)
    (c : RaNode) (qs : List CorrelatingPredicate) (rest : Option Expr) : Rewriting where
  projectionId := i
  projection := pr
  body := plug K (.selection sel p c)
  selection := sel
  predicate := p
  correlating := qs
  cte := .projection s.tree.nextId (cteProjectionOf (numbered "cte_" s.tree.counter) qs)
    (plug K (leftOver sel c rest))

private theorem isHole_plug {K : List Frame} {t : RaNode} (ht : t.isHole = false) :
    (plug K t).isHole = false := by
  induction K generalizing t with
  | nil => exact ht
  | cons f K ih => exact ih (by cases f <;> rfl)

section

variable {i : Nat} {pr : Projection} {K : List Frame} {sel : Nat} {p : Expr} {c : RaNode}
  (h : SubqueryAt join s i pr (plug K (.selection sel p c)) sel p)
  {qs : List CorrelatingPredicate}
  (hqs : getCorrelatingPredicates (getRelationsAliases (plug K (.selection sel p c))) p = some qs)

include h hqs

theorem SubqueryAt.applies {rest : Option Expr} (hrest : remainingPredicate p qs.length = some rest)
    (hremovable : rest = none → Removable sel (.projection i pr (plug K (.selection sel p c)))) :
    (rewritingTo s i pr K sel p c qs rest).Applies join s where
  subquery := h.subquery
  body := isHole_plug rfl
  selection := h.selection
  correlating := hqs
  cte := by
    have hfresh : s.tree.nextId ∉ (plug K (.selection sel p c)).ids := fun hmem =>
      Nat.lt_irrefl _ (h.addressed.fresh _ (List.mem_cons_of_mem _ hmem))
    exact (removeCorrelatingPredicates_iff h.addressed.distinct hfresh).mpr
      ⟨rest, hrest, hremovable, rfl⟩

/-- What a call on the subquery does. -/
theorem SubqueryAt.run_iff : outcome (decorrelateExistsInSubquery join) s = (.ok (), s') ↔
    ∃ rest, remainingPredicate p qs.length = some rest ∧
      (rest = none → Removable sel (.projection i pr (plug K (.selection sel p c)))) ∧
      s' = (rewritingTo s i pr K sel p c qs rest).result join s := by
  have hfresh : s.tree.nextId ∉ (plug K (.selection sel p c)).ids := fun hmem =>
    Nat.lt_irrefl _ (h.addressed.fresh _ (List.mem_cons_of_mem _ hmem))
  rw [decorrelateExistsInSubquery_eq_ok]
  constructor
  · rintro ⟨w, hw, rfl⟩
    have hsub := h.subquery.symm.trans hw.subquery
    simp only [Option.some.injEq, RaNode.unary.injEq, UnaryOp.projection.injEq] at hsub
    obtain ⟨hi, hpr, hbody⟩ := hsub
    have hfirst := h.selection.symm.trans (hbody ▸ hw.selection)
    simp only [Option.some.injEq, Prod.mk.injEq] at hfirst
    obtain ⟨hsel, hp⟩ := hfirst
    have hcor : qs = w.correlating := by
      have hget := hw.correlating
      rw [← hbody, ← hp] at hget
      exact Option.some.inj (hqs.symm.trans hget)
    have hcte := hw.cte
    rw [← hbody, ← hsel, ← hp, ← hcor] at hcte
    obtain ⟨rest, hrest, hremovable, heq⟩ :=
      (removeCorrelatingPredicates_iff h.addressed.distinct hfresh).mp hcte
    refine ⟨rest, hrest, hremovable, ?_⟩
    cases w
    subst hi hpr hbody hsel hp hcor heq
    rfl
  · rintro ⟨rest, hrest, hremovable, rfl⟩
    exact ⟨_, h.applies hqs hrest hremovable, rfl⟩

end

end

/-- The rewriting of a run that has been evaluated. -/
theorem exists_applies {join : Nat} {s : State} {x : Nat × Projection × RaNode × Nat × Expr}
    (hrun : (outcome (decorrelateExistsInSubquery join) s).1.toOption.isSome = true)
    (hx : x ∈ subqueryParts join s) :
    ∃ w : Rewriting, w.Applies join s ∧ w.projection = x.2.1 ∧ w.body = x.2.2.1 ∧
      w.predicate = x.2.2.2.2 := by
  obtain ⟨i, pr, body, sel, p⟩ := x
  obtain ⟨hsub, hsel⟩ := subqueryParts_eq_some.mp hx
  cases hout : outcome (decorrelateExistsInSubquery join) s with
  | mk r s' =>
    rw [hout] at hrun
    cases r with
    | error e => cases hrun
    | ok u =>
      obtain ⟨w, hw, -⟩ := decorrelateExistsInSubquery_eq_ok.mp hout
      have hsub' := hsub.symm.trans hw.subquery
      simp only [Option.some.injEq, RaNode.unary.injEq, UnaryOp.projection.injEq] at hsub'
      obtain ⟨-, rfl, rfl⟩ := hsub'
      obtain ⟨-, rfl⟩ := Prod.mk.inj (Option.some.inj (hsel.symm.trans hw.selection))
      exact ⟨w, hw, rfl, rfl, rfl⟩

/-- A rewriting with what its analysis finds. -/
theorem exists_rewriting {join : Nat} {s : State} {rel : List (String × String)}
    {qs : List CorrelatingPredicate}
    (hrun : (outcome (decorrelateExistsInSubquery join) s).1.toOption.isSome = true)
    (hparts : ∃ x ∈ subqueryParts join s, getRelationsAliases x.2.2.1 = rel ∧
      getCorrelatingPredicates rel x.2.2.2.2 = some qs) :
    ∃ w : Rewriting, w.Applies join s ∧ getRelationsAliases w.body = rel ∧ w.correlating = qs := by
  obtain ⟨x, hx, hrel, hqs⟩ := hparts
  obtain ⟨w, hw, -, hbody, hp⟩ := exists_applies hrun hx
  have hcor := hw.correlating
  rw [hbody, hrel, hp] at hcor
  exact ⟨w, hw, by rw [hbody, hrel], Option.some.inj (hcor.symm.trans hqs)⟩

/-- The Selection has these conjuncts, or is not there when there are none. -/
def HoldsConjuncts (sel : Nat) (t : RaNode) : List Expr → Prop
  | [] => sel ∉ t.ids
  | [e] => ∃ c, find? sel t = some (.selection sel e c)
  | es => ∃ c, find? sel t = some (.selection sel (.boolPredicate .and es) c)

/-- In the state after the rewriting the Selection in the CTE has the local conjuncts of `args`, and
the Selection from the CTE has one predicate for each correlating one. -/
def Partitioned (join sel : Nat) (relationsAliases : List (String × String)) (args : List Expr)
    (s : State) : Prop :=
  let qs := args.filterMap (correlatingConjunct relationsAliases)
  ∃ cteName cteId body,
    s.tree.ctes.getLast? = some (.projection cteId (cteProjectionOf cteName qs) body) ∧
    HoldsConjuncts sel body (args.filter fun e => !isCorrelatingConjunct relationsAliases e) ∧
    ∃ i pr selId relId, subqueryOf join s =
      some (.projection i pr (.selection selId (probe cteName qs) (.relation relId cteName "")))

section

variable {K : List Frame} {sel n : Nat} {c : RaNode} {args es : List Expr} {op : BoolOperator}

/-- A conjunction without its first conjuncts, at the position of the Selection. -/
private theorem holdsConjuncts_iff {rest : Option Expr}
    (hd : Distinct (plug K (.selection sel (.boolPredicate .and args) c)))
    (hrest : remainingPredicate (.boolPredicate .and args) n = some rest)
    (hlen : es.length = (args.drop n).length) :
    HoldsConjuncts sel (plug K (leftOver sel c rest)) es ↔ args.drop n = es := by
  simp only [remainingPredicate, Option.ite_none_left_eq_some] at hrest
  obtain ⟨-, -, hrest⟩ := hrest
  have hd' (e : Expr) : Distinct (plug K (.selection sel e c)) := by
    have hids := (ids_plug K (.selection sel e c)).trans
      (ids_plug K (.selection sel (.boolPredicate .and args) c)).symm
    exact hids.nodup_iff.mpr hd
  have hfind (e : Expr) : find? sel (plug K (.selection sel e c)) = some (.selection sel e c) :=
    find?_plug_of_id? (hd' e) rfl
  split at hrest <;> cases hrest
  · next hdrop =>
    obtain rfl : es = [] := List.eq_nil_of_length_eq_zero (by simpa [hdrop] using hlen)
    have hout : sel ∉ (plug K c).ids := by
      rw [mem_ids_plug, not_or]
      exact ⟨hd.not_mem_context List.mem_cons_self,
        (List.nodup_cons.mp (distinct_plug.mp hd).2.1).1⟩
    exact iff_of_true hout hdrop
  · next e hdrop =>
    rw [hdrop] at hlen ⊢
    obtain ⟨e', rfl⟩ := List.length_eq_one_iff.mp hlen
    simp [HoldsConjuncts, leftOver, hfind]
  · next hne hne' =>
    rcases es with _ | ⟨e, _ | ⟨e', es⟩⟩
    · exact absurd (List.eq_nil_of_length_eq_zero hlen.symm) hne
    · obtain ⟨e', he'⟩ := List.length_eq_one_iff.mp hlen.symm
      exact absurd he' (hne' e')
    · simp [HoldsConjuncts, leftOver, hfind]

end

/-- What is left of a condition with several arguments, when enough of them are there. -/
theorem exists_remainingPredicate_iff {op : BoolOperator} {args : List Expr} {n : Nat} :
    (∃ rest, remainingPredicate (.boolPredicate op args) n = some rest) ↔
      2 ≤ args.length ∧ n ≤ args.length := by
  simp only [remainingPredicate]
  split
  · next h =>
    simp
    omega
  · split
    · next h =>
      simp
      omega
    · refine iff_of_true ?_ (by omega)
      split <;> exact ⟨_, rfl⟩

theorem remainingPredicate_eq_none_iff {op : BoolOperator} {args : List Expr} {n : Nat}
    (h : n ≤ args.length) {rest : Option Expr}
    (hrest : remainingPredicate (.boolPredicate op args) n = some rest) :
    rest = none ↔ n = args.length := by
  simp only [remainingPredicate, Option.ite_none_left_eq_some] at hrest
  obtain ⟨-, -, hrest⟩ := hrest
  have hdrop : args.drop n = [] ↔ n = args.length := by
    rw [List.drop_eq_nil_iff]
    omega
  rw [← hdrop]
  split at hrest <;> cases hrest <;> simp_all

section

variable {join : Nat} {s s' : State} {i : Nat} {pr : Projection} {body : RaNode} {sel : Nat}
  {args : List Expr} (h : SubqueryAt join s i pr body sel (.boolPredicate .and args))
  (hargs : ∀ e ∈ args, isCorrelatingConjunct (getRelationsAliases body) e = true ∨
    IsLocal (getRelationsAliases body) e)

include h hargs

/-- What a call on a conjunction of correlating and local conjuncts leaves of it. -/
private theorem partitioned_iff :
    (outcome (decorrelateExistsInSubquery join) s = (.ok (), s') ∧
        Partitioned join sel (getRelationsAliases body) args s') ↔
      ComesFirst (isCorrelatingConjunct (getRelationsAliases body)) args ∧
        outcome (decorrelateExistsInSubquery join) s = (.ok (), s') := by
  rw [and_comm]
  refine and_congr_left fun hrun => ?_
  obtain ⟨K, c, rfl⟩ := exists_plug_of_getFirstSelection h.selection
  have hqs := getAllCorrelatingPredicates_conjuncts hargs
  obtain ⟨rest, hrest, hremovable, rfl⟩ := (h.run_iff hqs).mp hrun
  have happlies := h.applies hqs hrest hremovable
  generalize getRelationsAliases (plug K (.selection sel (.boolPredicate .and args) c)) = rel at *
  rw [length_filterMap_conjuncts] at hrest
  have hd : Distinct (plug K (.selection sel (.boolPredicate .and args) c)) :=
    (List.nodup_cons.mp h.addressed.distinct).2
  have hlen : (args.filter fun e => !isCorrelatingConjunct rel e).length =
      (args.drop (args.countP (isCorrelatingConjunct rel))).length := by
    have := length_filter_not (isCorrelatingConjunct rel) args
    rw [List.length_drop]
    omega
  rw [← drop_countP_eq_filter_iff, ← holdsConjuncts_iff hd hrest hlen]
  constructor
  · rintro ⟨cteName, cteId, b, hlast, hholds, -⟩
    simp only [Rewriting.result, rewritingTo, List.getLast?_concat, Option.some.injEq,
      RaNode.unary.injEq] at hlast
    exact hlast.2.2 ▸ hholds
  · intro hholds
    refine ⟨numbered "cte_" s.tree.counter, s.tree.nextId, plug K (leftOver sel c rest), ?_, hholds,
      ?_⟩
    · simp [Rewriting.result, rewritingTo]
    · rw [subqueryOf_result happlies]
      exact ⟨_, _, _, _, rfl⟩

/-- The call ends when there are two conjuncts, and the Selection can go when it must. -/
private theorem exists_run_iff :
    (∃ s', outcome (decorrelateExistsInSubquery join) s = (.ok (), s')) ↔
      2 ≤ args.length ∧
        ((∀ e ∈ args, isCorrelatingConjunct (getRelationsAliases body) e = true) →
          Removable sel (.projection i pr body)) := by
  obtain ⟨K, c, rfl⟩ := exists_plug_of_getFirstSelection h.selection
  have hqs := getAllCorrelatingPredicates_conjuncts hargs
  have hrun (s' : State) := @SubqueryAt.run_iff join s s' _ _ _ _ _ _ h _ hqs
  generalize getRelationsAliases (plug K (.selection sel (.boolPredicate .and args) c)) = rel at *
  simp only [length_filterMap_conjuncts] at hrun
  have hle : args.countP (isCorrelatingConjunct rel) ≤ args.length := List.countP_le_length
  have hall : args.countP (isCorrelatingConjunct rel) = args.length ↔
      ∀ e ∈ args, isCorrelatingConjunct rel e = true := List.countP_eq_length
  constructor
  · rintro ⟨s', h'⟩
    obtain ⟨rest, hrest, hremovable, -⟩ := (hrun s').mp h'
    refine ⟨(exists_remainingPredicate_iff.mp ⟨rest, hrest⟩).1, fun hcor => hremovable ?_⟩
    exact (remainingPredicate_eq_none_iff hle hrest).mpr (hall.mpr hcor)
  · rintro ⟨htwo, hremovable⟩
    obtain ⟨rest, hrest⟩ := exists_remainingPredicate_iff.mpr ⟨htwo, hle⟩
    refine ⟨_, (hrun _).mpr ⟨rest, hrest, fun hnone => hremovable (hall.mp ?_), rfl⟩⟩
    exact (remainingPredicate_eq_none_iff hle hrest).mp hnone

/-- A conjunction of correlating and local conjuncts is split into them exactly when the correlating
ones come first; the Selection must be able to go when no local one is left. -/
theorem decorrelateExistsInSubquery_partitions_iff :
    (∃ s', outcome (decorrelateExistsInSubquery join) s = (.ok (), s') ∧
        Partitioned join sel (getRelationsAliases body) args s') ↔
      ComesFirst (isCorrelatingConjunct (getRelationsAliases body)) args ∧ 2 ≤ args.length ∧
        ((∀ e ∈ args, isCorrelatingConjunct (getRelationsAliases body) e = true) →
          Removable sel (.projection i pr body)) := by
  simp only [partitioned_iff h hargs, exists_and_left, exists_run_iff h hargs]

end

private def equals (l r : List String) : PgNode := .aExpr .op "=" (.columnRef l) (.columnRef r)

/-- `select * from r where exists (select * from s where ..)` with these conjuncts. -/
def existsWhere (conjuncts : List PgNode) : PgNode :=
  .selectStmt false [.resTarget "" (.columnRef ["*"])] [.rangeVar "r" none]
    (.subLink .exists .nullptr <|
      .selectStmt false [.resTarget "" (.columnRef ["*"])] [.rangeVar "s" none]
        (.boolExpr .and conjuncts) [] .nullptr [] []) [] .nullptr [] []

/-- The subquery of a join with its first Selection, when that is a conjunction of correlating and
local conjuncts. -/
private def conjunctionParts (join : Nat) (s : State) :
    Option (Nat × Projection × RaNode × Nat × List Expr) :=
  match subqueryParts join s with
  | some (i, pr, body, sel, .boolPredicate .and args) =>
      if Addressed s.tree.nextId (.projection i pr body) ∧
          ∀ e ∈ args, isCorrelatingConjunct (getRelationsAliases body) e = true ∨
            IsLocal (getRelationsAliases body) e
        then some (i, pr, body, sel, args) else none
  | _ => none

private theorem conjunctionParts_eq_some {join : Nat} {s : State} {i : Nat} {pr : Projection}
    {body : RaNode} {sel : Nat} {args : List Expr}
    (h : conjunctionParts join s = some (i, pr, body, sel, args)) :
    SubqueryAt join s i pr body sel (.boolPredicate .and args) ∧
      ∀ e ∈ args, isCorrelatingConjunct (getRelationsAliases body) e = true ∨
        IsLocal (getRelationsAliases body) e := by
  unfold conjunctionParts at h
  split at h
  · next hparts =>
    obtain ⟨hsub, hsel⟩ := subqueryParts_eq_some.mp hparts
    rw [Option.ite_none_right_eq_some] at h
    obtain ⟨⟨haddressed, hargs⟩, h⟩ := h
    cases h
    exact ⟨⟨hsub, haddressed, hsel⟩, hargs⟩
  · cases h

/-- `s.a = r.a and s.b = s.c` is split. -/
theorem correlatingFirst_partitioned : ∃ s i pr body sel args s',
    beforeExistsIn (existsWhere [equals ["s", "a"] ["r", "a"], equals ["s", "b"] ["s", "c"]]) =
      some s ∧
    SubqueryAt 2 s i pr body sel (.boolPredicate .and args) ∧
    outcome (decorrelateExistsInSubquery 2) s = (.ok (), s') ∧
    Partitioned 2 sel (getRelationsAliases body) args s' := by
  have hrun : ∃ s ∈ beforeExistsIn
      (existsWhere [equals ["s", "a"] ["r", "a"], equals ["s", "b"] ["s", "c"]]),
      ∃ x ∈ conjunctionParts 2 s,
        ComesFirst (isCorrelatingConjunct (getRelationsAliases x.2.2.1)) x.2.2.2.2 ∧
        2 ≤ x.2.2.2.2.length ∧
        ((∀ e ∈ x.2.2.2.2, isCorrelatingConjunct (getRelationsAliases x.2.2.1) e = true) →
          Removable x.2.2.2.1 (.projection x.1 x.2.1 x.2.2.1)) := by
    decide +kernel
  obtain ⟨s, hs, ⟨i, pr, body, sel, args⟩, hx, hcond⟩ := hrun
  obtain ⟨hat, hargs⟩ := conjunctionParts_eq_some hx
  obtain ⟨s', hs', hpart⟩ := (decorrelateExistsInSubquery_partitions_iff hat hargs).mpr hcond
  exact ⟨s, i, pr, body, sel, args, s', hs, hat, hs', hpart⟩

/-- For `s.b = s.c and s.a = r.a` the local conjunct is taken away. -/
theorem localFirst_not_partitioned : ∃ s i pr body sel args,
    beforeExistsIn (existsWhere [equals ["s", "b"] ["s", "c"], equals ["s", "a"] ["r", "a"]]) =
      some s ∧
    SubqueryAt 2 s i pr body sel (.boolPredicate .and args) ∧
    (∀ e ∈ args, isCorrelatingConjunct (getRelationsAliases body) e = true ∨
      IsLocal (getRelationsAliases body) e) ∧
    ¬ ∃ s', outcome (decorrelateExistsInSubquery 2) s = (.ok (), s') ∧
      Partitioned 2 sel (getRelationsAliases body) args s' := by
  have hrun : ∃ s ∈ beforeExistsIn
      (existsWhere [equals ["s", "b"] ["s", "c"], equals ["s", "a"] ["r", "a"]]),
      ∃ x ∈ conjunctionParts 2 s,
        ¬ ComesFirst (isCorrelatingConjunct (getRelationsAliases x.2.2.1)) x.2.2.2.2 := by
    decide +kernel
  obtain ⟨s, hs, ⟨i, pr, body, sel, args⟩, hx, hlate⟩ := hrun
  obtain ⟨hat, hargs⟩ := conjunctionParts_eq_some hx
  refine ⟨s, i, pr, body, sel, args, hs, hat, hargs, ?_⟩
  rintro ⟨s', hs'⟩
  exact hlate ((partitioned_iff hat hargs).mp hs').1

end SqlOptimizer.Unnesting.LiftedConjuncts
