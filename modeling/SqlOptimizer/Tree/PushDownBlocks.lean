import SqlOptimizer.Tree.PushDownRun
import Mathlib.Data.List.Induction

/-!
Query blocks under `push_down_predicates`. A block is named by the projection of the
FROM subquery that it belongs to; a conjunct leaves its block when the search for its
node enters a FROM subquery.
-/

set_option autoImplicit false
set_option relaxedAutoImplicit false

namespace SqlOptimizer.Tree.PushDownBlocks

open Algebra.RelationalAlgebra
open Frames Walks PushDown PushDownRun
open Logic.Runs (AtEveryStep)

/-- The block of the node with the given address: the derived table around it, `none`
for the outermost block. -/
def blockOf (i : Nat) (enclosing : Option Nat) : RaNode → Option (Option Nat)
  | .hole => none
  | .leaf j _ => if j = i then some enclosing else none
  | .unary j op c =>
      if j = i then some enclosing
      else blockOf i (if isDerivedTable op then some j else enclosing) c
  | .join j _ l r =>
      if j = i then some enclosing else (blockOf i enclosing l).or (blockOf i enclosing r)

private theorem blockOf_eq_none {t : RaNode} {i : Nat} (h : i ∉ t.ids) (b : Option Nat) :
    blockOf i b t = none := by
  induction t generalizing b with
  | hole => rfl
  | leaf j op => rw [blockOf, if_neg (Ne.symm (List.ne_of_not_mem_cons h))]
  | unary j op c ih =>
    rw [blockOf, if_neg (Ne.symm (List.ne_of_not_mem_cons h)),
      ih (List.not_mem_of_not_mem_cons h)]
  | join j join l r ihl ihr =>
    have hlr := List.not_mem_of_not_mem_cons h
    rw [List.mem_append, not_or] at hlr
    rw [blockOf, if_neg (Ne.symm (List.ne_of_not_mem_cons h)), ihl hlr.1, ihr hlr.2]
    rfl

private theorem blockOf_of_id? {t : RaNode} {i : Nat} (h : t.id? = some i) (b : Option Nat) :
    blockOf i b t = some b := by
  cases t <;> simp_all [RaNode.id?, blockOf]

private theorem blockOf_frame {f : Frame} {i : Nat} (hf : i ∉ f.ids) (b : Option Nat)
    (t : RaNode) : blockOf i b (f.plug t) = blockOf i ((enclosingTable [f]).or b) t := by
  cases f with
  | unary j op =>
    have hj : j ≠ i := by simpa [Frame.ids, eq_comm] using hf
    simp only [Frame.plug, blockOf, if_neg hj, enclosingTable]
    cases hop : isDerivedTable op <;> simp [hop]
  | left j join r =>
    have hr := List.not_mem_of_not_mem_cons hf
    simp [Frame.plug, blockOf, Ne.symm (List.ne_of_not_mem_cons hf), blockOf_eq_none hr,
      enclosingTable]
  | right j join l =>
    have hl := List.not_mem_of_not_mem_cons hf
    simp [Frame.plug, blockOf, Ne.symm (List.ne_of_not_mem_cons hf), blockOf_eq_none hl,
      enclosingTable]

/-- The block of a node is given by the frames around it. -/
theorem blockOf_plug {K : List Frame} {x : RaNode} {i : Nat} (hi : x.id? = some i)
    (hK : i ∉ contextIds K) (b : Option Nat) :
    blockOf i b (plug K x) = some ((enclosingTable K).or b) := by
  induction K using List.reverseRecOn generalizing b with
  | nil => simpa [enclosingTable] using blockOf_of_id? hi b
  | append_singleton K f ih =>
    rw [contextIds_append, List.mem_append, not_or] at hK
    have hf : i ∉ f.ids := by simpa using hK.2
    rw [plug_append, plug_cons, plug_nil, blockOf_frame hf, ih hK.1, enclosingTable_append,
      Option.or_assoc]

/-- The node that carries the conjunct after the step lies in the block of the Selection
that the conjunct comes from. -/
def StaysInBlock (cpToJoin : Bool) (t : RaTree) : Step → Prop
  | .place i c rels =>
      ∀ pos, stepPosition cpToJoin t i c rels = some pos →
        blockOf (pos.receiver t.nextId) none (attach c t pos).root = blockOf i none t.root
  | .removeIfEmpty _ => True

/-- One step keeps the block unless the search enters a derived table. -/
private theorem staysInBlock_place {cp : Bool} {t : RaTree} (ht : WellFormed t) {i : Nat}
    {p : Expr} {child : RaNode} (hfind : find? i t.root = some (.selection i p child)) (c : Expr)
    (rels : List String) :
    StaysInBlock cp t (.place i c rels) ↔ entersDerivedTable rels child = false := by
  obtain ⟨pos, outer, inner, before, after, hpos, hroot, hatt, henc, -⟩ :=
    stepPosition_spec cp ht hfind c rels
  have hd' : Distinct (plug inner after) := hatt.root_eq' ▸ (hatt.wellFormed ht).distinct
  have hd : Distinct (plug outer (.selection i p child)) := hroot ▸ ht.distinct
  have hafter : blockOf (pos.receiver t.nextId) none (attach c t pos).root =
      some (enclosingTable inner) := by
    rw [hatt.root_eq', blockOf_plug hatt.receiver
      (hd'.not_mem_context (id?_mem_ids hatt.receiver)), Option.or_none]
  have hbefore : blockOf i none t.root = some (enclosingTable outer) := by
    rw [hroot, blockOf_plug rfl (hd.not_mem_context (id?_mem_ids rfl)), Option.or_none]
  rw [← henc]
  simp only [StaysInBlock, hpos, Option.some.injEq, forall_eq', hafter, hbefore]

/-- What the original tree says about a step. -/
def SearchStays (root : RaNode) : Step → Prop
  | .place i _ rels => ∀ k, coreAt i root = some k → entersDerivedTable rels k = false
  | .removeIfEmpty _ => True

private theorem searchStays_steps {root : RaNode} (hd : Distinct root)
    {sels : List (Nat × Expr × RaNode)} (hsels : ∀ s ∈ sels, s ∈ getAllSelections root)
    {sss : List (List Step)}
    (h : List.Forall₂ (fun s ss => selectionSteps s.1 s.2.1 = some ss) sels sss) :
    (∀ s ∈ sss.flatten, SearchStays root s) ↔
      ∀ s ∈ sels, ∀ cs, splitSelectionPredicates s.2.1 = some cs → ∀ c ∈ cs, ∀ rels,
        getPredicateRelations c = some rels → entersDerivedTable rels s.2.2 = false := by
  induction h with
  | nil => simp
  | @cons sel ss sels sss hsel _ ih =>
    rw [List.forall_mem_cons] at hsels
    rw [List.flatten_cons, List.forall_mem_append, ih hsels.2, List.forall_mem_cons]
    refine and_congr_left fun _ => ?_
    have hcore := coreAt_of_mem_getAllSelections hd hsels.1
    simp only [selectionSteps, Option.bind_eq_some_iff, Option.map_eq_some_iff] at hsel
    obtain ⟨cs, hcs, places, hplaces, rfl⟩ := hsel
    simp only [hcs, Option.some.injEq, forall_eq', List.forall_mem_append,
      List.forall_mem_singleton, SearchStays, and_true]
    rw [Logic.Runs.mapM_eq_some_iff] at hplaces
    clear hcs
    induction hplaces with
    | nil => simp
    | cons hc _ ihc =>
      obtain ⟨rels, hrels, rfl⟩ := Option.map_eq_some_iff.mp hc
      simp [ihc, hcore, hrels]

/-- Every conjunct stays in its query block exactly when, for every conjunct of every
Selection, the search for the lowest node that defines its relations enters no derived
table: at each derived table that it reaches, some relation that the conjunct mentions
is unknown below the projection. -/
theorem pushDownPredicates_staysInBlock_iff (cp : Bool) {t : RaTree} (ht : WellFormed t)
    {ss : List Step} (hss : steps t.root = some ss) :
    AtEveryStep (step cp) (StaysInBlock cp) ss (detached t) ↔
      ∀ s ∈ getAllSelections t.root, ∀ cs, splitSelectionPredicates s.2.1 = some cs →
        ∀ c ∈ cs, ∀ rels, getPredicateRelations c = some rels →
          entersDerivedTable rels s.2.2 = false := by
  obtain ⟨sss, hflat, hsels⟩ := steps_eq_some_iff.mp hss
  rw [← searchStays_steps ht.distinct (fun _ h => h) hsels, ← hflat]
  refine (runInvariant_carries cp t.root).atEveryStep_iff (fun s ss t' h => ?_)
    (runInvariant_detached ht hss)
  obtain ⟨p, child, hfind, hcore⟩ := h.next
  cases s with
  | place i c rels =>
    have hfind' : find? i t'.root = some (.selection i p child) := hfind
    have hcore' : coreAt i t.root = some (core child) := hcore
    rw [staysInBlock_place h.wellFormed hfind', SearchStays, hcore']
    simp
  | removeIfEmpty i => simp [StaysInBlock, SearchStays]

/-- `select s.n from (select count(*) as n from r) as s where <predicate>`. -/
def countSubquery (predicate : Expr) : RaTree where
  root :=
    .projection 0 { args := [.selectExpression (.attribute "n" "s") ""] }
      (.selection 1 predicate
        (.projection 2
          { args := [.selectExpression (.funcCall "count" [.attribute "*" ""] true false) "n"]
            subqueryAlias := "s" }
          (.groupBy 3 [] true (.relation 4 "r" ""))))
  nextId := 5

private theorem wellFormed_countSubquery (p : Expr) : WellFormed (countSubquery p) := by
  refine ⟨?_, trivial, ?_, rfl⟩
  · simp only [Distinct, countSubquery, RaNode.ids]
    decide
  · simp only [countSubquery, RaNode.ids]
    decide

/-- The condition `1=0` mentions no relation and ends up below the aggregate. -/
theorem constant_condition_leaves_block :
    ¬ ∀ (cp : Bool) (t : RaTree) (ss : List Step), WellFormed t → steps t.root = some ss →
      AtEveryStep (step cp) (StaysInBlock cp) ss (detached t) := by
  intro h
  have hrun := h false (countSubquery (.predicate (.constant "1" .int) (.constant "0" .int) "="))
    _ (wellFormed_countSubquery _) rfl
  have hblock := hrun.1 _ rfl
  revert hblock
  decide

/-- The condition `s.n>0` stays above the derived table. -/
theorem qualified_condition_staysInBlock :
    ∃ ss, steps (countSubquery (.predicate (.attribute "n" "s") (.constant "0" .int) ">")).root =
        some ss ∧
      AtEveryStep (step false) (StaysInBlock false) ss
        (detached (countSubquery (.predicate (.attribute "n" "s") (.constant "0" .int) ">"))) := by
  refine ⟨_, rfl, (pushDownPredicates_staysInBlock_iff false (wellFormed_countSubquery _)
    rfl).mpr ?_⟩
  intro s hs cs hcs c hc rels hrels
  obtain rfl := List.mem_singleton.mp hs
  obtain rfl := Option.some.inj hcs
  obtain rfl := List.mem_singleton.mp hc
  obtain rfl := Option.some.inj hrels
  decide

end SqlOptimizer.Tree.PushDownBlocks
