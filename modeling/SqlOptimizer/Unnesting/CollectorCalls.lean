import SqlOptimizer.Logic.CallStacks
import SqlOptimizer.Tree.PlacedConditions
import SqlOptimizer.Unnesting.CollectorWalk

/-!
The calls of the attribute and relation collectors. Each of them looks at the `node_case` of its
argument first, so that it must not be called on a null pointer; only
`get_expression_attributes` tests the operands of an expression before it goes on.
-/

set_option autoImplicit false
set_option relaxedAutoImplicit false

namespace SqlOptimizer.Unnesting.CollectorCalls

open Algebra.RelationalAlgebra
open Logic.CallStacks
open Tree.Frames Tree.Nodes Tree.Walks
open Tree.PushDown (getPredicateRelations)
open Tree.PlacedConditions
open Parse.MarkerJoins (conditionMarkers allConditionMarkers)
open Attributes
open CollectorWalk (mem_joins)

/-- A call of a collector. -/
inductive Call where
  | expressionRelations (expression : Expr)
  | predicateRelations (predicate : Expr)
  | expressionAttributes (expression : Expr)
  | predicateAttributes (predicate : Expr)
  | subtreeAttributes (it : RaNode)

/-- The argument is not a null pointer. -/
def Call.isPresent : Call → Bool
  | .expressionRelations e => e.isPresent
  | .predicateRelations p => p.isPresent
  | .expressionAttributes e => e.isPresent
  | .predicateAttributes p => p.isPresent
  | .subtreeAttributes it => !it.isHole

/-- The argument of `get_subtree_attributes` for a marker: the join that `find_joins_by_markers`
has found, or the null pointer of the pair. -/
def markerSubtree (root : RaNode) (marker : Nat) (type : JoinType) : Option RaNode :=
  (findJoinsByMarkers root [⟨marker, type, none⟩]).map fun ps =>
    ((ps.head?.bind MarkerJoin.join).bind fun i => find? i root).getD .hole

/-- The calls of `get_subtree_attributes` for the node itself. -/
def nodeCalls : RaNode → List Call
  | .selection _ p _ => [.predicateAttributes p]
  | .projection _ pr _ => pr.args.map .expressionAttributes
  | .join _ join _ _ =>
      if join.predicate.isPresent then [.predicateAttributes join.predicate] else []
  | .groupBy _ args _ _ => args.map .expressionAttributes
  | _ => []

/-- The calls in the body of a collector, unless an assertion fails. -/
def callees (root : RaNode) : Call → Option (List Call)
  | .expressionRelations (.expression l r _) =>
      some [.expressionRelations l, .expressionRelations r]
  | .expressionRelations (.funcCall _ args _ _) => some (args.map .expressionRelations)
  | .expressionRelations (.typeCast _ _ e) => some [.expressionRelations e]
  | .predicateRelations (.predicate l r _) =>
      some [.expressionRelations l, .expressionRelations r]
  | .predicateRelations (.whereSubqueryMarker m type) =>
      some [.expressionRelations (.whereSubqueryMarker m type)]
  | .predicateRelations (.boolPredicate _ args) => some (args.map .predicateRelations)
  | .predicateRelations (.nullTest arg _) => some [.expressionRelations arg]
  | .expressionAttributes (.expression l r _) =>
      some ((if l.isPresent then [.expressionAttributes l] else []) ++
        (if r.isPresent then [.expressionAttributes r] else []))
  | .expressionAttributes (.funcCall _ args _ _) => some (args.map .expressionAttributes)
  | .expressionAttributes (.typeCast _ _ e) => some [.expressionAttributes e]
  | .predicateAttributes (.boolPredicate _ args) => some (args.map .predicateAttributes)
  | .predicateAttributes (.predicate l r _) =>
      some [.expressionAttributes l, .expressionAttributes r]
  | .predicateAttributes (.whereSubqueryMarker m type) =>
      (markerSubtree root m type).map fun it => [.subtreeAttributes it]
  | .subtreeAttributes it =>
      some (nodeCalls it ++
        (it.childNodes.filter fun c => !c.isHole).map .subtreeAttributes)
  | _ => some []

/-- The collectors that the call leads to are only called on present nodes. -/
abbrev Call.OnlyPresent (root : RaNode) (c : Call) : Prop :=
  Logic.CallStacks.OnlyPresent Call.isPresent (callees root) c

abbrev Call.Returns (root : RaNode) (c : Call) : Prop :=
  Logic.CallStacks.Returns Call.isPresent (callees root) c

/-! ### Operands -/

section

variable {root : RaNode}

/-- The call does not fault exactly if `ok` is true, and it returns then. -/
structure DecidedBy (root : RaNode) (c : Call) (ok : Bool) : Prop where
  onlyPresent_iff : c.OnlyPresent root ↔ ok = true
  returns : c.OnlyPresent root → c.Returns root

private theorem decidedBy_callees {c : Call} {cs : List Call} {ok : Bool}
    (hpresent : c.isPresent = true) (hcs : callees root c = some cs)
    (hreturns : ∀ b ∈ cs, b.OnlyPresent root → b.Returns root)
    (hok : (∀ b ∈ cs, b.OnlyPresent root) ↔ ok = true) : DecidedBy root c ok := by
  refine ⟨(onlyPresent_iff hcs hreturns).trans ?_, returns_of_onlyPresent hcs hreturns⟩
  exact (and_iff_right hpresent).trans hok

/-- A body that calls one collector on all arguments. -/
private theorem decidedBy_args {f : Expr → Call} {ok : Expr → Bool} {c : Call} {args : List Expr}
    (hpresent : c.isPresent = true) (hcs : callees root c = some (args.map f))
    (h : ∀ a ∈ args, DecidedBy root (f a) (ok a)) : DecidedBy root c (args.all ok) := by
  refine decidedBy_callees hpresent hcs (List.forall_mem_map.mpr fun a ha => (h a ha).returns) ?_
  rw [List.forall_mem_map, List.all_eq_true]
  exact forall₂_congr fun a ha => (h a ha).onlyPresent_iff

private theorem decidedBy_single {c b : Call} {ok : Bool} (hpresent : c.isPresent = true)
    (hcs : callees root c = some [b]) (hb : DecidedBy root b ok) : DecidedBy root c ok := by
  refine decidedBy_callees hpresent hcs (List.forall_mem_singleton.mpr hb.returns) ?_
  exact List.forall_mem_singleton.trans hb.onlyPresent_iff

private theorem decidedBy_pair {c b b' : Call} {ok ok' : Bool} (hpresent : c.isPresent = true)
    (hcs : callees root c = some [b, b']) (hb : DecidedBy root b ok)
    (hb' : DecidedBy root b' ok') : DecidedBy root c (ok && ok') := by
  refine decidedBy_callees hpresent hcs ?_ ?_
  · exact List.forall_mem_cons.mpr ⟨hb.returns, List.forall_mem_singleton.mpr hb'.returns⟩
  · rw [List.forall_mem_cons, List.forall_mem_singleton, hb.onlyPresent_iff, hb'.onlyPresent_iff,
      Bool.and_eq_true]

private theorem decidedBy_nothing {c : Call} (hpresent : c.isPresent = true)
    (hcs : callees root c = some []) : DecidedBy root c true := by
  have hreturns : c.Returns root := .intro hpresent hcs fun _ hb => absurd hb List.not_mem_nil
  exact ⟨iff_of_true hreturns.onlyPresent rfl, fun _ => hreturns⟩

private theorem decidedBy_absent {c : Call} (hpresent : c.isPresent = false) :
    DecidedBy root c false := by
  have hnot := @not_onlyPresent_of_absent _ _ (callees root) _ hpresent
  exact ⟨iff_of_false hnot Bool.false_ne_true, fun h => absurd h hnot⟩

private theorem haveOperands_eq (es : List Expr) : haveOperands es = es.all hasOperands := by
  induction es with
  | nil => rfl
  | cons e es ih => rw [haveOperands, ih, List.all_cons]

private theorem haveConditions_eq (es : List Expr) : haveConditions es = es.all hasConditions := by
  induction es with
  | nil => rfl
  | cons e es ih => rw [haveConditions, ih, List.all_cons]

/-- `get_expression_relations` faults on a missing operand. -/
theorem decidedBy_expressionRelations (e : Expr) :
    DecidedBy root (.expressionRelations e) (hasOperands e) := by
  induction e using Expr.ind with
  | nullptr => exact decidedBy_absent rfl
  | expression l r op ihl ihr => exact decidedBy_pair rfl rfl ihl ihr
  | funcCall f args g d ih =>
    rw [hasOperands, haveOperands_eq]
    exact decidedBy_args rfl rfl ih
  | typeCast t m e ih => exact decidedBy_single rfl rfl ih
  | _ => exact decidedBy_nothing rfl rfl

/-- `get_predicate_relations` faults on a missing operand of a conjunct. -/
theorem decidedBy_predicateRelations (p : Expr) :
    DecidedBy root (.predicateRelations p) (hasConditions p) := by
  induction p using Expr.ind with
  | nullptr => exact decidedBy_absent rfl
  | predicate l r op _ _ =>
    have hl : DecidedBy root (.expressionRelations l) (hasOperands l) :=
      decidedBy_expressionRelations l
    exact decidedBy_pair rfl rfl hl (decidedBy_expressionRelations r)
  | boolPredicate op args ih =>
    rw [hasConditions, haveConditions_eq]
    exact decidedBy_args rfl rfl ih
  | nullTest e t _ => exact decidedBy_single rfl rfl (decidedBy_expressionRelations e)
  | whereSubqueryMarker m t =>
    exact decidedBy_single rfl rfl (decidedBy_expressionRelations (.whereSubqueryMarker m t))
  | _ => exact decidedBy_nothing rfl rfl

mutual

/-- No operand that `get_expression_attributes` comes to is missing, apart from those of an
expression. -/
def hasArguments : Expr → Bool
  | .nullptr => false
  | .expression l r _ => (!l.isPresent || hasArguments l) && (!r.isPresent || hasArguments r)
  | .funcCall _ args _ _ => haveArguments args
  | .typeCast _ _ e => hasArguments e
  | _ => true

def haveArguments : List Expr → Bool
  | [] => true
  | e :: es => hasArguments e && haveArguments es

end

mutual

/-- No operand of a comparison that `get_predicate_attributes` comes to is missing; the right
operand is in the probe predicate of an IN join. -/
def hasComparisons : Expr → Bool
  | .nullptr => false
  | .predicate l r _ => hasArguments l && hasArguments r
  | .boolPredicate _ args => haveComparisons args
  | _ => true

def haveComparisons : List Expr → Bool
  | [] => true
  | e :: es => hasComparisons e && haveComparisons es

end

private theorem haveArguments_eq (es : List Expr) : haveArguments es = es.all hasArguments := by
  induction es with
  | nil => rfl
  | cons e es ih => rw [haveArguments, ih, List.all_cons]

private theorem haveComparisons_eq (es : List Expr) :
    haveComparisons es = es.all hasComparisons := by
  induction es with
  | nil => rfl
  | cons e es ih => rw [haveComparisons, ih, List.all_cons]

/-- `get_expression_attributes` passes over the missing operand of an expression. -/
theorem decidedBy_expressionAttributes (e : Expr) :
    DecidedBy root (.expressionAttributes e) (hasArguments e) := by
  induction e using Expr.ind with
  | nullptr => exact decidedBy_absent rfl
  | expression l r op ihl ihr =>
    -- the operands that are there
    have hreturns {a : Expr} (ih : DecidedBy root (.expressionAttributes a) (hasArguments a)) :
        ∀ b ∈ (if a.isPresent then [Call.expressionAttributes a] else []),
          b.OnlyPresent root → b.Returns root := by
      cases a.isPresent with
      | false => exact fun b hb => absurd hb List.not_mem_nil
      | true => exact List.forall_mem_singleton.mpr ih.returns
    have hok {a : Expr} (ih : DecidedBy root (.expressionAttributes a) (hasArguments a)) :
        (∀ b ∈ (if a.isPresent then [Call.expressionAttributes a] else []), b.OnlyPresent root) ↔
          (!a.isPresent || hasArguments a) = true := by
      cases a.isPresent with
      | false => simp
      | true => simpa using ih.onlyPresent_iff
    refine decidedBy_callees rfl rfl ?_ ?_
    · exact List.forall_mem_append.mpr ⟨hreturns ihl, hreturns ihr⟩
    · rw [List.forall_mem_append, hok ihl, hok ihr, hasArguments, Bool.and_eq_true]
  | funcCall f args g d ih =>
    rw [hasArguments, haveArguments_eq]
    exact decidedBy_args rfl rfl ih
  | typeCast t m e ih => exact decidedBy_single rfl rfl ih
  | _ => exact decidedBy_nothing rfl rfl

end

/-! ### Searches of a subtree -/

/-- The markers in the condition of a node. -/
def nodeMarkers : RaNode → List (Nat × JoinType)
  | .selection _ p _ => conditionMarkers p
  | .join _ join _ _ => conditionMarkers join.predicate
  | _ => []

/-- No operand is missing that is read at the node itself, and a Selection has its condition. -/
def hasNodeOperands : RaNode → Bool
  | .selection _ p _ => hasComparisons p
  | .projection _ pr _ => haveArguments pr.args
  | .groupBy _ args _ _ => haveArguments args
  | .join _ join _ _ => !join.predicate.isPresent || hasComparisons join.predicate
  | _ => true

/-- The nodes that a search below `it` comes to: those of the subtree, and those below the joins
of the markers on the way. -/
inductive Visits (root it : RaNode) : RaNode → Prop
  | inside {n : RaNode} (h : n ∈ nodes it) : Visits root it n
  | marked {n j k : RaNode} {m : Nat} {type : JoinType} (hn : Visits root it n)
      (hm : (m, type) ∈ nodeMarkers n) (hj : markerJoin root m type = some j) (hk : k ∈ nodes j) :
      Visits root it k

/-- Some join of the tree carries the marker. -/
def HasJoin (root : RaNode) (m : Nat) : Prop :=
  ∃ i join l r, RaNode.join i join l r ∈ nodes root ∧ join.marker = m

/-- What a search needs: the subtree is there, no operand is missing at the nodes that it comes
to, and the markers there have their joins. -/
structure NothingMissing (root it : RaNode) : Prop where
  present : it.isHole = false
  operands : ∀ n, Visits root it n → hasNodeOperands n = true
  joins : ∀ n, Visits root it n → ∀ m type, (m, type) ∈ nodeMarkers n → HasJoin root m

/-- The calls of a search in which nothing is missing. -/
def Expected (root it : RaNode) : Call → Prop
  | .expressionAttributes e => hasArguments e = true
  | .predicateAttributes p => hasComparisons p = true ∧
      ∀ m type, (m, type) ∈ conditionMarkers p → ∃ n, Visits root it n ∧ (m, type) ∈ nodeMarkers n
  | .subtreeAttributes t => t.isHole = false ∧ ∀ n ∈ nodes t, Visits root it n
  | _ => False

/-- The pair of a marker gets a join with the marker, if there is one. -/
private theorem exists_join_of_foldlM {js : List (Nat × Join)} {p : MarkerJoin}
    {ps : List MarkerJoin} (h : js.foldlM (fun ps j => assignJoin j ps) [p] = some ps) :
    ∃ p', ps = [p'] ∧ (∀ i, p'.join = some i →
        p.join = some i ∨ ∃ join, (i, join) ∈ js ∧ join.marker = p.marker) ∧
      (p.join.isSome ∨ (∃ j ∈ js, j.2.marker = p.marker) → p'.join.isSome) := by
  induction js generalizing p with
  | nil =>
    obtain rfl := Option.some.inj h
    exact ⟨p, rfl, fun i hi => .inl hi, fun h => h.resolve_right (by simp)⟩
  | cons j js ih =>
    rw [List.foldlM_cons, Option.bind_eq_bind, Option.bind_eq_some_iff] at h
    obtain ⟨qs, hqs, hrest⟩ := h
    rw [assignJoin] at hqs
    split at hqs
    · next hmarker =>
      split at hqs
      · obtain rfl := Option.some.inj hqs
        obtain ⟨p', rfl, hfrom, hsome⟩ := ih hrest
        refine ⟨p', rfl, fun i hi => ?_, fun _ => hsome (.inl rfl)⟩
        rcases hfrom i hi with heq | ⟨join, hjoin, hm⟩
        · obtain rfl := Option.some.inj heq
          exact .inr ⟨j.2, List.mem_cons_self, hmarker⟩
        · exact .inr ⟨join, List.mem_cons_of_mem _ hjoin, hm⟩
      · cases hqs
    · next hmarker =>
      obtain rfl := Option.some.inj hqs
      obtain ⟨p', rfl, hfrom, hsome⟩ := ih hrest
      refine ⟨p', rfl, fun i hi => ?_, fun h => hsome ?_⟩
      · rcases hfrom i hi with hp | ⟨join, hjoin, hm⟩
        · exact .inl hp
        · exact .inr ⟨join, List.mem_cons_of_mem _ hjoin, hm⟩
      · rcases h with hp | ⟨j', hj', hmarker'⟩
        · exact .inl hp
        · rcases List.mem_cons.mp hj' with rfl | hj'
          · exact absurd hmarker' hmarker
          · exact .inr ⟨j', hj', hmarker'⟩

private theorem mem_ids_of_mem_joins {t : RaNode} {i : Nat} {join : Join} (h : (i, join) ∈ joins t) :
    i ∈ t.ids := by
  induction t with
  | hole => cases h
  | leaf j op => cases h
  | unary j op c ih => exact List.mem_cons_of_mem _ (ih h)
  | join j join' l r ihl ihr =>
    rcases List.mem_cons.mp h with heq | h
    · cases heq
      exact List.mem_cons_self
    · apply List.mem_cons_of_mem
      exact List.mem_append.mpr ((List.mem_append.mp h).imp ihl ihr)

/-- Where the assertions hold, a marker that some join carries leads to a join. -/
theorem markerJoin_of_hasJoin {root it : RaNode} {m : Nat} {type : JoinType}
    (h : markerSubtree root m type = some it) (hjoin : HasJoin root m) :
    markerJoin root m type = some it ∧ it.isHole = false := by
  obtain ⟨ps, hps, rfl⟩ := Option.map_eq_some_iff.mp h
  obtain ⟨p', rfl, hfrom, hsome⟩ := exists_join_of_foldlM hps
  obtain ⟨i, join, l, r, hmem, hmarker⟩ := hjoin
  obtain ⟨k, hk⟩ := Option.isSome_iff_exists.mp (hsome (.inr ⟨_, mem_joins hmem, hmarker⟩))
  obtain ⟨join', hjoin', -⟩ := (hfrom k hk).resolve_left (by simp)
  obtain ⟨t, ht⟩ := Option.isSome_iff_exists.mp (find?_isSome_of_mem (mem_ids_of_mem_joins hjoin'))
  have hvalue : (([p'].head?.bind MarkerJoin.join).bind fun i => find? i root) = some t := by
    rw [List.head?_cons, Option.bind_some, hk, Option.bind_some, ht]
  rw [markerJoin, hps, Option.bind_some, hvalue]
  refine ⟨rfl, ?_⟩
  obtain ⟨hid, -⟩ := exists_plug_of_find? ht
  cases t with
  | hole => cases hid
  | _ => rfl

private theorem mem_allConditionMarkers {es : List Expr} {e : Expr} (he : e ∈ es)
    {x : Nat × JoinType} (hx : x ∈ conditionMarkers e) : x ∈ allConditionMarkers es := by
  induction es with
  | nil => cases he
  | cons e' es ih =>
    rw [allConditionMarkers, List.mem_append]
    rcases List.mem_cons.mp he with rfl | he
    · exact .inl hx
    · exact .inr (ih he)

private theorem mem_nodes_of_mem_childNodes {t c : RaNode} (h : c ∈ t.childNodes) {n : RaNode}
    (hn : n ∈ nodes c) : n ∈ nodes t := by
  cases t with
  | hole => cases h
  | leaf i op => cases h
  | unary i op c' =>
    apply List.mem_cons_of_mem
    cases c' with
    | hole => cases h
    | _ => exact List.mem_singleton.mp h ▸ hn
  | join i join l r =>
    apply List.mem_cons_of_mem
    rw [List.mem_append]
    cases l with
    | hole =>
      cases r with
      | hole => cases h
      | _ => exact .inr (List.mem_singleton.mp h ▸ hn)
    | _ =>
      rcases List.mem_cons.mp h with rfl | h
      · exact .inl hn
      · exact .inr (List.mem_singleton.mp h ▸ hn)

section

variable {root it : RaNode}

private theorem isPresent_of_expected {c : Call} (hc : Expected root it c) :
    c.isPresent = true := by
  cases c with
  | expressionAttributes e =>
    cases e with
    | nullptr => cases hc
    | _ => rfl
  | predicateAttributes p =>
    cases p with
    | nullptr => cases hc.1
    | _ => rfl
  | subtreeAttributes t => rw [Call.isPresent, hc.1, Bool.not_false]
  | _ => exact hc.elim

private theorem expected_arguments {args : List Expr} (h : haveArguments args = true) :
    ∀ b ∈ args.map Call.expressionAttributes, Expected root it b := by
  rw [haveArguments_eq, List.all_eq_true] at h
  exact List.forall_mem_map.mpr h

private theorem expected_expression {e : Expr} (he : hasArguments e = true) {cs : List Call}
    (hcs : callees root (.expressionAttributes e) = some cs) :
    ∀ b ∈ cs, Expected root it b := by
  cases e with
  | nullptr => cases he
  | expression l r op =>
    obtain rfl := Option.some.inj hcs
    rw [hasArguments, Bool.and_eq_true] at he
    have hoperand {a : Expr} (ha : (!a.isPresent || hasArguments a) = true) :
        ∀ b ∈ (if a.isPresent then [Call.expressionAttributes a] else []), Expected root it b := by
      cases hp : a.isPresent with
      | false => exact fun b hb => absurd hb List.not_mem_nil
      | true =>
        rw [hp, Bool.not_true, Bool.false_or] at ha
        exact List.forall_mem_singleton.mpr ha
    exact List.forall_mem_append.mpr ⟨hoperand he.1, hoperand he.2⟩
  | funcCall f args g d =>
    obtain rfl := Option.some.inj hcs
    exact expected_arguments he
  | typeCast t m e =>
    obtain rfl := Option.some.inj hcs
    exact List.forall_mem_singleton.mpr he
  | _ =>
    obtain rfl := Option.some.inj hcs
    exact fun b hb => absurd hb List.not_mem_nil

variable (h : NothingMissing root it)

include h

private theorem expected_predicate {p : Expr} (hp : Expected root it (.predicateAttributes p))
    {cs : List Call} (hcs : callees root (.predicateAttributes p) = some cs) :
    ∀ b ∈ cs, Expected root it b := by
  obtain ⟨hok, hmarkers⟩ := hp
  cases p with
  | nullptr => cases hok
  | boolPredicate op args =>
    obtain rfl := Option.some.inj hcs
    rw [hasComparisons, haveComparisons_eq, List.all_eq_true] at hok
    refine List.forall_mem_map.mpr fun a ha => ⟨hok a ha, fun m type hm => ?_⟩
    exact hmarkers m type (mem_allConditionMarkers ha hm)
  | predicate l r op =>
    obtain rfl := Option.some.inj hcs
    rw [hasComparisons, Bool.and_eq_true] at hok
    exact List.forall_mem_cons.mpr ⟨hok.1, List.forall_mem_singleton.mpr hok.2⟩
  | whereSubqueryMarker m type =>
    obtain ⟨t, ht, rfl⟩ := Option.map_eq_some_iff.mp hcs
    obtain ⟨n, hn, hm⟩ := hmarkers m type List.mem_cons_self
    obtain ⟨hj, hhole⟩ := markerJoin_of_hasJoin ht (h.joins n hn m type hm)
    exact List.forall_mem_singleton.mpr ⟨hhole, fun k hk => .marked hn hm hj hk⟩
  | _ =>
    obtain rfl := Option.some.inj hcs
    exact fun b hb => absurd hb List.not_mem_nil

private theorem expected_node {t : RaNode} (ht : Visits root it t) :
    ∀ b ∈ nodeCalls t, Expected root it b := by
  have hoperands := h.operands t ht
  unfold nodeCalls
  split
  · next i p c =>
    exact List.forall_mem_singleton.mpr ⟨hoperands, fun m type hm => ⟨_, ht, hm⟩⟩
  · exact expected_arguments hoperands
  · next i join l r =>
    split
    · next hpresent =>
      rw [hasNodeOperands, hpresent, Bool.not_true, Bool.false_or] at hoperands
      exact List.forall_mem_singleton.mpr ⟨hoperands, fun m type hm => ⟨_, ht, hm⟩⟩
    · exact fun b hb => absurd hb List.not_mem_nil
  · exact expected_arguments hoperands
  · exact fun b hb => absurd hb List.not_mem_nil

/-- The calls stay of this kind, one inside the other. -/
private theorem expected_callees {c : Call} {cs : List Call} (hc : Expected root it c)
    (hcs : callees root c = some cs) : ∀ b ∈ cs, Expected root it b := by
  cases c with
  | expressionAttributes e => exact expected_expression hc hcs
  | predicateAttributes p => exact expected_predicate h hc hcs
  | subtreeAttributes t =>
    obtain rfl := Option.some.inj hcs
    obtain ⟨hhole, hvisits⟩ := hc
    have hne : t ≠ .hole := fun heq => by simp [heq, RaNode.isHole] at hhole
    refine List.forall_mem_append.mpr ⟨expected_node h (hvisits t (mem_nodes_self hne)), ?_⟩
    refine List.forall_mem_map.mpr fun c hchild => ?_
    obtain ⟨hmem, hpresent⟩ := List.mem_filter.mp hchild
    rw [Bool.not_eq_true'] at hpresent
    exact ⟨hpresent, fun n hn => hvisits n (mem_nodes_of_mem_childNodes hmem hn)⟩
  | _ => exact hc.elim

/-- A search in which nothing is missing does not fault. -/
theorem onlyPresent_subtreeAttributes : (Call.subtreeAttributes it).OnlyPresent root :=
  onlyPresent_of_closed (fun _ => isPresent_of_expected) (fun _ _ => expected_callees h)
    ⟨h.present, fun _ hn => .inside hn⟩

end

/-! ### Searches that return -/

private theorem exists_node_of_mem_joins {t : RaNode} {i : Nat} {join : Join}
    (h : (i, join) ∈ joins t) : ∃ l r, RaNode.join i join l r ∈ nodes t := by
  induction t with
  | hole => cases h
  | leaf j op => cases h
  | unary j op c ih =>
    obtain ⟨l, r, hmem⟩ := ih h
    exact ⟨l, r, List.mem_cons_of_mem _ hmem⟩
  | join j join' a b iha ihb =>
    rcases List.mem_cons.mp h with heq | h
    · cases heq
      exact ⟨a, b, List.mem_cons_self⟩
    · rcases List.mem_append.mp h with h | h
      · obtain ⟨l, r, hmem⟩ := iha h
        exact ⟨l, r, List.mem_cons_of_mem _ (List.mem_append_left _ hmem)⟩
      · obtain ⟨l, r, hmem⟩ := ihb h
        exact ⟨l, r, List.mem_cons_of_mem _ (List.mem_append_right _ hmem)⟩

private theorem hasJoin_of_markerJoin {root j : RaNode} {m : Nat} {type : JoinType}
    (h : markerJoin root m type = some j) : HasJoin root m := by
  obtain ⟨ps, hps, hbind⟩ := Option.bind_eq_some_iff.mp h
  obtain ⟨p', rfl, hfrom, -⟩ := exists_join_of_foldlM hps
  obtain ⟨i, hi, -⟩ := Option.bind_eq_some_iff.mp hbind
  obtain ⟨join, hjoin, hmarker⟩ := (hfrom i hi).resolve_left (by simp)
  obtain ⟨l, r, hmem⟩ := exists_node_of_mem_joins hjoin
  exact ⟨i, join, l, r, hmem, hmarker⟩

private theorem hasArguments_of_getExpressionAttributes {e : Expr} {items : List Item}
    (h : getExpressionAttributes e = some items) : hasArguments e = true := by
  induction e using Expr.ind generalizing items with
  | nullptr => cases h
  | expression l r op ihl ihr =>
    obtain ⟨as, bs, -, hl, hr⟩ := LexicalScopes.exists_of_getExpressionAttributes_expression h
    have hoperand {a : Expr} {as : List Item}
        (ih : ∀ {items}, getExpressionAttributes a = some items → hasArguments a = true)
        (ha : a = .nullptr ∧ as = [] ∨ getExpressionAttributes a = some as) :
        (!a.isPresent || hasArguments a) = true := by
      rcases ha with ⟨rfl, -⟩ | ha
      · rfl
      · rw [ih ha, Bool.or_true]
    rw [hasArguments, hoperand ihl hl, hoperand ihr hr, Bool.and_self]
  | funcCall f args g d ih =>
    rw [hasArguments, haveArguments_eq, List.all_eq_true]
    rw [getExpressionAttributes] at h
    induction args generalizing items with
    | nil => exact fun _ ha => absurd ha List.not_mem_nil
    | cons e es ihes =>
      rw [List.forall_mem_cons] at ih ⊢
      obtain ⟨as, has, hmap⟩ := Option.bind_eq_some_iff.mp h
      obtain ⟨bs, hbs, -⟩ := Option.map_eq_some_iff.mp hmap
      exact ⟨ih.1 has, ihes ih.2 hbs⟩
  | typeCast t m e ih => exact ih h
  | _ => rfl

/-- What a collector that returns says about a predicate: nothing is missing, and the markers are
among the items. -/
private theorem items_of_getPredicateAttributes {p : Expr} {items : List Item}
    (h : getPredicateAttributes p = some items) : hasComparisons p = true ∧
      ∀ m type, (m, type) ∈ conditionMarkers p → .marker m type ∈ items := by
  induction p using Expr.ind generalizing items with
  | nullptr => cases h
  | boolPredicate op args ih =>
    rw [hasComparisons, haveComparisons_eq, List.all_eq_true]
    rw [getPredicateAttributes] at h
    induction args generalizing items with
    | nil => exact ⟨fun _ ha => (absurd ha List.not_mem_nil), fun _ _ hm => absurd hm List.not_mem_nil⟩
    | cons e es ihes =>
      rw [List.forall_mem_cons] at ih
      obtain ⟨as, has, hmap⟩ := Option.bind_eq_some_iff.mp h
      obtain ⟨bs, hbs, rfl⟩ := Option.map_eq_some_iff.mp hmap
      obtain ⟨hok, hm⟩ := ih.1 has
      obtain ⟨hoks, hms⟩ := ihes ih.2 hbs
      refine ⟨List.forall_mem_cons.mpr ⟨hok, hoks⟩, fun m type hmem => ?_⟩
      rw [List.mem_append]
      exact (List.mem_append.mp hmem).imp (hm m type) (hms m type)
  | predicate l r op _ _ =>
    obtain ⟨as, has, hmap⟩ := Option.bind_eq_some_iff.mp h
    obtain ⟨bs, hbs, -⟩ := Option.map_eq_some_iff.mp hmap
    rw [hasComparisons, hasArguments_of_getExpressionAttributes has,
      hasArguments_of_getExpressionAttributes hbs]
    exact ⟨rfl, fun _ _ hm => absurd hm List.not_mem_nil⟩
  | whereSubqueryMarker m t =>
    obtain rfl := Option.some.inj h
    refine ⟨rfl, fun m' type hm => ?_⟩
    cases List.mem_singleton.mp hm
    exact List.mem_cons_self
  | _ => exact ⟨rfl, fun _ _ hm => absurd hm List.not_mem_nil⟩

private theorem items_of_nodeItems {n : RaNode} {items : List Item}
    (h : nodeItems n = some items) : hasNodeOperands n = true ∧
      ∀ m type, (m, type) ∈ nodeMarkers n → .marker m type ∈ items := by
  have hargs {args : List Expr} (h : getAllExpressionAttributes args = some items) :
      haveArguments args = true :=
    hasArguments_of_getExpressionAttributes (e := .funcCall "" args false false) h
  cases n with
  | hole => exact ⟨rfl, fun _ _ hm => absurd hm List.not_mem_nil⟩
  | leaf i op => exact ⟨rfl, fun _ _ hm => absurd hm List.not_mem_nil⟩
  | unary i op c =>
    cases op with
    | selection p => exact items_of_getPredicateAttributes h
    | projection pr => exact ⟨hargs h, fun _ _ hm => absurd hm List.not_mem_nil⟩
    | groupBy args implicit => exact ⟨hargs h, fun _ _ hm => absurd hm List.not_mem_nil⟩
    | _ => exact ⟨rfl, fun _ _ hm => absurd hm List.not_mem_nil⟩
  | join i join l r =>
    rw [nodeItems] at h
    split at h
    · obtain ⟨hok, hm⟩ := items_of_getPredicateAttributes h
      exact ⟨by rw [hasNodeOperands, hok, Bool.or_true], hm⟩
    · next hpresent =>
      rw [hasNodeOperands, nodeMarkers]
      cases hp : join.predicate with
      | nullptr => exact ⟨rfl, fun _ _ hm => absurd hm List.not_mem_nil⟩
      | _ => simp [hp, Expr.isPresent] at hpresent

/-- At the nodes of a subtree whose walk returns, the markers lead somewhere. -/
private theorem items_of_subtreeOccurrences {jump : Nat → JoinType → Option (List Occurrence)}
    {t : RaNode} {os : List Occurrence} (h : subtreeOccurrences jump t = some os) :
    ∀ n ∈ nodes t, ∃ items, nodeItems n = some items ∧
      ∀ m type, .marker m type ∈ items → (jump m type).isSome := by
  have hitems {items : List Item} {node k : Nat} {os : List Occurrence}
      (h : itemOccurrences jump node k items = some os) :
      ∀ m type, .marker m type ∈ items → (jump m type).isSome := by
    induction items generalizing k os with
    | nil => exact fun _ _ hm => absurd hm List.not_mem_nil
    | cons item items ih =>
      intro m type hm
      cases item with
      | «attribute» name aliasName =>
        obtain ⟨as, has, -⟩ := Option.map_eq_some_iff.mp h
        exact ih has m type ((List.mem_cons.mp hm).resolve_left (by rintro ⟨⟩))
      | marker m' type' =>
        obtain ⟨js, hjs, hmap⟩ := Option.bind_eq_some_iff.mp h
        obtain ⟨as, has, -⟩ := Option.map_eq_some_iff.mp hmap
        rcases List.mem_cons.mp hm with heq | hm
        · cases heq
          rw [hjs]
          rfl
        · exact ih has m type hm
  have hnode {n : RaNode} {os : List Occurrence} (h : nodeOccurrences jump n = some os) :
      ∃ items, nodeItems n = some items ∧
        ∀ m type, .marker m type ∈ items → (jump m type).isSome := by
    obtain ⟨items, hn, hos⟩ := Option.bind_eq_some_iff.mp h
    exact ⟨items, hn, hitems hos⟩
  induction t generalizing os with
  | hole => exact fun _ hn => absurd hn List.not_mem_nil
  | leaf i op =>
    intro n hn
    rw [List.mem_singleton.mp hn]
    exact ⟨[], rfl, fun _ _ hm => absurd hm List.not_mem_nil⟩
  | unary i op c ih =>
    obtain ⟨as, has, hmap⟩ := Option.bind_eq_some_iff.mp h
    obtain ⟨cs, hcs, -⟩ := Option.map_eq_some_iff.mp hmap
    exact List.forall_mem_cons.mpr ⟨hnode has, ih hcs⟩
  | join i join l r ihl ihr =>
    obtain ⟨as, has, hbind⟩ := Option.bind_eq_some_iff.mp h
    obtain ⟨ls, hls, hmap⟩ := Option.bind_eq_some_iff.mp hbind
    obtain ⟨rs, hrs, -⟩ := Option.map_eq_some_iff.mp hmap
    exact List.forall_mem_cons.mpr ⟨hnode has, List.forall_mem_append.mpr ⟨ihl hls, ihr hrs⟩⟩

/-- Nothing is missing in a search that returns. -/
theorem nothingMissing_of_getSubtreeAttributes {root it : RaNode} {os : List Occurrence}
    (h : getSubtreeAttributes root it = some os) (hit : it.isHole = false) :
    NothingMissing root it := by
  have hwalk {fuel : Nat} {t : RaNode} {os : List Occurrence}
      (h : subtreeAttributes root fuel t = some os) :
      ∀ n ∈ nodes t, ∃ items, nodeItems n = some items ∧ ∀ m type, .marker m type ∈ items →
        ∃ j, markerJoin root m type = some j ∧ ∃ fuel os, subtreeAttributes root fuel j = some os := by
    cases fuel with
    | zero => cases h
    | succ fuel =>
      intro n hn
      obtain ⟨items, hitems, hjump⟩ := items_of_subtreeOccurrences h n hn
      refine ⟨items, hitems, fun m type hm => ?_⟩
      obtain ⟨js, hjs⟩ := Option.isSome_iff_exists.mp (hjump m type hm)
      obtain ⟨j, hj, hrest⟩ := Option.bind_eq_some_iff.mp hjs
      exact ⟨j, hj, fuel, js, hrest⟩
  -- every node that is visited lies in a subtree whose walk returns
  have hvisits : ∀ n, Visits root it n → ∃ items, nodeItems n = some items ∧
      ∀ m type, .marker m type ∈ items →
        ∃ j, markerJoin root m type = some j ∧ ∃ fuel os, subtreeAttributes root fuel j = some os := by
    intro n hn
    induction hn with
    | inside hn => exact hwalk h _ hn
    | marked _ hm hj hk ih =>
      obtain ⟨items, hitems, hjump⟩ := ih
      obtain ⟨j', hj', fuel, os', hos'⟩ := hjump _ _ ((items_of_nodeItems hitems).2 _ _ hm)
      obtain rfl := Option.some.inj (hj.symm.trans hj')
      exact hwalk hos' _ hk
  refine ⟨hit, fun n hn => ?_, fun n hn m type hm => ?_⟩
  · obtain ⟨items, hitems, -⟩ := hvisits n hn
    exact (items_of_nodeItems hitems).1
  · obtain ⟨items, hitems, hjump⟩ := hvisits n hn
    obtain ⟨j, hj, -⟩ := hjump m type ((items_of_nodeItems hitems).2 m type hm)
    exact hasJoin_of_markerJoin hj

end SqlOptimizer.Unnesting.CollectorCalls
