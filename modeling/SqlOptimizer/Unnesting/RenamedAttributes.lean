import SqlOptimizer.Tree.Nodes
import SqlOptimizer.Unnesting.LexicalScopes

/-!
The attributes after `rename_attributes`. The function comes to fewer places than
`find_attributes_using_alias` does, and both leave places out; the qualifiers there stay.
-/

set_option autoImplicit false
set_option relaxedAutoImplicit false

namespace SqlOptimizer.Unnesting.RenamedAttributes

open Algebra.RelationalAlgebra
open Parse.Correlation (isTpchAttribute)
open Parse.Inventory (unaryExprs leafExprs)
open Tree.Frames
open Attributes LexicalScopes

mutual

/-- The attributes that `find_attributes_using_alias` looks at in an expression. -/
def lookedAt : Expr → List AttributeRef
  | .attribute name aliasName => [(name, aliasName)]
  | .funcCall _ args _ _ => allLookedAt args
  | .boolPredicate _ args => allLookedAt args
  | .predicate l r _ => lookedAt l ++ lookedAt r
  | .selectExpression e _ => lookedAt e
  | .expression l r _ => lookedAt l ++ lookedAt r
  | .typeCast _ _ e => lookedAt e
  | _ => []

def allLookedAt : List Expr → List AttributeRef
  | [] => []
  | e :: es => lookedAt e ++ allLookedAt es

end

mutual

/-- The attributes that `rename_attributes` comes to in an expression. -/
def reached : Expr → List AttributeRef
  | .attribute name aliasName => [(name, aliasName)]
  | .funcCall _ args _ _ => allReached args
  | .boolPredicate _ args => allReached args
  | .predicate l r _ => reached l ++ reached r
  | .selectExpression e _ => reached e
  | _ => []

def allReached : List Expr → List AttributeRef
  | [] => []
  | e :: es => reached e ++ allReached es

end

section

variable (collect : Expr → List AttributeRef)

mutual

/-- Of the attributes collected in an expression those that `rename_attributes` leaves as they
are. -/
def unreached : Expr → List AttributeRef
  | .attribute _ _ => []
  | .funcCall _ args _ _ => allUnreached args
  | .boolPredicate _ args => allUnreached args
  | .predicate l r _ => unreached l ++ unreached r
  | .selectExpression e _ => unreached e
  | e => collect e

def allUnreached : List Expr → List AttributeRef
  | [] => []
  | e :: es => unreached e ++ allUnreached es

end

end

/-- The attributes in the expressions of a tree. -/
def treeAttributes : RaNode → List AttributeRef
  | .hole => []
  | .leaf _ op => attributesInAll (leafExprs op)
  | .unary _ op c => attributesInAll (unaryExprs op) ++ treeAttributes c
  | .join _ join l r => attributesIn join.predicate ++ (treeAttributes l ++ treeAttributes r)

/-- The attributes that `find_attributes_using_alias` looks at in a tree. -/
def lookedAtIn : RaNode → List AttributeRef
  | .hole => []
  | .leaf _ _ => []
  | .unary _ .root _ => []
  | .unary _ (.having _) _ => []
  | .unary _ op c => allLookedAt (unaryExprs op) ++ lookedAtIn c
  | .join _ join l r => lookedAt join.predicate ++ (lookedAtIn l ++ lookedAtIn r)

/-- The attributes that `rename_attributes` comes to in a tree. -/
def reachedIn : RaNode → List AttributeRef
  | .unary _ (.projection pr) c => allReached pr.args ++ reachedIn c
  | .unary _ (.selection p) c => reached p ++ reachedIn c
  | .unary _ (.groupBy args _) c => allReached args ++ reachedIn c
  | .join _ join l r => reached join.predicate ++ (reachedIn l ++ reachedIn r)
  | _ => []

/-- Of the attributes collected in a tree those that `rename_attributes` leaves as they are. -/
def unreachedIn (collect : Expr → List AttributeRef) (below : RaNode → List AttributeRef) :
    RaNode → List AttributeRef
  | .unary _ (.projection pr) c => allUnreached collect pr.args ++ unreachedIn collect below c
  | .unary _ (.selection p) c => unreached collect p ++ unreachedIn collect below c
  | .unary _ (.groupBy args _) c => allUnreached collect args ++ unreachedIn collect below c
  | .join _ join l r =>
      unreached collect join.predicate ++
        (unreachedIn collect below l ++ unreachedIn collect below r)
  | t => below t

/-- The attributes that `find_attributes_using_alias` looks at and `rename_attributes` does not
come to. -/
def missedIn (t : RaNode) : List AttributeRef := unreachedIn lookedAt lookedAtIn t

/-- The attributes that `rename_attributes` does not come to. -/
def unrenamedIn (t : RaNode) : List AttributeRef := unreachedIn attributesIn treeAttributes t

/-- The name and the qualifier of an attribute after the renaming. -/
def renamedRef (m : RenameMap) (a : AttributeRef) : AttributeRef := renamed m a.1 a.2

/-- `find_attributes_using_alias` reports an attribute that it looks at. -/
def isReported (aliases : List String) (a : AttributeRef) : Bool :=
  a.2 ∈ aliases ∨ (a.2 = "" ∧ ∃ q ∈ aliases, isTpchAttribute a.1 q = true)

/-- The tree that `rename_attributes` makes of a subtree. -/
def renameTree (m : RenameMap) : RaNode → RaNode
  | .unary i (.projection pr) c =>
      .projection i { pr with args := renameExpressions m pr.args } (renameTree m c)
  | .unary i (.selection p) c => .selection i (renameExpression m p) (renameTree m c)
  | .unary i (.groupBy args implicit) c =>
      .groupBy i (renameExpressions m args) implicit (renameTree m c)
  | .join i join l r =>
      .join i { join with predicate := renameExpression m join.predicate } (renameTree m l)
        (renameTree m r)
  | t => t

/-- The map leads from listed qualifiers to others and has an entry for every attribute that is
reported under a listed qualifier. -/
structure RenamesReported (aliases : List String) (reported : List AttributeRef) (m : RenameMap) :
    Prop where
  keys : ∀ e ∈ m, e.1.1 ∈ aliases
  targets : ∀ e ∈ m, e.2.1 ∉ aliases
  entries : ∀ a ∈ reported, a.2 ∈ aliases →
    (m.lookup (a.2, a.1)).isSome ∨ (m.lookup (a.2, "")).isSome

private theorem mem_of_lookup {m : RenameMap} {k v : AttributeRef} (h : m.lookup k = some v) :
    (k, v) ∈ m := by
  induction m with
  | nil => cases h
  | cons e m ih =>
    obtain ⟨k', v'⟩ := e
    rw [List.lookup_cons] at h
    split at h
    · next heq =>
      rw [beq_iff_eq] at heq
      rw [heq, ← Option.some.inj h]
      exact List.mem_cons_self
    · exact List.mem_cons_of_mem _ (ih h)

/-- An attribute that is renamed, or that has no listed qualifier, has none afterwards. -/
theorem RenamesReported.renamedRef_not_mem {aliases : List String} {reported : List AttributeRef}
    {m : RenameMap} (h : RenamesReported aliases reported m) {a : AttributeRef}
    (ha : a.2 ∈ aliases → a ∈ reported) : (renamedRef m a).2 ∉ aliases := by
  obtain ⟨n, q⟩ := a
  unfold renamedRef renamed
  split
  · next hlookup => exact h.targets _ (mem_of_lookup hlookup)
  · next hexact =>
    split
    · next hlookup => exact h.targets _ (mem_of_lookup hlookup)
    · next hall =>
      intro hq
      rcases h.entries _ (ha hq) hq with hsome | hsome
      · rw [hexact] at hsome
        cases hsome
      · rw [hall] at hsome
        cases hsome

/-- A collector of attributes goes into all kinds of expressions that `rename_attributes`
enters. -/
structure Collects (collect : Expr → List AttributeRef) (all : List Expr → List AttributeRef) :
    Prop where
  nil : all [] = []
  cons : ∀ e es, all (e :: es) = collect e ++ all es
  attr : ∀ n a, collect (.attribute n a) = [(n, a)]
  funcCall : ∀ f args g d, collect (.funcCall f args g d) = all args
  boolPredicate : ∀ op args, collect (.boolPredicate op args) = all args
  predicate : ∀ l r op, collect (.predicate l r op) = collect l ++ collect r
  selectExpression : ∀ e rename, collect (.selectExpression e rename) = collect e

/-- The same for the operators of a tree. -/
structure CollectsBelow (collect : Expr → List AttributeRef) (all : List Expr → List AttributeRef)
    (below : RaNode → List AttributeRef) : Prop where
  exprs : Collects collect all
  projection : ∀ i pr c, below (.projection i pr c) = all pr.args ++ below c
  selection : ∀ i p c, below (.selection i p c) = all [p] ++ below c
  groupBy : ∀ i args implicit c, below (.groupBy i args implicit c) = all args ++ below c
  join : ∀ i join l r, below (.join i join l r) = collect join.predicate ++ (below l ++ below r)

private theorem collects_attributesIn : Collects attributesIn attributesInAll :=
  ⟨rfl, fun _ _ => rfl, fun _ _ => rfl, fun _ _ _ _ => rfl, fun _ _ => rfl, fun _ _ _ => rfl,
    fun _ _ => rfl⟩

private theorem collects_lookedAt : Collects lookedAt allLookedAt :=
  ⟨rfl, fun _ _ => rfl, fun _ _ => rfl, fun _ _ _ _ => rfl, fun _ _ => rfl, fun _ _ _ => rfl,
    fun _ _ => rfl⟩

private theorem collectsBelow_treeAttributes :
    CollectsBelow attributesIn attributesInAll treeAttributes :=
  ⟨collects_attributesIn, fun _ _ _ => rfl, fun _ _ _ => rfl, fun _ _ _ _ => rfl,
    fun _ _ _ _ => rfl⟩

private theorem collectsBelow_lookedAtIn : CollectsBelow lookedAt allLookedAt lookedAtIn :=
  ⟨collects_lookedAt, fun _ _ _ => rfl, fun _ _ _ => rfl, fun _ _ _ _ => rfl, fun _ _ _ _ => rfl⟩

section

variable {collect : Expr → List AttributeRef} {all : List Expr → List AttributeRef}
  {below : RaNode → List AttributeRef} {m : RenameMap} {P : AttributeRef → Prop}

private theorem forall_renameExpressions (h : Collects collect all) {es : List Expr}
    (ih : ∀ e ∈ es, (∀ a ∈ collect (renameExpression m e), P a) ↔
      (∀ a ∈ unreached collect e, P a) ∧ ∀ a ∈ reached e, P (renamedRef m a)) :
    (∀ a ∈ all (renameExpressions m es), P a) ↔
      (∀ a ∈ allUnreached collect es, P a) ∧ ∀ a ∈ allReached es, P (renamedRef m a) := by
  induction es with
  | nil => simp [renameExpressions, h.nil, allUnreached, allReached]
  | cons e es ihes =>
    rw [List.forall_mem_cons] at ih
    simp only [renameExpressions, h.cons, allUnreached, allReached, List.forall_mem_append, ih.1,
      ihes ih.2]
    exact and_and_and_comm

/-- The attributes collected in a renamed expression: those that are not reached, and the others
with their new names. -/
theorem forall_renameExpression (h : Collects collect all) (e : Expr) :
    (∀ a ∈ collect (renameExpression m e), P a) ↔
      (∀ a ∈ unreached collect e, P a) ∧ ∀ a ∈ reached e, P (renamedRef m a) := by
  induction e using Expr.ind with
  | attr name aliasName =>
    rw [renameExpression, h.attr]
    simp [unreached, reached, renamedRef]
  | funcCall f args g d ih =>
    rw [renameExpression, h.funcCall, unreached, reached]
    exact forall_renameExpressions h ih
  | boolPredicate op args ih =>
    rw [renameExpression, h.boolPredicate, unreached, reached]
    exact forall_renameExpressions h ih
  | predicate l r op ihl ihr =>
    simp only [renameExpression, h.predicate, unreached, reached, List.forall_mem_append, ihl, ihr]
    exact and_and_and_comm
  | selectExpression e rename ih =>
    rw [renameExpression, h.selectExpression, unreached, reached]
    exact ih
  | _ => simp [renameExpression, unreached, reached]

/-- The attributes collected in a renamed tree. -/
theorem forall_renameTree (h : CollectsBelow collect all below) (t : RaNode) :
    (∀ a ∈ below (renameTree m t), P a) ↔
      (∀ a ∈ unreachedIn collect below t, P a) ∧ ∀ a ∈ reachedIn t, P (renamedRef m a) := by
  have hexpr (e : Expr) := forall_renameExpression (m := m) (P := P) h.exprs e
  have hexprs (es : List Expr) := forall_renameExpressions h.exprs fun e (_ : e ∈ es) => hexpr e
  induction t with
  | hole => simp [renameTree, unreachedIn, reachedIn]
  | leaf i op => simp [renameTree, unreachedIn, reachedIn]
  | unary i op c ih =>
    cases op with
    | projection pr =>
      simp only [renameTree, h.projection, unreachedIn, reachedIn, List.forall_mem_append, hexprs, ih]
      exact and_and_and_comm
    | selection p =>
      simp only [renameTree, h.selection, unreachedIn, reachedIn, List.forall_mem_append, h.exprs.cons,
        h.exprs.nil, List.append_nil, hexpr, ih]
      exact and_and_and_comm
    | groupBy args implicit =>
      simp only [renameTree, h.groupBy, unreachedIn, reachedIn, List.forall_mem_append, hexprs, ih]
      exact and_and_and_comm
    | _ => simp [renameTree, unreachedIn, reachedIn]
  | join i join l r ihl ihr =>
    simp only [renameTree, h.join, unreachedIn, reachedIn, List.forall_mem_append, hexpr, ihl, ihr]
    tauto

end

section

variable {aliases : List String}

private theorem findInExpressions_eq {es : List Expr}
    (ih : ∀ e ∈ es, findInExpression aliases none e =
      some ((lookedAt e).filter (isReported aliases))) :
    findInExpressions aliases none es = some ((allLookedAt es).filter (isReported aliases)) := by
  induction es with
  | nil => rfl
  | cons e es ihes =>
    rw [List.forall_mem_cons] at ih
    simp [findInExpressions, allLookedAt, ih.1, ihes ih.2]

private theorem findInExpression_eq (e : Expr) :
    findInExpression aliases none e = some ((lookedAt e).filter (isReported aliases)) := by
  induction e using Expr.ind with
  | attr name aliasName =>
    by_cases h : isReported aliases (name, aliasName) = true
    · have hcond := of_decide_eq_true h
      simp only [findInExpression, lookedAt, List.filter_cons, h, if_true, List.filter_nil]
      rw [if_pos hcond]
    · have hcond := of_decide_eq_false (Bool.eq_false_iff.mpr h)
      simp only [findInExpression, lookedAt, List.filter_cons, h, List.filter_nil]
      rw [if_neg hcond]
      rfl
  | funcCall f args g d ih => exact findInExpressions_eq ih
  | boolPredicate op args ih => exact findInExpressions_eq ih
  | predicate l r op ihl ihr => simp [findInExpression, lookedAt, ihl, ihr]
  | expression l r op ihl ihr => simp [findInExpression, lookedAt, ihl, ihr]
  | selectExpression e rename ih => exact ih
  | typeCast t mod e ih => exact ih
  | _ => rfl

/-- `find_attributes_using_alias` without a stop node reports some of the attributes that it looks
at. -/
theorem findAttributesUsingAlias_eq (t : RaNode) :
    findAttributesUsingAlias aliases none false t =
      some ((lookedAtIn t).filter (isReported aliases)) := by
  have hexprs (es : List Expr) : findInExpressions aliases none es =
      some ((allLookedAt es).filter (isReported aliases)) :=
    findInExpressions_eq fun e _ => findInExpression_eq e
  induction t with
  | hole => rfl
  | leaf i op => rfl
  | unary i op c ih =>
    cases op <;>
      simp [findAttributesUsingAlias, lookedAtIn, hexprs, ih, unaryExprs]
  | join i join l r ihl ihr =>
    have hpredicate : (if join.predicate.isPresent = true then
        findInExpression aliases none join.predicate else some []) =
          some ((lookedAt join.predicate).filter (isReported aliases)) := by
      cases hp : join.predicate <;> first | rfl | exact findInExpression_eq _
    simp [findAttributesUsingAlias, lookedAtIn, hpredicate, ihl, ihr]

end

section

private theorem allReached_subset {es : List Expr}
    (ih : ∀ e ∈ es, ∀ a ∈ reached e, a ∈ lookedAt e) :
    ∀ a ∈ allReached es, a ∈ allLookedAt es := by
  induction es with
  | nil => simp [allReached]
  | cons e es ihes =>
    rw [List.forall_mem_cons] at ih
    intro a ha
    exact List.mem_append.mpr ((List.mem_append.mp ha).imp (ih.1 a) (ihes ih.2 a))

private theorem reached_subset (e : Expr) : ∀ a ∈ reached e, a ∈ lookedAt e := by
  induction e using Expr.ind with
  | attr name aliasName => exact fun a ha => ha
  | funcCall f args g d ih => exact allReached_subset ih
  | boolPredicate op args ih => exact allReached_subset ih
  | predicate l r op ihl ihr =>
    intro a ha
    exact List.mem_append.mpr ((List.mem_append.mp ha).imp (ihl a) (ihr a))
  | selectExpression e rename ih => exact ih
  | _ => exact fun a ha => nomatch ha

/-- The renaming comes to no attribute that the search does not look at. -/
theorem reachedIn_subset (t : RaNode) : ∀ a ∈ reachedIn t, a ∈ lookedAtIn t := by
  have hexprs (es : List Expr) := allReached_subset fun e (_ : e ∈ es) => reached_subset e
  induction t with
  | hole => exact fun a ha => nomatch ha
  | leaf i op => exact fun a ha => nomatch ha
  | unary i op c ih =>
    intro a ha
    cases op with
    | projection pr =>
      exact List.mem_append.mpr ((List.mem_append.mp ha).imp (hexprs pr.args a) (ih a))
    | selection p =>
      refine List.mem_append.mpr ((List.mem_append.mp ha).imp (fun ha => hexprs [p] a ?_) (ih a))
      exact List.mem_append_left _ ha
    | groupBy args implicit =>
      exact List.mem_append.mpr ((List.mem_append.mp ha).imp (hexprs args a) (ih a))
    | _ => cases ha
  | join i join l r ihl ihr =>
    intro a ha
    refine List.mem_append.mpr ((List.mem_append.mp ha).imp (reached_subset _ a) fun ha => ?_)
    exact List.mem_append.mpr ((List.mem_append.mp ha).imp (ihl a) (ihr a))

end

private theorem distinct_of_ids {K : List Frame} {x y : RaNode} (h : Distinct (plug K x))
    (hids : y.ids = x.ids) : Distinct (plug K y) := by
  rw [distinct_plug, Distinct, hids]
  exact distinct_plug.mp h

private theorem ids_renameTree (m : RenameMap) (t : RaNode) : (renameTree m t).ids = t.ids := by
  induction t with
  | unary i op c ih => cases op <;> simp [renameTree, RaNode.ids, ih]
  | join i join l r ihl ihr => simp [renameTree, RaNode.ids, ihl, ihr]
  | _ => rfl

/-- The walk of `rename_attributes` and its changes, seen from a position. -/
theorem updateAll_renameVisits {m : RenameMap} {x : RaNode} (hfull : x.Full) :
    ∀ K : List Frame, Distinct (plug K x) → ∃ is, renameVisits none x = some is ∧
      updateAll (renameNode m) is (plug K x) = plug K (renameTree m x) := by
  induction x with
  | hole => exact hfull.elim
  | leaf i op => exact fun K _ => ⟨[], rfl, rfl⟩
  | unary i op c ih =>
    intro K hd
    -- a node whose expressions are changed before the walk goes on below it
    have hvisit (op' : UnaryOp) (hop : renameNode m (.unary i op c) = .unary i op' c)
        (hvisits : renameVisits none (.unary i op c) = (renameVisits none c).map (i :: ·)) :
        ∃ is, renameVisits none (.unary i op c) = some is ∧
          updateAll (renameNode m) is (plug K (.unary i op c)) =
            plug K (.unary i op' (renameTree m c)) := by
      have hd' : Distinct (plug (.unary i op' :: K) c) := by
        rw [plug_cons]
        exact distinct_of_ids hd rfl
      obtain ⟨is, his, hupdate⟩ := ih hfull (.unary i op' :: K) hd'
      refine ⟨i :: is, by rw [hvisits, his]; rfl, ?_⟩
      have hfirst : update i (renameNode m) (plug K (.unary i op c)) =
          plug (.unary i op' :: K) c := by
        rw [update_plug_of_id? hd rfl, hop]
        rfl
      rw [updateAll, List.foldl_cons, hfirst]
      exact hupdate
    cases op with
    | projection pr => exact hvisit _ rfl (by simp [renameVisits])
    | selection p => exact hvisit _ rfl (by simp [renameVisits])
    | groupBy args implicit => exact hvisit _ rfl (by simp [renameVisits])
    | _ => exact ⟨[], by simp [renameVisits], rfl⟩
  | join i join l r ihl ihr =>
    intro K hd
    have hpredicate : Distinct (plug (.left i { join with
        predicate := renameExpression m join.predicate } r :: K) l) := by
      rw [plug_cons]
      exact distinct_of_ids hd rfl
    obtain ⟨ls, hls, hleft⟩ := ihl hfull.1 _ hpredicate
    have hright : Distinct (plug (.right i { join with
        predicate := renameExpression m join.predicate } (renameTree m l) :: K) r) := by
      rw [plug_cons]
      exact distinct_of_ids hd (by simp [Frame.plug, RaNode.ids, ids_renameTree])
    obtain ⟨rs, hrs, hupdate⟩ := ihr hfull.2 _ hright
    refine ⟨i :: (ls ++ rs), by simp [renameVisits, hls, hrs], ?_⟩
    have hfirst : update i (renameNode m) (plug K (.join i join l r)) =
        plug (.left i { join with predicate := renameExpression m join.predicate } r :: K) l := by
      rw [update_plug_of_id? hd rfl]
      rfl
    rw [updateAll] at hleft ⊢
    rw [List.foldl_cons, hfirst, List.foldl_append, hleft]
    exact hupdate

/-- `rename_attributes` on a whole tree. -/
theorem renameAttributes_eq (m : RenameMap) {t : RaNode} (hd : Distinct t) (hfull : t.Full) :
    renameAttributes m none t t = some (renameTree m t) := by
  obtain ⟨is, his, hupdate⟩ := updateAll_renameVisits hfull [] (m := m) hd
  rw [renameAttributes, his, Option.map_some]
  exact congrArg some hupdate

/-- After the renaming, the search reports an attribute under a listed qualifier exactly when the
renaming has missed one that it looks at; an attribute with a listed qualifier is left in the tree
exactly when one stands where the renaming does not come to. -/
theorem renameAttributes_complete_iff {aliases : List String} {m : RenameMap} {t : RaNode}
    {reported : List AttributeRef} (hd : Distinct t) (hfull : t.Full)
    (hreported : findAttributesUsingAlias aliases none false t = some reported)
    (hm : RenamesReported aliases reported m) :
    ∃ t' reported', renameAttributes m none t t = some t' ∧
      findAttributesUsingAlias aliases none false t' = some reported' ∧
      ((∀ a ∈ reported', a.2 ∉ aliases) ↔ ∀ a ∈ missedIn t, a.2 ∉ aliases) ∧
      ((∀ a ∈ treeAttributes t', a.2 ∉ aliases) ↔ ∀ a ∈ unrenamedIn t, a.2 ∉ aliases) := by
  refine ⟨renameTree m t, _, renameAttributes_eq m hd hfull, findAttributesUsingAlias_eq _, ?_, ?_⟩
  all_goals
    have hreached : ∀ a ∈ reachedIn t, (renamedRef m a).2 ∉ aliases := by
      intro a ha
      refine hm.renamedRef_not_mem fun hq => ?_
      rw [findAttributesUsingAlias_eq] at hreported
      rw [← Option.some.inj hreported]
      exact List.mem_filter.mpr ⟨reachedIn_subset t a ha, by simp [isReported, hq]⟩
  · have hiff := forall_renameTree (m := m) (P := fun a => a.2 ∉ aliases) collectsBelow_lookedAtIn t
    have hfilter : (∀ a ∈ (lookedAtIn (renameTree m t)).filter (isReported aliases), a.2 ∉ aliases) ↔
        ∀ a ∈ lookedAtIn (renameTree m t), a.2 ∉ aliases := by
      refine ⟨fun h a ha hq => ?_, fun h a ha => h a (List.mem_filter.mp ha).1⟩
      exact h a (List.mem_filter.mpr ⟨ha, by simp [isReported, hq]⟩) hq
    rw [hfilter, hiff, missedIn]
    exact and_iff_left hreached
  · rw [forall_renameTree (P := fun a => a.2 ∉ aliases) collectsBelow_treeAttributes, unrenamedIn]
    exact and_iff_left hreached

/-- The map of `decorrelate_subquery` after the relation `s` has moved to a CTE. -/
def movedToCte : RenameMap := RenameMap.set [] "s" "" "cte_1" ""

private theorem movedToCte_renames (reported : List AttributeRef) :
    RenamesReported ["s"] reported movedToCte := by
  refine ⟨by decide, by decide, fun a _ hq => .inr ?_⟩
  rw [List.mem_singleton.mp hq]
  rfl

/-- `select s.name from cte_1 where s.id=1`. -/
def plainQuery : RaNode :=
  .projection 0 { args := [.selectExpression (.attribute "name" "s") ""] }
    (.selection 1 (.predicate (.attribute "id" "s") (.constant "1" .int) "=")
      (.relation 2 "cte_1" ""))

theorem plainQuery_renamed :
    ∃ t', renameAttributes movedToCte none plainQuery plainQuery = some t' ∧
      ∀ a ∈ treeAttributes t', a.2 ∉ ["s"] := by
  have hd : Distinct plainQuery := by
    unfold Distinct
    decide
  obtain ⟨t', _, ht', -, -, hiff⟩ := renameAttributes_complete_iff hd trivial rfl
    (movedToCte_renames _)
  exact ⟨t', ht', hiff.mpr (by decide)⟩

/-- `select s.name, s.id+5 from cte_1 order by s.name`. -/
def orderedQuery : RaNode :=
  .projection 0
    { args := [.selectExpression (.attribute "name" "s") "",
        .selectExpression (.expression (.attribute "id" "s") (.constant "5" .int) "+") ""] }
    (.orderBy 1 [.attribute "name" "s"] [.default] (.relation 2 "cte_1" ""))

/-- The search reports all three attributes, the renaming comes to the first one only. -/
theorem orderedQuery_keeps_qualifiers :
    findAttributesUsingAlias ["s"] none false orderedQuery =
        some [("name", "s"), ("id", "s"), ("name", "s")] ∧
      RenamesReported ["s"] [("name", "s"), ("id", "s"), ("name", "s")] movedToCte ∧
      ∃ t', renameAttributes movedToCte none orderedQuery orderedQuery = some t' ∧
        findAttributesUsingAlias ["s"] none false t' = some [("id", "s"), ("name", "s")] ∧
        treeAttributes t' = [("name", "cte_1"), ("id", "s"), ("name", "s")] :=
  ⟨by decide, movedToCte_renames _, _, rfl, by decide, by decide⟩

end SqlOptimizer.Unnesting.RenamedAttributes
