import SqlOptimizer.Parse.Inventory
import SqlOptimizer.Semantics.Evaluation
import SqlOptimizer.Unnesting.Attributes

/-!
Lexical scoping of attributes. A query block sees the items of its own FROM clause and then
those of the blocks around it; a derived table does not see the FROM clause that it stands in.
An attribute with a qualifier belongs to the item of that visible name, and one without to an
item that has a column of its name; of a base relation, the prefix tells.
-/

set_option autoImplicit false
set_option relaxedAutoImplicit false

namespace SqlOptimizer.Unnesting.LexicalScopes

open Algebra.RelationalAlgebra
open Parse.Correlation (isTpchAttribute)
open Parse.Inventory (unaryExprs leafExprs)
open Semantics.Evaluation (columnName qualifier)
open Attributes

/-- An item of a FROM clause: its visible name and the columns that it has. -/
structure Source where
  qualifier : String
  hasColumn : String → Bool

/-- The item that an attribute belongs to. -/
def Source.binds (src : Source) (a : AttributeRef) : Bool :=
  if a.2 = "" then src.hasColumn a.1 else src.qualifier = a.2

def binds (scope : List Source) (a : AttributeRef) : Bool := scope.any (·.binds a)

/-- The qualifier of a star in a select list. -/
def starQualifier : Expr → Option String
  | .attribute "*" aliasName => some aliasName
  | .selectExpression (.attribute "*" aliasName) _ => some aliasName
  | _ => none

/-- The select expression gives a column of that name; a star gives those of the block. -/
def givesColumn (block : List Source) (name : String) (e : Expr) : Bool :=
  match starQualifier e with
  | some aliasName => block.any fun src =>
      (aliasName = "" || src.qualifier = aliasName) && src.hasColumn name
  | none => columnName e = name

/-- The columns of a derived table. -/
def hasOutput (block : List Source) (pr : Projection) (name : String) : Bool :=
  if pr.subqueryColumns.isEmpty then pr.args.any (givesColumn block name)
  else name ∈ pr.subqueryColumns

/-- The items of a FROM clause; a WHERE subquery is none. -/
def sources : RaNode → List Source
  | .hole => []
  | .leaf _ (.relation name aliasName) =>
      [⟨qualifier name aliasName, fun attr => isTpchAttribute attr name⟩]
  | .leaf _ (.values _ aliasName column) => [⟨aliasName, fun attr => attr = column⟩]
  | .leaf _ .dummy => []
  | .unary _ (.projection pr) c =>
      if pr.subqueryAlias ≠ "" then [⟨pr.subqueryAlias, hasOutput (sources c) pr⟩] else sources c
  | .unary _ _ c => sources c
  | .join _ join l r =>
      let items := if join.marker ≠ 0 then sources l else sources l ++ sources r
      if join.aliasName ≠ "" then
        [⟨join.aliasName, fun attr =>
          if join.columns.isEmpty then items.any (·.hasColumn attr) else attr ∈ join.columns⟩]
      else items

/-- The nodes of a tree with what the attributes at each of them may refer to inside the tree;
`block` is the FROM clause of the block that the tree belongs to, `outer` what is around it. -/
def scopedNodes (outer block : List Source) : RaNode → List (RaNode × List Source)
  | .hole => []
  | .leaf i op => [(.leaf i op, outer)]
  | .unary i (.projection pr) c =>
      (.projection i pr c, sources c ++ outer) :: scopedNodes outer (sources c) c
  | .unary i op c => (.unary i op c, block ++ outer) :: scopedNodes outer block c
  | .join i join l r =>
      if join.marker ≠ 0 then
        (.join i join l r, block ++ outer) ::
          (scopedNodes outer block l ++ scopedNodes (block ++ outer) [] r)
      else
        (.join i join l r, sources l ++ sources r ++ outer) ::
          (scopedNodes outer block l ++ scopedNodes outer block r)

/-- The nodes of a subtree with the scopes that it has itself. -/
def scopes (it : RaNode) : List (RaNode × List Source) := scopedNodes [] (sources it) it

mutual

/-- The attributes in an expression. -/
def attributesIn : Expr → List AttributeRef
  | .nullptr => []
  | .constant _ _ => []
  | .attribute name aliasName => [(name, aliasName)]
  | .funcCall _ args _ _ => attributesInAll args
  | .typeCast _ _ e => attributesIn e
  | .selectExpression e _ => attributesIn e
  | .expression l r _ => attributesIn l ++ attributesIn r
  | .list args => attributesInAll args
  | .inList args => attributesInAll args
  | .caseExpr whens elseDefault => attributesInAll whens ++ attributesIn elseDefault
  | .caseWhen w t => attributesIn w ++ attributesIn t
  | .boolPredicate _ args => attributesInAll args
  | .predicate l r _ => attributesIn l ++ attributesIn r
  | .nullTest e _ => attributesIn e
  | .whereSubqueryMarker _ _ => []

def attributesInAll : List Expr → List AttributeRef
  | [] => []
  | e :: es => attributesIn e ++ attributesInAll es

end

mutual

/-- The attributes that `get_expression_attributes` does not come to. -/
def hiddenInExpression : Expr → List AttributeRef
  | .attribute _ _ => []
  | .expression l r _ => hiddenInExpression l ++ hiddenInExpression r
  | .funcCall _ args _ _ => hiddenInExpressions args
  | .typeCast _ _ e => hiddenInExpression e
  | e => attributesIn e

def hiddenInExpressions : List Expr → List AttributeRef
  | [] => []
  | e :: es => hiddenInExpression e ++ hiddenInExpressions es

end

mutual

/-- The attributes that `get_predicate_attributes` does not come to. -/
def hiddenInPredicate : Expr → List AttributeRef
  | .boolPredicate _ args => hiddenInPredicates args
  | .predicate l r _ => hiddenInExpression l ++ hiddenInExpression r
  | e => attributesIn e

def hiddenInPredicates : List Expr → List AttributeRef
  | [] => []
  | e :: es => hiddenInPredicate e ++ hiddenInPredicates es

end

/-- The attributes at a node itself that `get_subtree_attributes` does not come to. -/
def hiddenAttributes : RaNode → List AttributeRef
  | .hole => []
  | .leaf _ (.values vs _ _) => attributesInAll vs
  | .leaf _ _ => []
  | .unary _ .root _ => []
  | .unary _ (.projection pr) _ => hiddenInExpressions pr.args
  | .unary _ (.selection p) _ => hiddenInPredicate p
  | .unary _ (.orderBy args _) _ => attributesInAll args
  | .unary _ (.groupBy args _) _ => hiddenInExpressions args
  | .unary _ (.having p) _ => attributesIn p
  | .join _ join _ _ => hiddenInPredicate join.predicate

/-- The attribute among the items. -/
def itemAttribute : Item → Option AttributeRef
  | .attribute name aliasName => some (name, aliasName)
  | .marker _ _ => none

/-- The attributes among some items. -/
def itemAttributes (items : List Item) : List AttributeRef := items.filterMap itemAttribute

/-- The attributes at a node itself that `get_subtree_attributes` comes to. -/
def visitedAttributes (t : RaNode) : List AttributeRef := itemAttributes ((nodeItems t).getD [])

/-- The expressions of a node. -/
def nodeExprs : RaNode → List Expr
  | .hole => []
  | .leaf _ op => leafExprs op
  | .unary _ op _ => unaryExprs op
  | .join _ join _ _ => [join.predicate]

/-- The attributes among the items of a node, which are numbered from `k` on. -/
def numbered (node k : Nat) (items : List Item) : List Occurrence :=
  (items.zipIdx k).filterMap fun x =>
    (itemAttribute x.1).map fun a => ⟨node, x.2, a.1, a.2⟩

/-- The attribute objects of a node that the collectors come to. -/
def visitedAt (t : RaNode) : List Occurrence :=
  numbered (t.id?.getD 0) 0 ((nodeItems t).getD [])

/-- Those that they do not come to get the next numbers. -/
def hiddenAt (t : RaNode) : List Occurrence :=
  numbered (t.id?.getD 0) ((nodeItems t).getD []).length
    ((hiddenAttributes t).map fun a => .attribute a.1 a.2)

/-- All attribute objects of a node. -/
def occurrencesAt (t : RaNode) : List Occurrence := visitedAt t ++ hiddenAt t

/-- The name and the qualifier of an occurrence. -/
def refOf (o : Occurrence) : AttributeRef := (o.name, o.aliasName)

/-- D over the left side; it has no arguments until it is set up. -/
abbrev dProjection (i : Nat) (pr : Projection) (left : RaNode) : RaNode :=
  .projection i { pr with subqueryAlias := "d" } left

/-- The items of the left side. -/
def leftSources (pr : Projection) (left : RaNode) : List Source :=
  if pr.args.isEmpty then sources left else [⟨"d", hasOutput (sources left) pr⟩]

/-- The attribute is free in the subtree, and the left side has the item that it belongs to. -/
def refersLeft (left : List Source) (scope : List Source) (a : AttributeRef) : Bool :=
  !binds scope a && binds left a

/-- The attribute objects of a subtree that are free in it and belong to the left side. -/
def freeOccurrences (left : List Source) (it : RaNode) : List Occurrence :=
  (scopes it).flatMap fun x => (occurrencesAt x.1).filter fun o => refersLeft left x.2 (refOf o)

theorem attributesInAll_eq_flatMap (es : List Expr) :
    attributesInAll es = es.flatMap attributesIn := by
  induction es with
  | nil => rfl
  | cons e es ih => rw [attributesInAll, ih, List.flatMap_cons]

private theorem perm_append {xs ys as bs : List AttributeRef} (h : xs.Perm as) (h' : ys.Perm bs)
    {xs₁ xs₂ ys₁ ys₂ : List AttributeRef} (hx : xs = xs₁ ++ xs₂) (hy : ys = ys₁ ++ ys₂) :
    ((xs₁ ++ ys₁) ++ (xs₂ ++ ys₂)).Perm (as ++ bs) := by
  subst hx hy
  refine List.Perm.trans ?_ (h.append h')
  rw [List.append_assoc, List.append_assoc]
  refine List.Perm.append_left xs₁ ?_
  rw [← List.append_assoc, ← List.append_assoc]
  exact List.perm_append_comm.append_right ys₂

/-- What the collectors come to in an expression and what they leave out are its attributes. -/
private def Accounted (collected : Option (List Item)) (hidden all : List AttributeRef) : Prop :=
  ∀ items, collected = some items → (itemAttributes items ++ hidden).Perm all

private theorem Accounted.append {x y : Option (List Item)} {h h' a a' : List AttributeRef}
    (hx : Accounted x h a) (hy : Accounted y h' a') :
    Accounted (x.bind fun as => y.map (as ++ ·)) (h ++ h') (a ++ a') := by
  intro items hitems
  obtain ⟨is, his, hmap⟩ := Option.bind_eq_some_iff.mp hitems
  obtain ⟨js, hjs, rfl⟩ := Option.map_eq_some_iff.mp hmap
  rw [itemAttributes, List.filterMap_append]
  exact perm_append (hx is his) (hy js hjs) rfl rfl

private theorem Accounted.hidden (all : List AttributeRef) : Accounted (some []) all all := by
  rintro items ⟨rfl⟩
  exact .refl _

private theorem accounted_all {collect : Expr → Option (List Item)}
    {collectAll : List Expr → Option (List Item)} {hidden : Expr → List AttributeRef}
    {hiddenAll : List Expr → List AttributeRef} (hnil : collectAll [] = some [])
    (hcons : ∀ e es, collectAll (e :: es) =
      (collect e).bind fun as => (collectAll es).map (as ++ ·))
    (hnil' : hiddenAll [] = []) (hcons' : ∀ e es, hiddenAll (e :: es) = hidden e ++ hiddenAll es)
    {es : List Expr} (ih : ∀ e ∈ es, Accounted (collect e) (hidden e) (attributesIn e)) :
    Accounted (collectAll es) (hiddenAll es) (attributesInAll es) := by
  induction es with
  | nil =>
    rw [hnil, hnil']
    exact .hidden []
  | cons e es ihes =>
    rw [List.forall_mem_cons] at ih
    rw [hcons, hcons', attributesInAll]
    exact ih.1.append (ihes ih.2)

/-- The operands of an arithmetic expression; a missing one is passed over. -/
theorem exists_of_getExpressionAttributes_expression {l r : Expr} {op : String} {items : List Item}
    (h : getExpressionAttributes (.expression l r op) = some items) :
    ∃ as bs, items = as ++ bs ∧ (l = .nullptr ∧ as = [] ∨ getExpressionAttributes l = some as) ∧
      (r = .nullptr ∧ bs = [] ∨ getExpressionAttributes r = some bs) := by
  by_cases hl : l = .nullptr
  · subst hl
    by_cases hr : r = .nullptr
    · subst hr
      obtain rfl := Option.some.inj h
      exact ⟨[], [], rfl, .inl ⟨rfl, rfl⟩, .inl ⟨rfl, rfl⟩⟩
    · have hget : getExpressionAttributes (.expression .nullptr r op) =
          getExpressionAttributes r := by
        cases r <;> first | rfl | exact absurd rfl hr
      exact ⟨[], items, rfl, .inl ⟨rfl, rfl⟩, .inr (hget ▸ h)⟩
  · by_cases hr : r = .nullptr
    · subst hr
      have hget : getExpressionAttributes (.expression l .nullptr op) =
          getExpressionAttributes l := by
        cases l <;> first | rfl | exact absurd rfl hl
      exact ⟨items, [], (List.append_nil items).symm, .inr (hget ▸ h), .inl ⟨rfl, rfl⟩⟩
    · have hget : getExpressionAttributes (.expression l r op) =
          (getExpressionAttributes l).bind fun as => (getExpressionAttributes r).map (as ++ ·) := by
        rw [getExpressionAttributes] <;> simp [hl, hr]
      rw [hget] at h
      obtain ⟨as, has, hmap⟩ := Option.bind_eq_some_iff.mp h
      obtain ⟨bs, hbs, rfl⟩ := Option.map_eq_some_iff.mp hmap
      exact ⟨as, bs, rfl, .inr has, .inr hbs⟩

private theorem accounted_expression (e : Expr) :
    Accounted (getExpressionAttributes e) (hiddenInExpression e) (attributesIn e) := by
  induction e using Expr.ind with
  | nullptr => exact fun _ h => nomatch h
  | attr name aliasName =>
    rintro items ⟨rfl⟩
    exact .refl _
  | funcCall f args g d ih => exact accounted_all rfl (fun _ _ => rfl) rfl (fun _ _ => rfl) ih
  | typeCast t m e ih => exact ih
  | expression l r op ihl ihr =>
    have hoperand {e : Expr} {as : List Item} (ih : Accounted (getExpressionAttributes e)
        (hiddenInExpression e) (attributesIn e))
        (h : e = .nullptr ∧ as = [] ∨ getExpressionAttributes e = some as) :
        (itemAttributes as ++ hiddenInExpression e).Perm (attributesIn e) := by
      rcases h with ⟨rfl, rfl⟩ | h
      · exact .refl _
      · exact ih as h
    intro items h
    obtain ⟨as, bs, rfl, hl, hr⟩ := exists_of_getExpressionAttributes_expression h
    rw [itemAttributes, List.filterMap_append]
    exact perm_append (hoperand ihl hl) (hoperand ihr hr) rfl rfl
  | _ => exact .hidden _

private theorem accounted_predicate (e : Expr) :
    Accounted (getPredicateAttributes e) (hiddenInPredicate e) (attributesIn e) := by
  induction e using Expr.ind with
  | nullptr => exact fun _ h => nomatch h
  | boolPredicate op args ih => exact accounted_all rfl (fun _ _ => rfl) rfl (fun _ _ => rfl) ih
  | predicate l r op => exact (accounted_expression l).append (accounted_expression r)
  | whereSubqueryMarker m t =>
    rintro items ⟨rfl⟩
    exact .refl _
  | _ => exact .hidden _

/-- The attributes that the collectors come to at a node and those that they leave out are all
its attributes. -/
theorem perm_attributesInAll {t : RaNode} (h : (nodeItems t).isSome) :
    (visitedAttributes t ++ hiddenAttributes t).Perm (attributesInAll (nodeExprs t)) := by
  obtain ⟨items, hitems⟩ := Option.isSome_iff_exists.mp h
  rw [visitedAttributes, hitems, Option.getD_some]
  have hone (e : Expr) : attributesInAll [e] = attributesIn e := List.append_nil _
  have hall (es : List Expr) : Accounted (getAllExpressionAttributes es) (hiddenInExpressions es)
      (attributesInAll es) :=
    accounted_all rfl (fun _ _ => rfl) rfl (fun _ _ => rfl) fun e _ => accounted_expression e
  cases t with
  | hole => exact Accounted.hidden [] items hitems
  | leaf i op => cases op <;> exact Accounted.hidden _ items hitems
  | unary i op c =>
    cases op with
    | projection pr => exact hall pr.args items hitems
    | selection p => exact hone p ▸ accounted_predicate p items hitems
    | groupBy args implicit => exact hall args items hitems
    | having p => exact hone p ▸ Accounted.hidden (attributesIn p) items hitems
    | _ => exact Accounted.hidden _ items hitems
  | join i join l r =>
    by_cases hp : join.predicate.isPresent
    · rw [nodeItems, if_pos hp] at hitems
      exact hone join.predicate ▸ accounted_predicate join.predicate items hitems
    · rw [nodeItems, if_neg hp] at hitems
      have hnull : join.predicate = .nullptr := by
        cases hj : join.predicate <;> simp_all [Expr.isPresent]
      obtain rfl := Option.some.inj hitems
      simp [hiddenAttributes, nodeExprs, hone, hnull, hiddenInPredicate, attributesIn, itemAttributes]

end SqlOptimizer.Unnesting.LexicalScopes
