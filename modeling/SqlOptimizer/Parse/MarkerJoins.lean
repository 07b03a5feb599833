import SqlOptimizer.Parse.Represented

/-!
Where the parser puts the join of a WHERE subquery: below the node whose condition has its
marker. The parser functions are followed with the property of all trees that they build and
of all WITH queries that they hoist.
-/

set_option autoImplicit false
set_option relaxedAutoImplicit false

namespace SqlOptimizer.Parse.MarkerJoins

open Algebra.RelationalAlgebra
open Tree.Frames
open PgQuery Correlation Builder ParseSqlToRa Represented

variable {α β : Type}

mutual

/-- The markers that stand in a condition as conditions themselves. -/
def conditionMarkers : Expr → List (Nat × JoinType)
  | .boolPredicate _ args => allConditionMarkers args
  | .whereSubqueryMarker m type => [(m, type)]
  | _ => []

def allConditionMarkers : List Expr → List (Nat × JoinType)
  | [] => []
  | e :: es => conditionMarkers e ++ allConditionMarkers es

end

/-- The markers of the joins of a tree. -/
def joinMarkers : RaNode → List (Nat × JoinType)
  | .hole => []
  | .leaf _ _ => []
  | .unary _ _ c => joinMarkers c
  | .join _ join l r =>
      (if join.marker ≠ 0 then [(join.marker, join.type)] else []) ++
        (joinMarkers l ++ joinMarkers r)

/-- The condition of an operator. -/
def operatorCondition : UnaryOp → Expr
  | .selection p => p
  | .having p => p
  | _ => .nullptr

/-- Every marker in a condition has its join below the node. -/
def Anchored : RaNode → Prop
  | .hole => True
  | .leaf _ _ => True
  | .unary _ op c =>
      (∀ x ∈ conditionMarkers (operatorCondition op), x ∈ joinMarkers c) ∧ Anchored c
  | .join _ join l r =>
      (∀ x ∈ conditionMarkers join.predicate, x ∈ joinMarkers l ∨ x ∈ joinMarkers r) ∧
        Anchored l ∧ Anchored r

/-- The joins stay, and what was anchored still is. -/
structure Extends (t t' : RaNode) : Prop where
  joins : ∀ x ∈ joinMarkers t, x ∈ joinMarkers t'
  anchored : Anchored t → Anchored t'

theorem Extends.refl (t : RaNode) : Extends t t := ⟨fun _ => id, id⟩

theorem Extends.trans {t t' t'' : RaNode} (h : Extends t t') (h' : Extends t' t'') :
    Extends t t'' :=
  ⟨fun x hx => h'.joins x (h.joins x hx), fun ht => h'.anchored (h.anchored ht)⟩

theorem Extends.plug {t t' : RaNode} (h : Extends t t') (K : List Frame) :
    Extends (plug K t) (plug K t') := by
  induction K generalizing t t' with
  | nil => exact h
  | cons f K ih =>
    have hj := h.joins
    have ha := h.anchored
    refine ih ?_
    cases f with
    | unary i op => exact ⟨hj, fun ht => ⟨fun x hx => hj x (ht.1 x hx), ha ht.2⟩⟩
    | left i join r =>
      refine ⟨fun x hx => ?_, fun ht => ⟨fun x hx => ?_, ha ht.2.1, ht.2.2⟩⟩
      · simp only [Frame.plug, joinMarkers, List.mem_append] at hx ⊢
        exact hx.imp_right fun hx => hx.imp_left (hj x)
      · exact (ht.1 x hx).imp_left (hj x)
    | right i join l =>
      refine ⟨fun x hx => ?_, fun ht => ⟨fun x hx => ?_, ht.2.1, ha ht.2.2⟩⟩
      · simp only [Frame.plug, joinMarkers, List.mem_append] at hx ⊢
        exact hx.imp_right fun hx => hx.imp_right (hj x)
      · exact (ht.1 x hx).imp_right (hj x)

theorem mem_joinMarkers_plug (K : List Frame) {t : RaNode} {x : Nat × JoinType}
    (hx : x ∈ joinMarkers t) : x ∈ joinMarkers (plug K t) := by
  induction K generalizing t with
  | nil => exact hx
  | cons f K ih =>
    refine ih ?_
    cases f with
    | unary i op => exact hx
    | left i join r => simp [Frame.plug, joinMarkers, hx]
    | right i join l => simp [Frame.plug, joinMarkers, hx]

/-- What a node gets with a new child. -/
private theorem insertChild_extends {owner sub : RaNode} (howner : LacksChild owner)
    (hsub : Anchored sub) : Extends owner (insertChild sub owner) ∧
      ∀ x ∈ joinMarkers sub, x ∈ joinMarkers (insertChild sub owner) := by
  have hleft (i : Nat) (join : Join) (r : RaNode) : Extends (.join i join .hole r)
      (.join i join sub r) ∧ ∀ x ∈ joinMarkers sub, x ∈ joinMarkers (.join i join sub r) := by
    refine ⟨⟨fun x hx => ?_, fun ht => ⟨fun x hx => ?_, hsub, ht.2.2⟩⟩, fun x hx => ?_⟩
    · simp only [joinMarkers, List.nil_append, List.mem_append] at hx ⊢
      exact hx.imp_right .inr
    · exact .inr ((ht.1 x hx).resolve_left (by rintro ⟨⟩))
    · simp [joinMarkers, hx]
  have hright (i : Nat) (join : Join) (l : RaNode) : Extends (.join i join l .hole)
      (.join i join l sub) ∧ ∀ x ∈ joinMarkers sub, x ∈ joinMarkers (.join i join l sub) := by
    refine ⟨⟨fun x hx => ?_, fun ht => ⟨fun x hx => ?_, ht.2.1, hsub⟩⟩, fun x hx => ?_⟩
    · simp only [joinMarkers, List.append_nil, List.mem_append] at hx ⊢
      exact hx.imp_right .inl
    · exact .inl ((ht.1 x hx).resolve_right (by rintro ⟨⟩))
    · simp [joinMarkers, hx]
  cases howner with
  | unary i op => exact ⟨⟨nofun, fun ht => ⟨fun x hx => absurd (ht.1 x hx) nofun, hsub⟩⟩, fun _ => id⟩
  | left i join r =>
    cases r with
    | hole => exact hright i join .hole
    | _ => exact hleft i join _
  | right i join l =>
    cases l with
    | hole => exact hright i join .hole
    | _ => exact hright i join _

/-- A subtree is attached with its joins. -/
theorem addSubtree_extends {base sub t : RaNode} (h : addSubtree base sub = some t)
    (hsub : Anchored sub) : Extends base t ∧ ∀ x ∈ joinMarkers sub, x ∈ joinMarkers t := by
  obtain ⟨K, owner, howner, rfl, rfl⟩ := exists_plug_of_addSubtree h
  obtain ⟨hext, hjoins⟩ := insertChild_extends howner hsub
  exact ⟨hext.plug K, fun x hx => mem_joinMarkers_plug K (hjoins x hx)⟩

/-- The action hoists anchored WITH queries only, and its result has the property. -/
def Keeps (x : Parser α) (post : α → Prop) : Prop :=
  ∀ s r s', x s = some (r, s') → (∀ c ∈ s.ctes, Anchored c) → post r ∧ ∀ c ∈ s'.ctes, Anchored c

namespace Keeps

variable {post : α → Prop} {post' : β → Prop}

theorem pure {r : α} (h : post r) : Keeps (pure r) post := by
  intro s r' s' hr hs
  obtain ⟨rfl, rfl⟩ := Prod.mk.inj (pure_eq_some.mp hr)
  exact ⟨h, hs⟩

theorem bind {x : Parser α} {f : α → Parser β} (hx : Keeps x post)
    (hf : ∀ r, post r → Keeps (f r) post') : Keeps (x >>= f) post' := by
  intro s r s' hr hs
  obtain ⟨a, s₁, ha, hr⟩ := bind_eq_some.mp hr
  obtain ⟨hpost, hs₁⟩ := hx s a s₁ ha hs
  exact hf a hpost s₁ r s' hr hs₁

theorem mono {x : Parser α} {post'' : α → Prop} (hx : Keeps x post) (h : ∀ r, post r → post'' r) :
    Keeps x post'' :=
  fun s r s' hr hs => (hx s r s' hr hs).imp_left (h r)

theorem crash : Keeps (crash : Parser α) post := fun _ _ _ h => by cases h

/-- An action that leaves the state as it is. -/
theorem inPlace {x : Parser α} (hx : ∀ s r s', x s = some (r, s') → s' = s ∧ post r) :
    Keeps x post := by
  intro s r s' hr hs
  obtain ⟨rfl, hpost⟩ := hx s r s' hr
  exact ⟨hpost, hs⟩

theorem ofOption (o : Option α) : Keeps (ofOption o) fun a => o = some a :=
  inPlace fun _ _ _ h => ((ofOption_eq_some.mp h).symm)

theorem newId : Keeps newId fun _ => True := by
  intro s r s' h hs
  obtain ⟨rfl, rfl⟩ := Prod.mk.inj (newId_eq_some.mp h)
  exact ⟨trivial, hs⟩

theorem nextMarker : Keeps nextMarker fun m => m ≠ 0 := by
  intro s r s' h hs
  obtain ⟨rfl, rfl⟩ := Prod.mk.inj (nextMarker_eq_some.mp h)
  exact ⟨Nat.succ_ne_zero _, hs⟩

theorem pushCte {cte : RaNode} (h : Anchored cte) : Keeps (pushCte cte) fun _ => True := by
  intro s r s' hr hs
  obtain ⟨rfl, rfl⟩ := Prod.mk.inj (pushCte_eq_some.mp hr)
  refine ⟨trivial, fun c hc => ?_⟩
  rcases List.mem_append.mp hc with hc | hc
  · exact hs c hc
  · exact List.mem_singleton.mp hc ▸ h

theorem attachTo {base sub : RaNode} (hsub : Anchored sub) : Keeps (attachTo base sub)
    fun t => Extends base t ∧ ∀ x ∈ joinMarkers sub, x ∈ joinMarkers t :=
  inPlace fun _ _ _ h => ⟨(attachTo_eq_some.mp h).2, addSubtree_extends (attachTo_eq_some.mp h).1 hsub⟩

theorem attachPresent {base sub : RaNode} (hsub : Anchored sub) : Keeps (attachPresent base sub)
    fun t => Extends base t ∧ ∀ x ∈ joinMarkers sub, x ∈ joinMarkers t := by
  unfold Builder.attachPresent
  split
  · next h =>
    cases sub with
    | hole => exact pure ⟨.refl base, by rintro _ ⟨⟩⟩
    | _ => cases h
  · exact attachTo hsub

end Keeps

/-- A condition with the tree that has the joins of its subqueries. -/
structure Conditioned (sel : RaNode) (r : Expr × RaNode) : Prop where
  tree : Extends sel r.2
  markers : ∀ x ∈ conditionMarkers r.1, x ∈ joinMarkers r.2

/-- A SELECT statement becomes an anchored tree. -/
def StatementAnchors (n : PgNode) : Prop := Keeps (parseSelectStatement n) Anchored

/-- The joins for the markers of a condition are attached to the tree. -/
def ConditionAnchors (n : PgNode) : Prop :=
  ∀ sel negated, Keeps (parseWhereExpression n sel negated) (Conditioned sel)

/-- The join of a WHERE subquery and its marker. -/
private theorem keeps_subqueryJoin {subselect : PgNode} (types : JoinType × JoinType)
    {probe : Parser Expr} (hsub : StatementAnchors subselect)
    (hprobe : Keeps probe fun p => conditionMarkers p = []) :
    Keeps (subqueryJoin subselect types (parseSelectStatement subselect) probe) fun r =>
      Anchored r.2 ∧ ∀ x ∈ conditionMarkers r.1, x ∈ joinMarkers r.2 := by
  refine Keeps.bind Keeps.nextMarker fun m hm => Keeps.bind (Keeps.ofOption _) fun correlated _ => ?_
  refine Keeps.bind Keeps.newId fun i _ => Keeps.bind hsub fun pr hpr => ?_
  refine Keeps.bind hprobe fun p hp => Keeps.pure ⟨?_, ?_⟩
  · exact ⟨fun x hx => by simp [hp] at hx, trivial, hpr⟩
  · intro x hx
    simp only [rightMarker, conditionMarkers] at hx
    simp [joinMarkers, hm, List.mem_singleton.mp hx]

/-- An action that leaves the state alone. -/
private theorem Keeps.idle {x : Parser α} (h : ∀ s r s', x s = some (r, s') → s' = s) :
    Keeps x fun _ => True :=
  Keeps.inPlace fun s r s' hx => ⟨h s r s' hx, trivial⟩

private theorem keeps_expression (n : PgNode) : Keeps (parseExpression n) fun _ => True :=
  Keeps.idle (inPlace n).expression

private theorem keeps_expressions (ns : List PgNode) :
    Keeps (parseExpressions ns) fun _ => True :=
  Keeps.idle fun _ _ _ => inPlace_parseExpressions fun n _ => inPlace n

private theorem keeps_operand {n : PgNode}
    (hsub : ∀ type testexpr subselect, n = .subLink type testexpr subselect →
      StatementAnchors subselect) :
    Keeps (operand n (parseSubselect n) (parseExpression n)) fun r => Anchored r.2 := by
  have hexpr : Keeps (do let e ← parseExpression n; return (e, RaNode.hole)) fun r => Anchored r.2 :=
    Keeps.bind (keeps_expression n) fun e _ => Keeps.pure trivial
  cases n with
  | subLink type testexpr subselect =>
    exact (keeps_subqueryJoin scalarTypes (hsub _ _ _ rfl) (Keeps.pure rfl)).mono fun r hr => hr.1
  | _ => exact hexpr

private theorem keeps_rightOperand {n : PgNode}
    (hsub : ∀ type testexpr subselect, n = .subLink type testexpr subselect →
      StatementAnchors subselect) :
    Keeps (rightOperand n (parseSubselect n) (parseItems n) (parseExpression n)) fun r =>
      Anchored r.2 := by
  cases n with
  | list items =>
    exact Keeps.bind (Keeps.idle (inPlace (.list items)).items) fun es _ => Keeps.pure trivial
  | _ => exact keeps_operand hsub

private theorem keeps_comparison (operator : String) (sel : RaNode)
    {left right : Parser (Expr × RaNode)} (hl : Keeps left fun r => Anchored r.2)
    (hr : Keeps right fun r => Anchored r.2) :
    Keeps (comparison operator sel left right) (Conditioned sel) := by
  refine Keeps.bind hl fun l hl => Keeps.bind (Keeps.attachPresent hl) fun sel₁ h₁ => ?_
  refine Keeps.bind hr fun r hr => Keeps.bind (Keeps.attachPresent hl) fun sel₂ h₂ => ?_
  refine Keeps.bind (Keeps.attachPresent hr) fun sel₃ h₃ => Keeps.pure ⟨?_, by rintro _ ⟨⟩⟩
  exact (h₁.1.trans h₂.1).trans h₃.1

private theorem keeps_whereSublink {type : SubLinkType} {testexpr subselect : PgNode} (sel : RaNode)
    (negated : Bool) (hsub : StatementAnchors subselect) :
    Keeps (whereSublink sel (sublinkJoin type subselect negated (parseSelectStatement subselect)
      (parseExpression testexpr))) (Conditioned sel) := by
  have hjoin : Keeps (sublinkJoin type subselect negated (parseSelectStatement subselect)
      (parseExpression testexpr)) fun r =>
        Anchored r.2 ∧ ∀ x ∈ conditionMarkers r.1, x ∈ joinMarkers r.2 := by
    cases type with
    | «exists» => exact keeps_subqueryJoin _ hsub (Keeps.pure rfl)
    | any =>
      exact keeps_subqueryJoin _ hsub (Keeps.bind (keeps_expression testexpr) fun e _ =>
        Keeps.pure rfl)
    | _ => exact Keeps.crash
  refine Keeps.bind hjoin fun r hr => Keeps.bind (Keeps.attachTo hr.1) fun sel' hsel => ?_
  exact Keeps.pure ⟨hsel.1, fun x hx => hsel.2 x (hr.2 x hx)⟩

private theorem keeps_parseWhereArgs {ns : List PgNode} (ih : ∀ n ∈ ns, ConditionAnchors n)
    (sel : RaNode) (negated : Bool) :
    Keeps (parseWhereArgs ns sel negated) fun r =>
      Extends sel r.2 ∧ ∀ x ∈ allConditionMarkers r.1, x ∈ joinMarkers r.2 := by
  induction ns generalizing sel with
  | nil => exact Keeps.pure ⟨.refl sel, by rintro _ ⟨⟩⟩
  | cons n ns ihns =>
    rw [List.forall_mem_cons] at ih
    refine Keeps.bind (ih.1 sel negated) fun p hp => Keeps.bind (ihns ih.2 p.2) fun ps hps => ?_
    refine Keeps.pure ⟨hp.tree.trans hps.1, fun x hx => ?_⟩
    have hmem : x ∈ conditionMarkers p.1 ∨ x ∈ allConditionMarkers ps.1 := by
      dsimp only at hx
      split at hx
      · exact List.mem_append.mp hx
      · exact .inr hx
    exact hmem.elim (fun hx => hps.1.joins x (hp.markers x hx)) (hps.2 x)

/-- WHERE and HAVING put the condition into the operator that has the joins. -/
private theorem anchored_setPredicate {p : Expr} {t : RaNode} (ht : Anchored t)
    (hp : ∀ x ∈ conditionMarkers p, x ∈ joinMarkers t) : Anchored (setPredicate p t) := by
  unfold setPredicate
  split
  · exact ⟨hp, ht.2⟩
  · exact ⟨hp, ht.2⟩
  · exact ht

private theorem anchored_child {t c : RaNode} (ht : Anchored t) (hc : c ∈ t.childNodes) :
    Anchored c := by
  cases t with
  | hole => cases hc
  | leaf i op => cases hc
  | unary i op c' =>
    cases c' with
    | hole => cases hc
    | _ => exact List.mem_singleton.mp hc ▸ ht.2
  | join i join l r =>
    have hmem : c = l ∨ c = r := by
      cases l <;> cases r <;> simp_all [RaNode.childNodes]
    rcases hmem with rfl | rfl
    · exact ht.2.1
    · exact ht.2.2

private theorem keeps_parseWhere {n : PgNode} (hc : ConditionAnchors n) :
    Keeps (parseWhere n.isNull fun sel => parseWhereExpression n sel false) Anchored := by
  unfold parseWhere
  split
  · exact Keeps.pure trivial
  · refine Keeps.bind Keeps.newId fun i _ => Keeps.bind (hc _ _) fun r hr => ?_
    have ht : Anchored r.2 := hr.tree.anchored ⟨by rintro _ ⟨⟩, trivial⟩
    dsimp only
    split
    · exact Keeps.pure (anchored_setPredicate ht hr.markers)
    · refine (Keeps.ofOption _).mono fun t hhead => ?_
      have hmem := List.mem_of_mem_head? hhead
      exact anchored_child ht hmem

private theorem keeps_parseHaving {n : PgNode} (hc : ConditionAnchors n) :
    Keeps (parseHaving n.isNull fun sel => parseWhereExpression n sel false) Anchored := by
  unfold parseHaving
  split
  · exact Keeps.pure trivial
  · refine Keeps.bind Keeps.newId fun i _ => Keeps.bind (hc _ _) fun r hr => Keeps.pure ?_
    have ht : Anchored r.2 := hr.tree.anchored ⟨by rintro _ ⟨⟩, trivial⟩
    split
    · exact anchored_setPredicate ht hr.markers
    · trivial

/-- An operator without a condition, with its expressions. -/
private theorem anchored_operator {i : Nat} {op : UnaryOp} (h : operatorCondition op = .nullptr) :
    Anchored (.unary i op .hole) :=
  ⟨fun x hx => by simp [h, conditionMarkers] at hx, trivial⟩

private theorem keeps_parseSelect (distinct implicitGroupBy : Bool) (ns : List PgNode) :
    Keeps (parseSelect distinct implicitGroupBy (parseTargets ns)) Anchored := by
  refine Keeps.bind Keeps.newId fun i _ => ?_
  refine Keeps.bind (Keeps.idle (parseTargets_inPlace ns)) fun es _ => ?_
  have hpr : Anchored (.projection i { args := es, distinct := distinct } .hole) :=
    anchored_operator rfl
  dsimp only
  split
  · refine Keeps.bind Keeps.newId fun j _ => (Keeps.attachTo (anchored_operator rfl)).mono ?_
    exact fun t ht => ht.1.anchored hpr
  · exact Keeps.pure hpr

private theorem keeps_parseOrderBy (ns : List PgNode) :
    Keeps (parseOrderBy ns.isEmpty (parseSorts ns)) Anchored := by
  unfold parseOrderBy
  split
  · exact Keeps.pure trivial
  · refine Keeps.bind Keeps.newId fun i _ => ?_
    refine Keeps.bind (Keeps.idle (parseSorts_inPlace ns)) fun es _ => ?_
    exact Keeps.pure (anchored_operator rfl)

private theorem keeps_parseGroupBy (ns : List PgNode) :
    Keeps (parseGroupBy ns.isEmpty (parseExpressions ns)) Anchored := by
  unfold parseGroupBy
  split
  · exact Keeps.pure trivial
  · refine Keeps.bind Keeps.newId fun i _ => ?_
    refine Keeps.bind (keeps_expressions ns) fun es _ => ?_
    exact Keeps.pure (anchored_operator rfl)

/-- A clause is attached to the tree. -/
private theorem keeps_clause {x : Parser RaNode} (hx : Keeps x Anchored) {root : RaNode}
    (hroot : Anchored root) {f : RaNode → Parser α} {post : α → Prop}
    (hf : ∀ root, Anchored root → Keeps (f root) post) :
    Keeps (do let t ← x; let root ← attachPresent root t; f root) post :=
  Keeps.bind hx fun _ ht => Keeps.bind (Keeps.attachPresent ht) fun root h =>
    hf root (h.1.anchored hroot)

private theorem keeps_addRelations {rs : List RaNode} (hrs : ∀ r ∈ rs, Anchored r) {base : RaNode}
    (hbase : Anchored base) : Keeps (addRelations base rs) Anchored := by
  fun_induction addRelations base rs with
  | case1 base => exact Keeps.pure hbase
  | case2 base r => exact (Keeps.attachTo (hrs r (by simp))).mono fun t ht => ht.1.anchored hbase
  | case3 base r r' =>
    refine Keeps.bind (Keeps.attachTo (hrs r (by simp))) fun t ht => ?_
    exact (Keeps.attachTo (hrs r' (by simp))).mono fun t' ht' => ht'.1.anchored (ht.1.anchored hbase)
  | case4 base r rs _ _ ih =>
    refine Keeps.bind (Keeps.attachTo (hrs r (by simp))) fun t ht => ?_
    refine Keeps.bind Keeps.newId fun i _ => ?_
    have hcross : Anchored (.join i { type := .crossProduct } .hole .hole) :=
      ⟨by rintro _ ⟨⟩, trivial, trivial⟩
    refine Keeps.bind (Keeps.attachTo hcross) fun t' ht' => ?_
    exact ih t' (fun r hr => hrs r (List.mem_cons_of_mem _ hr))
      (ht'.1.anchored (ht.1.anchored hbase))

/-- An item of a FROM clause becomes an anchored tree. -/
def FromItemAnchors (n : PgNode) : Prop := Keeps (parseFromItem n) fun t => ∀ r ∈ t, Anchored r

private theorem keeps_parseFromItems {ns : List PgNode} (ih : ∀ n ∈ ns, FromItemAnchors n) :
    Keeps (parseFromItems ns) fun rs => ∀ r ∈ rs, Anchored r := by
  induction ns with
  | nil => exact Keeps.pure (by simp)
  | cons n ns ihns =>
    rw [List.forall_mem_cons] at ih
    refine Keeps.bind ih.1 fun r hr => Keeps.bind (ihns ih.2) fun rs hrs => Keeps.pure ?_
    intro t ht
    rcases List.mem_append.mp ht with ht | ht
    · exact hr t (Option.mem_toList.mp ht)
    · exact hrs t ht

private theorem keeps_parseFrom {ns : List PgNode} (ih : ∀ n ∈ ns, FromItemAnchors n) :
    Keeps (parseFrom ns.isEmpty (parseFromItems ns)) Anchored := by
  unfold parseFrom
  split
  · exact Keeps.bind Keeps.newId fun i _ => Keeps.pure trivial
  · refine Keeps.bind (keeps_parseFromItems ih) fun rs hrs => ?_
    split
    · exact Keeps.pure (hrs _ (by simp))
    · refine Keeps.bind Keeps.newId fun i _ => keeps_addRelations hrs ?_
      exact ⟨by rintro _ ⟨⟩, trivial, trivial⟩

private theorem anchored_renameProjection {t : RaNode} (ht : Anchored t) (name : String)
    (columns : List String) : Anchored (renameProjection name columns t) := by
  unfold renameProjection
  split
  · exact ht
  · exact ht

/-- The condition of a join has no tree for the joins of subqueries. -/
private theorem keeps_quals {n : PgNode} (hc : ConditionAnchors n) :
    Keeps (orNull n do let (p, _) ← parseWhereExpression n .hole false; return p)
      fun p => conditionMarkers p = [] := by
  unfold orNull
  split
  · exact Keeps.pure rfl
  · intro s p s' h hs
    simp only [bind_eq_some, pure_eq_some, Prod.mk.injEq, Prod.exists] at h
    obtain ⟨p', sel, s₁, hp, rfl, rfl⟩ := h
    obtain ⟨rfl, -⟩ := (inPlace n).condition _ _ _ _ _ hp
    obtain ⟨hcond, hs₁⟩ := hc _ _ s _ _ hp hs
    have hhole {x : Nat × JoinType} : x ∉ joinMarkers RaNode.hole := by rintro ⟨⟩
    exact ⟨List.eq_nil_iff_forall_not_mem.mpr fun x hx => hhole (hcond.markers x hx), hs₁⟩

private theorem keeps_parseFromJoin {type : PgJoinType} {larg rarg : PgNode} {a : Option Alias}
    {quals : Parser Expr} (hq : Keeps quals fun p => conditionMarkers p = []) :
    Keeps (parseFromJoin type larg rarg a quals) Anchored := by
  have hrel (name : String) (b : Option Alias) : Keeps (relationOf name b) Anchored :=
    Keeps.bind Keeps.newId fun i _ => Keeps.pure trivial
  unfold parseFromJoin
  split
  · refine Keeps.bind (Keeps.ofOption _) fun t _ => Keeps.bind Keeps.newId fun i _ => ?_
    refine Keeps.bind (hrel _ _) fun l hl => Keeps.bind (hrel _ _) fun r hr => ?_
    refine Keeps.bind hq fun p hp => Keeps.pure ⟨fun x hx => ?_, hl, hr⟩
    simp [hp] at hx
  · exact Keeps.crash

/-- A WITH query becomes an anchored tree. -/
def CteAnchors (n : PgNode) : Prop := Keeps (parseCte n) Anchored

private theorem keeps_parseWith {ns : List PgNode} (ih : ∀ n ∈ ns, CteAnchors n) :
    Keeps (parseWith ns) fun _ => True := by
  induction ns with
  | nil => exact Keeps.pure trivial
  | cons n ns ihns =>
    rw [List.forall_mem_cons] at ih
    exact Keeps.bind ih.1 fun t ht => Keeps.bind (Keeps.pushCte ht) fun _ _ => ihns ih.2

/-- What the parser functions make of a node. -/
private structure Anchors (n : PgNode) : Prop where
  statement : StatementAnchors n
  condition : ConditionAnchors n
  fromItem : FromItemAnchors n
  cte : CteAnchors n
  subselect : ∀ type testexpr subselect, n = .subLink type testexpr subselect →
    StatementAnchors subselect := by rintro _ _ _ ⟨⟩

private theorem anchors (n : PgNode) : Anchors n := by
  have hstatement {n : PgNode} (h : parseSelectStatement n = crash) : StatementAnchors n := by
    rw [StatementAnchors, h]
    exact Keeps.crash
  have hskipped {n : PgNode} (h : ∀ sel negated,
      parseWhereExpression n sel negated = pure (.nullptr, sel)) : ConditionAnchors n := by
    intro sel negated
    rw [h]
    exact Keeps.pure ⟨.refl sel, by rintro _ ⟨⟩⟩
  have hitem {n : PgNode} (h : parseFromItem n = pure none) : FromItemAnchors n := by
    rw [FromItemAnchors, h]
    exact Keeps.pure (by simp)
  have hcte {n : PgNode} (h : parseCte n = crash) : CteAnchors n := by
    rw [CteAnchors, h]
    exact Keeps.crash
  induction n using PgNode.ind with
  | nullptr =>
    exact ⟨hstatement (by simp [parseSelectStatement]), fun sel negated => by
      rw [parseWhereExpression]; exact Keeps.crash, hitem (by simp [parseFromItem]),
      hcte (by simp [parseCte]), by simp⟩
  | aExpr kind name lexpr rexpr ihl ihr =>
    refine ⟨hstatement (by simp [parseSelectStatement]), fun sel negated => ?_,
      hitem (by simp [parseFromItem]), hcte (by simp [parseCte]), by simp⟩
    rw [parseWhereExpression]
    split
    · refine Keeps.bind (keeps_expression lexpr) fun l _ => ?_
      refine Keeps.bind (Keeps.idle (inPlace rexpr).items) fun es _ => ?_
      exact Keeps.pure ⟨.refl sel, by rintro _ ⟨⟩⟩
    · exact keeps_comparison _ sel (keeps_operand ihl.subselect) (keeps_rightOperand ihr.subselect)
  | boolExpr op args ih =>
    refine ⟨hstatement (by simp [parseSelectStatement]), fun sel negated => ?_,
      hitem (by simp [parseFromItem]), hcte (by simp [parseCte]), by simp⟩
    rw [parseWhereExpression]
    refine Keeps.bind (keeps_parseWhereArgs (fun n hn => (ih n hn).condition) sel _) fun r hr => ?_
    exact Keeps.pure ⟨hr.1, hr.2⟩
  | nullTest arg type ih =>
    refine ⟨hstatement (by simp [parseSelectStatement]), fun sel negated => ?_,
      hitem (by simp [parseFromItem]), hcte (by simp [parseCte]), by simp⟩
    rw [parseWhereExpression]
    exact Keeps.bind (keeps_expression arg) fun e _ => Keeps.pure ⟨.refl sel, by rintro _ ⟨⟩⟩
  | subLink type testexpr subselect iht ihs =>
    refine ⟨hstatement (by simp [parseSelectStatement]), fun sel negated => ?_,
      hitem (by simp [parseFromItem]), hcte (by simp [parseCte]), fun _ _ _ heq => ?_⟩
    · rw [parseWhereExpression]
      exact keeps_whereSublink sel negated ihs.statement
    · cases heq
      exact ihs.statement
  | rangeVar relname a =>
    refine ⟨hstatement (by simp [parseSelectStatement]), hskipped (by simp [parseWhereExpression]),
      ?_, hcte (by simp [parseCte]), by simp⟩
    rw [FromItemAnchors, parseFromItem]
    have hrelation : Keeps (relationOf relname a) Anchored :=
      Keeps.bind Keeps.newId fun i _ => Keeps.pure trivial
    refine Keeps.bind hrelation ?_
    exact fun t ht => Keeps.pure fun r hr => Option.some.inj hr ▸ ht
  | rangeSubselect subquery a ih =>
    refine ⟨hstatement (by simp [parseSelectStatement]), hskipped (by simp [parseWhereExpression]),
      ?_, hcte (by simp [parseCte]), by simp⟩
    rw [FromItemAnchors, parseFromItem]
    refine Keeps.bind (Keeps.bind ih.statement fun pr hpr =>
      Keeps.bind (Keeps.ofOption _) fun correlated _ => Keeps.pure ?_)
      fun t (ht : Anchored t) => Keeps.pure fun r hr => Option.some.inj hr ▸ ht
    split
    · trivial
    · exact anchored_renameProjection hpr _ _
  | joinExpr type larg rarg quals a ihl ihr ihq =>
    refine ⟨hstatement (by simp [parseSelectStatement]), hskipped (by simp [parseWhereExpression]),
      ?_, hcte (by simp [parseCte]), by simp⟩
    rw [FromItemAnchors, parseFromItem]
    refine Keeps.bind (keeps_parseFromJoin (keeps_quals ihq.condition)) ?_
    exact fun t ht => Keeps.pure fun r hr => Option.some.inj hr ▸ ht
  | commonTableExpr name cols query ih =>
    refine ⟨hstatement (by simp [parseSelectStatement]), hskipped (by simp [parseWhereExpression]),
      hitem (by simp [parseFromItem]), ?_, by simp⟩
    rw [CteAnchors, parseCte]
    exact Keeps.bind ih.statement fun pr hpr => Keeps.pure (anchored_renameProjection hpr _ _)
  | selectStmt distinct targetList fromClause whereClause groupClause havingClause sortClause
      withClause iht ihf ihw ihg ihh ihs ihwith =>
    refine ⟨?_, hskipped (by simp [parseWhereExpression]), hitem (by simp [parseFromItem]),
      hcte (by simp [parseCte]), by simp⟩
    rw [StatementAnchors, parseSelectStatement]
    refine Keeps.bind (keeps_parseWith fun n hn => (ihwith n hn).cte) fun _ _ => ?_
    refine Keeps.bind (keeps_parseSelect _ _ _) fun root hroot => ?_
    refine keeps_clause (keeps_parseOrderBy _) hroot fun root hroot => ?_
    refine keeps_clause (keeps_parseHaving ihh.condition) hroot fun root hroot => ?_
    refine keeps_clause (keeps_parseGroupBy _) hroot fun root hroot => ?_
    refine keeps_clause (keeps_parseWhere ihw.condition) hroot fun root hroot => ?_
    refine Keeps.bind (keeps_parseFrom fun n hn => (ihf n hn).fromItem) fun t ht => ?_
    exact (Keeps.attachPresent ht).mono fun t' ht' => ht'.1.anchored hroot
  | _ =>
    exact ⟨hstatement (by simp [parseSelectStatement]), hskipped (by simp [parseWhereExpression]),
      hitem (by simp [parseFromItem]), hcte (by simp [parseCte]), by simp⟩

/-- All trees that the parser builds for a statement are anchored. -/
theorem parse_anchored {stmt : PgNode} {t : RaNode} {s : ParserState}
    (h : parse stmt = some (t, s)) : ∀ u ∈ t :: s.ctes, Anchored u := by
  obtain ⟨ht, hs⟩ := (anchors stmt).statement _ _ _ h (by simp)
  exact List.forall_mem_cons.mpr ⟨ht, hs⟩

end SqlOptimizer.Parse.MarkerJoins
