import SqlOptimizer.Parse.Demands
import SqlOptimizer.Parse.ParsedTree

/-!
How much of what a statement asks for gets into the tree. Each action of the parser puts it into
its result or into a CTE, or drops it; the parser reads expressions without touching its state.
-/

set_option autoImplicit false
set_option relaxedAutoImplicit false

namespace SqlOptimizer.Parse.Represented

open Algebra.RelationalAlgebra
open Tree.Frames
open PgQuery Correlation Builder ParseSqlToRa StatementAst Demands
open ParsedTree (SameRoot SameRoot.trans sameRoot_graft IsOpenJoin)

variable {α β : Type}

private theorem represented_plug (K : List Frame) (t u : RaNode) :
    represented (plug K t) + represented u = represented (plug K u) + represented t := by
  induction K generalizing t u with
  | nil => exact add_comm _ _
  | cons f K ih =>
    have hf : represented (f.plug t) + represented u = represented (f.plug u) + represented t := by
      cases f <;> simp only [Frame.plug, represented] <;> abel
    have hK := ih (f.plug t) (f.plug u)
    rw [plug_cons, plug_cons]
    refine add_right_cancel (b := represented (f.plug u)) ?_
    rw [add_right_comm, hK, add_assoc, hf]
    abel

theorem represented_addSubtree {base sub t : RaNode} (h : addSubtree base sub = some t) :
    represented t = represented base + represented sub := by
  obtain ⟨K, owner, howner, rfl, rfl⟩ := exists_plug_of_addSubtree h
  have hinsert : represented (insertChild sub owner) = represented owner + represented sub := by
    cases howner with
    | unary i op => simp [insertChild, represented]
    | left i join r => cases r <;> simp [insertChild, represented, add_right_comm]
    | right i join l => cases l <;> simp [insertChild, represented, add_right_comm]
  have hplug := represented_plug K (insertChild sub owner) owner
  rw [hinsert] at hplug
  refine add_right_cancel (b := represented owner) (hplug.trans ?_)
  abel

theorem demands_false_sublist (n : AstNode) : (demands false n).Sublist (demands true n) := by
  have hall {ns : List AstNode} (h : ∀ n ∈ ns, (demands false n).Sublist (demands true n)) :
      (allDemands false ns).Sublist (allDemands true ns) := by
    induction ns with
    | nil => exact .slnil
    | cons n ns ih =>
      rw [List.forall_mem_cons] at h
      exact h.1.append (ih h.2)
  induction n using AstNode.ind with
  | selectStmt distinctClause targetList fromClause whereClause groupClause havingClause windowClause
      valuesLists sortClause limitOffset limitCount withClause op larg rarg ihd iht ihf ihw ihg ihh
      ihwin ihv ihs iho ihc ihwith ihl ihr =>
    simp only [demands, if_true, Bool.false_eq_true, if_false]
    repeat' apply List.Sublist.append
    all_goals first | assumption | exact hall ‹_› | exact .refl _ | exact List.nil_sublist _
  | _ =>
    simp only [demands]
    repeat' apply List.Sublist.append
    all_goals first | assumption | exact hall ‹_› | exact .refl _

/-- Expressions are read without touching the state, and so are conditions without a tree for
their subqueries. -/
structure InPlace (n : PgNode) : Prop where
  expression : ∀ s e s', parseExpression n s = some (e, s') → s' = s
  items : ∀ s es s', parseItems n s = some (es, s') → s' = s
  case : ∀ s e s', parseWhen n s = some (e, s') → s' = s
  condition : ∀ negated s p sel s', parseWhereExpression n .hole negated s = some ((p, sel), s') →
    sel = .hole ∧ s' = s

theorem attachTo_hole_ne {sub t : RaNode} {s s' : ParserState}
    (h : attachTo .hole sub s = some (t, s')) : False := by
  simp [attachTo_eq_some, addSubtree, findEmptyLeaf] at h

section

variable {ns : List PgNode} (ih : ∀ n ∈ ns, InPlace n) {s s' : ParserState}

include ih

theorem inPlace_parseExpressions {es : List Expr}
    (h : parseExpressions ns s = some (es, s')) : s' = s := by
  induction ns generalizing s es with
  | nil =>
    rw [parseExpressions, pure_eq_some] at h
    exact congrArg Prod.snd h
  | cons n ns ihns =>
    rw [List.forall_mem_cons] at ih
    simp only [parseExpressions, bind_eq_some, pure_eq_some, Prod.mk.injEq] at h
    obtain ⟨e, s₁, he, es', s₂, hes, -, rfl⟩ := h
    rw [ihns ih.2 hes, ih.1.expression _ _ _ he]

private theorem inPlace_parseWhens {es : List Expr} (h : parseWhens ns s = some (es, s')) :
    s' = s := by
  induction ns generalizing s es with
  | nil =>
    rw [parseWhens, pure_eq_some] at h
    exact congrArg Prod.snd h
  | cons n ns ihns =>
    rw [List.forall_mem_cons] at ih
    simp only [parseWhens, bind_eq_some, pure_eq_some, Prod.mk.injEq] at h
    obtain ⟨e, s₁, he, es', s₂, hes, -, rfl⟩ := h
    rw [ihns ih.2 hes, ih.1.case _ _ _ he]

private theorem inPlace_parseWhereArgs {negated : Bool} {ps : List Expr} {sel : RaNode}
    (h : parseWhereArgs ns .hole negated s = some ((ps, sel), s')) : sel = .hole ∧ s' = s := by
  induction ns generalizing s ps with
  | nil =>
    simp only [parseWhereArgs, pure_eq_some, Prod.mk.injEq] at h
    exact ⟨h.1.2, h.2⟩
  | cons n ns ihns =>
    rw [List.forall_mem_cons] at ih
    simp only [parseWhereArgs, bind_eq_some, pure_eq_some, Prod.mk.injEq, Prod.exists] at h
    obtain ⟨p, sel₁, s₁, hp, ps', sel₂, s₂, hps, ⟨-, rfl⟩, rfl⟩ := h
    obtain ⟨rfl, rfl⟩ := ih.1.condition _ _ _ _ _ hp
    exact ihns ih.2 hps

end

private theorem inPlace_orNull {n : PgNode} (ih : InPlace n) {s s' : ParserState} {e : Expr}
    (h : orNull n (parseExpression n) s = some (e, s')) : s' = s := by
  unfold orNull at h
  split at h
  · exact congrArg Prod.snd (pure_eq_some.mp h)
  · exact ih.expression _ _ _ h

/-- An operand without a join has been read in place. -/
private theorem inPlace_operand {n : PgNode} (ih : InPlace n) {s s' : ParserState} {e : Expr}
    (h : operand n (parseSubselect n) (parseExpression n) s = some ((e, .hole), s')) : s' = s := by
  unfold operand at h
  split at h
  · obtain ⟨_, _, _, _, _, -, heq, -⟩ := subqueryJoin_eq_some h
    cases heq
  · simp only [bind_eq_some, pure_eq_some, Prod.mk.injEq] at h
    obtain ⟨e, s₁, he, -, rfl⟩ := h
    exact ih.expression _ _ _ he

theorem inPlace_rightOperand {n : PgNode} (ih : InPlace n) {s s' : ParserState} {e : Expr}
    (h : rightOperand n (parseSubselect n) (parseItems n) (parseExpression n) s =
      some ((e, .hole), s')) : s' = s := by
  unfold rightOperand at h
  split at h
  · simp only [bind_eq_some, pure_eq_some, Prod.mk.injEq] at h
    obtain ⟨es, s₁, hes, -, rfl⟩ := h
    exact ih.items _ _ _ hes
  · exact inPlace_operand ih h

/-- Without a tree no join can be attached. -/
theorem attachPresent_hole_eq {join t : RaNode} {s s' : ParserState}
    (h : attachPresent .hole join s = some (t, s')) : join = .hole ∧ t = .hole ∧ s' = s := by
  unfold attachPresent at h
  split at h
  · next hjoin =>
    obtain ⟨rfl, rfl⟩ := Prod.mk.inj (pure_eq_some.mp h)
    cases join <;> first | exact ⟨rfl, rfl, rfl⟩ | cases hjoin
  · exact (attachTo_hole_ne h).elim

theorem inPlace (n : PgNode) : InPlace n := by
  have hnone {n : PgNode} (hwhere : ∀ sel negated,
      parseWhereExpression n sel negated = pure (.nullptr, sel)) (negated : Bool)
      (s : ParserState) (p : Expr) (sel : RaNode) (s' : ParserState)
      (h : parseWhereExpression n .hole negated s = some ((p, sel), s')) :
      sel = .hole ∧ s' = s := by
    simp only [hwhere, pure_eq_some, Prod.mk.injEq] at h
    exact ⟨h.1.2, h.2⟩
  induction n using PgNode.ind with
  | nullptr =>
    exact ⟨by simp [parseExpression], by simp [parseItems], by simp [parseWhen],
      by simp [parseWhereExpression]⟩
  | aExpr kind name lexpr rexpr ihl ihr =>
    refine ⟨fun s e s' h => ?_, by simp [parseItems], by simp [parseWhen],
      fun negated s p sel s' h => ?_⟩
    · simp only [parseExpression, bind_eq_some, pure_eq_some, Prod.mk.injEq] at h
      obtain ⟨l, s₁, hl, r, s₂, hr, -, rfl⟩ := h
      rw [inPlace_orNull ihr hr, inPlace_orNull ihl hl]
    · rw [parseWhereExpression] at h
      split at h
      · simp only [bind_eq_some, pure_eq_some, Prod.mk.injEq] at h
        obtain ⟨l, s₁, hl, es, s₂, hes, ⟨-, rfl⟩, rfl⟩ := h
        exact ⟨rfl, (ihr.items _ _ _ hes).trans (ihl.expression _ _ _ hl)⟩
      · simp only [comparison, bind_eq_some, pure_eq_some, Prod.mk.injEq, Prod.exists] at h
        obtain ⟨l, leftJoin, s₁, hl, sel₁, s₂, hsel₁, r, rightJoin, s₃, hr, sel₂, s₄, hsel₂, sel₃,
          s₅, hsel₃, ⟨-, rfl⟩, rfl⟩ := h
        obtain ⟨rfl, rfl, rfl⟩ := attachPresent_hole_eq hsel₁
        obtain ⟨-, rfl, rfl⟩ := attachPresent_hole_eq hsel₂
        obtain ⟨rfl, rfl, rfl⟩ := attachPresent_hole_eq hsel₃
        exact ⟨rfl, (inPlace_rightOperand ihr hr).trans (inPlace_operand ihl hl)⟩
  | funcCall f args star distinct ih =>
    refine ⟨fun s e s' h => ?_, by simp [parseItems], by simp [parseWhen],
      hnone (by simp [parseWhereExpression])⟩
    simp only [parseExpression, bind_eq_some, pure_eq_some, Prod.mk.injEq] at h
    obtain ⟨es, s₁, hes, -, rfl⟩ := h
    exact inPlace_parseExpressions ih hes
  | typeCast type typmod arg ih =>
    refine ⟨fun s e s' h => ?_, by simp [parseItems], by simp [parseWhen],
      hnone (by simp [parseWhereExpression])⟩
    simp only [parseExpression, bind_eq_some, ofOption_eq_some, pure_eq_some, Prod.mk.injEq] at h
    obtain ⟨mod, s₁, ⟨-, rfl⟩, e₁, s₂, he, -, rfl⟩ := h
    exact ih.expression _ _ _ he
  | caseExpr args d ih ihd =>
    refine ⟨fun s e s' h => ?_, by simp [parseItems], by simp [parseWhen],
      hnone (by simp [parseWhereExpression])⟩
    simp only [parseExpression, bind_eq_some, pure_eq_some, Prod.mk.injEq] at h
    obtain ⟨es, s₁, hes, e₁, s₂, he, -, rfl⟩ := h
    exact (inPlace_orNull ihd he).trans (inPlace_parseWhens ih hes)
  | caseWhen expr result ihe ihr =>
    refine ⟨by simp [parseExpression], by simp [parseItems], fun s e s' h => ?_,
      hnone (by simp [parseWhereExpression])⟩
    simp only [parseWhen, bind_eq_some, pure_eq_some, Prod.mk.injEq, Prod.exists] at h
    obtain ⟨w, sel, s₁, hw, t, s₂, ht, -, rfl⟩ := h
    exact (ihr.expression _ _ _ ht).trans (ihe.condition _ _ _ _ _ hw).2
  | list items ih =>
    refine ⟨by simp [parseExpression], fun s es s' h => ?_, by simp [parseWhen],
      hnone (by simp [parseWhereExpression])⟩
    rw [parseItems] at h
    exact inPlace_parseExpressions ih h
  | boolExpr op args ih =>
    refine ⟨by simp [parseExpression], by simp [parseItems], by simp [parseWhen],
      fun negated s p sel s' h => ?_⟩
    simp only [parseWhereExpression, bind_eq_some, pure_eq_some, Prod.mk.injEq, Prod.exists] at h
    obtain ⟨ps, sel₁, s₁, hps, ⟨-, rfl⟩, rfl⟩ := h
    exact inPlace_parseWhereArgs ih hps
  | nullTest arg type ih =>
    refine ⟨by simp [parseExpression], by simp [parseItems], by simp [parseWhen],
      fun negated s p sel s' h => ?_⟩
    simp only [parseWhereExpression, bind_eq_some, pure_eq_some, Prod.mk.injEq] at h
    obtain ⟨e, s₁, he, ⟨-, rfl⟩, rfl⟩ := h
    exact ⟨rfl, ih.expression _ _ _ he⟩
  | subLink type testexpr subselect =>
    refine ⟨by simp [parseExpression], by simp [parseItems], by simp [parseWhen],
      fun negated s p sel s' h => ?_⟩
    simp only [parseWhereExpression, whereSublink, bind_eq_some, Prod.exists] at h
    obtain ⟨_, _, _, -, _, _, hattach, -⟩ := h
    exact (attachTo_hole_ne hattach).elim
  | _ =>
    exact ⟨by simp [parseExpression], by simp [parseItems], by simp [parseWhen],
      hnone (by simp [parseWhereExpression])⟩

/-- Targets are expressions. -/
theorem parseTargets_inPlace (ns : List PgNode) :
    ∀ s es s', parseTargets ns s = some (es, s') → s' = s := by
  induction ns with
  | nil =>
    intro s es s' h
    rw [parseTargets] at h
    exact congrArg Prod.snd (pure_eq_some.mp h)
  | cons n ns ih =>
    intro s es s' h
    simp only [parseTargets, bind_eq_some, pure_eq_some, Prod.mk.injEq] at h
    obtain ⟨e, s₁, he, es', s₂, hes, -, rfl⟩ := h
    rw [ih _ _ _ hes]
    cases n with
    | resTarget name val =>
      simp only [parseTarget, bind_eq_some, pure_eq_some, Prod.mk.injEq] at he
      obtain ⟨e', s₃, he', -, rfl⟩ := he
      exact (inPlace val).expression _ _ _ he'
    | _ => simp [parseTarget] at he

/-- Sort keys are expressions. -/
theorem parseSorts_inPlace (ns : List PgNode) :
    ∀ s es s', parseSorts ns s = some (es, s') → s' = s := by
  induction ns with
  | nil =>
    intro s es s' h
    rw [parseSorts] at h
    exact congrArg Prod.snd (pure_eq_some.mp h)
  | cons n ns ih =>
    intro s es s' h
    simp only [parseSorts, bind_eq_some, pure_eq_some, Prod.mk.injEq] at h
    obtain ⟨e, s₁, he, es', s₂, hes, -, rfl⟩ := h
    rw [ih _ _ _ hes]
    cases n with
    | sortBy node dir =>
      simp only [parseSort, bind_eq_some, pure_eq_some, Prod.mk.injEq] at he
      obtain ⟨e', s₃, he', -, rfl⟩ := he
      exact (inPlace node).expression _ _ _ he'
    | _ => simp [parseSort] at he

theorem add_eq_zero_iff {D E : Multiset Part} : D + E = 0 ↔ D = 0 ∧ E = 0 := by
  simp only [← Multiset.card_eq_zero, Multiset.card_add, Nat.add_eq_zero_iff]

/-- What is asked for, the share of it without the WITH queries, and whether it is kept whole. -/
@[ext]
structure Demand where
  asked : Multiset Part
  own : Multiset Part
  kept : Prop

namespace Demand

instance : Zero Demand := ⟨⟨0, 0, True⟩⟩

instance : Add Demand := ⟨fun d e => ⟨d.asked + e.asked, d.own + e.own, d.kept ∧ e.kept⟩⟩

@[simp] theorem asked_zero : (0 : Demand).asked = 0 := rfl
@[simp] theorem own_zero : (0 : Demand).own = 0 := rfl
@[simp] theorem kept_zero : (0 : Demand).kept = True := rfl

@[simp] theorem asked_add (d e : Demand) : (d + e).asked = d.asked + e.asked := rfl
@[simp] theorem own_add (d e : Demand) : (d + e).own = d.own + e.own := rfl
@[simp] theorem kept_add (d e : Demand) : (d + e).kept = (d.kept ∧ e.kept) := rfl

end Demand

/-- What is asked for in nodes that the parser passes over. -/
def plain (ns : List AstNode) : Demand :=
  ⟨allDemands true ns, allDemands false ns, isPlain ns = true⟩

/-- What the action starts with and is asked for gets into its result and into new CTEs, or is
dropped. Nothing is dropped exactly when the demand is kept whole, and then the result has its own
share. -/
def Represents (x : Parser α) (start : Multiset Part) (result : α → Multiset Part) (d : Demand)
    (post : α → Prop) : Prop :=
  ∀ s r s', x s = some (r, s') → post r ∧ ∃ new dropped, s'.ctes = s.ctes ++ new ∧
    result r + allRepresented new + dropped = start + d.asked ∧ (dropped = 0 ↔ d.kept) ∧
    (dropped = 0 → result r = start + d.own)

namespace Represents

variable {x : Parser α} {start : Multiset Part} {result : α → Multiset Part} {d e : Demand}
  {post : α → Prop}

/-- What is asked for of an action without a tree is dropped. -/
theorem passedOver (hx : ∀ s r s', x s = some (r, s') → result r = start ∧ s' = s ∧ post r)
    (hkept : d.asked = 0 ↔ d.kept) (hown : d.asked = 0 → d.own = 0) :
    Represents x start result d post := by
  intro s r s' h
  obtain ⟨hr, rfl, hpost⟩ := hx s r s' h
  refine ⟨hpost, [], d.asked, by simp, by simp [allRepresented, hr], hkept, fun hzero => ?_⟩
  rw [hr, hown hzero, add_zero]

theorem pure {r : α} (hr : result r = start) (hpost : post r) :
    Represents (pure r) start result 0 post := by
  refine passedOver (fun s r' s' h => ?_) (by simp) fun _ => rfl
  obtain ⟨rfl, rfl⟩ := Prod.mk.inj (pure_eq_some.mp h)
  exact ⟨hr, rfl, hpost⟩

theorem newId (start : Multiset Part) :
    Represents newId start (fun _ => start) 0 fun _ => True := by
  intro s r s' h
  obtain ⟨rfl, rfl⟩ := Prod.mk.inj (newId_eq_some.mp h)
  exact ⟨trivial, [], 0, by simp, by simp [allRepresented], by simp, fun _ => by simp⟩

theorem crash : Represents (crash : Parser α) start result d post := fun _ _ _ h => nomatch h

/-- Two actions after each other. -/
theorem bind {f : α → Parser β} {result' : β → Multiset Part} {post' : β → Prop}
    (hx : Represents x start result d post)
    (hf : ∀ r, post r → Represents (f r) (result r) result' e post') :
    Represents (x >>= f) start result' (d + e) post' := by
  intro s r s' h
  obtain ⟨r₁, s₁, h₁, h₂⟩ := bind_eq_some.mp h
  obtain ⟨hpost, new, D, hnew, hparts, hD, hown⟩ := hx s r₁ s₁ h₁
  obtain ⟨hpost', new', E, hnew', hparts', hE, hown'⟩ := hf r₁ hpost s₁ r s' h₂
  refine ⟨hpost', new ++ new', D + E, by simp [hnew, hnew'], ?_, ?_, fun hzero => ?_⟩
  · have hnews : allRepresented (new ++ new') = allRepresented new + allRepresented new' := by
      simp [allRepresented]
    calc result' r + allRepresented (new ++ new') + (D + E)
        = result' r + allRepresented new' + E + (allRepresented new + D) := by
          rw [hnews]
          abel
      _ = result r₁ + allRepresented new + D + e.asked := by
          rw [hparts']
          abel
      _ = start + (d + e).asked := by rw [hparts, Demand.asked_add, add_assoc]
  · rw [Demand.kept_add, ← hD, ← hE, add_eq_zero_iff]
  · obtain ⟨hDzero, hEzero⟩ := add_eq_zero_iff.mp hzero
    rw [hown' hEzero, hown hDzero, Demand.own_add, add_assoc]

/-- The same demand and the same parts, written differently. -/
theorem congr {start' : Multiset Part} {result' : α → Multiset Part} {d' : Demand}
    (h : Represents x start result d post) (hstart : start = start')
    (hresult : ∀ r, result r = result' r) (hd : d = d') :
    Represents x start' result' d' post := by
  rw [← hstart, ← funext hresult, ← hd]
  exact h

theorem demand {d' : Demand} (h : Represents x start result d post) (hd : d = d') :
    Represents x start result d' post := hd ▸ h

theorem mono {post' : α → Prop} (h : Represents x start result d post)
    (hpost : ∀ r, post r → post' r) : Represents x start result d post' := fun s r s' hr =>
  (h s r s' hr).imp_left (hpost r)

/-- Parts that the action leaves alone. -/
theorem frame (C : Multiset Part) (h : Represents x start result d post) :
    Represents x (start + C) (fun r => result r + C) d post := by
  intro s r s' hr
  obtain ⟨hpost, new, D, hnew, hparts, hD, hown⟩ := h s r s' hr
  refine ⟨hpost, new, D, hnew, ?_, hD, fun hzero => ?_⟩
  · calc result r + C + allRepresented new + D = result r + allRepresented new + D + C := by abel
      _ = start + C + d.asked := by rw [hparts, add_right_comm]
  · simp only [hown hzero, add_right_comm]

/-- More is asked for, which the action does not read. -/
theorem more (h : Represents x start result d post) (hkept : e.asked = 0 ↔ e.kept)
    (hown : e.asked = 0 → e.own = 0) : Represents x start result (d + e) post := by
  intro s r s' hr
  obtain ⟨hpost, new, D, hnew, hparts, hD, howns⟩ := h s r s' hr
  refine ⟨hpost, new, D + e.asked, hnew, ?_, ?_, fun hzero => ?_⟩
  · rw [← add_assoc, hparts, Demand.asked_add, add_assoc]
  · rw [Demand.kept_add, ← hD, ← hkept, add_eq_zero_iff]
  · obtain ⟨hDzero, hezero⟩ := add_eq_zero_iff.mp hzero
    rw [howns hDzero, Demand.own_add, hown hezero, add_zero]

end Represents

end SqlOptimizer.Parse.Represented
