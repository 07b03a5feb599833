import SqlOptimizer.Deparse.PredicateText

/-!
The WHERE text of a query block. Its conditions are the predicates of the Selections
of the block; the text joins them with AND, but the predicate printed first is never
parenthesised.
-/

set_option autoImplicit false
set_option relaxedAutoImplicit false

namespace SqlOptimizer.Deparse.WhereText

open Algebra.RelationalAlgebra
open Logic.BoolText
open Logic.ThreeValued
open Truth (conj disj)
open DeparseRaToSql PredicateText

/-- The predicates of the Selections of a block: the nodes below its projection that
are reached without entering another projection or the right child of a marker join. -/
def blockSelections : RaNode → List Expr
  | .hole => []
  | .leaf _ _ => []
  | .unary _ (.selection p) child => p :: blockSelections child
  | .unary _ (.projection _) _ => []
  | .unary _ _ child => blockSelections child
  | .join _ join left right =>
      if join.marker > 0 then blockSelections left
      else blockSelections left ++ blockSelections right

/-- The Selections of a block that the printer reaches, in the order in which it prints
them: it does not descend into an unmarked join of a type that it cannot print. -/
def printedSelections : RaNode → List Expr
  | .hole => []
  | .leaf _ _ => []
  | .unary _ (.selection p) child => p :: printedSelections child
  | .unary _ (.projection _) _ => []
  | .unary _ _ child => printedSelections child
  | .join _ join left right =>
      if join.marker > 0 then printedSelections left
      else if isPrintedJoin join.type then printedSelections left ++ printedSelections right
      else []

/-- The Selections of a block below an unmarked join of a type that cannot be printed. -/
def skippedSelections : RaNode → List Expr
  | .hole => []
  | .leaf _ _ => []
  | .unary _ (.selection _) child => skippedSelections child
  | .unary _ (.projection _) _ => []
  | .unary _ _ child => skippedSelections child
  | .join _ join left right =>
      if join.marker > 0 then skippedSelections left
      else if isPrintedJoin join.type then skippedSelections left ++ skippedSelections right
      else blockSelections left ++ blockSelections right

theorem mem_blockSelections {t : RaNode} {p : Expr} :
    p ∈ blockSelections t ↔ p ∈ printedSelections t ∨ p ∈ skippedSelections t := by
  induction t with
  | hole => simp [blockSelections, printedSelections, skippedSelections]
  | leaf i op => simp [blockSelections, printedSelections, skippedSelections]
  | unary i op c ih =>
    cases op <;> simp [blockSelections, printedSelections, skippedSelections, ih, or_assoc]
  | join i j l r ihl ihr =>
    simp only [blockSelections, printedSelections, skippedSelections]
    split
    · exact ihl
    · split
      · simp only [List.mem_append, ihl, ihr]
        tauto
      · simp

/-- The truth value of the conjunction of a list of predicates. -/
def conjTruth (v : Expr → Truth) (ps : List Expr) : Truth :=
  conj (ps.map fun p => (meaning p).eval v)

theorem conjTruth_block (v : Expr → Truth) (t : RaNode) :
    conjTruth v (blockSelections t) =
      conjTruth v (printedSelections t) ⊓ conjTruth v (skippedSelections t) := by
  induction t with
  | hole => rfl
  | leaf i op => rfl
  | unary i op c ih =>
    cases op <;> simp_all [conjTruth, blockSelections, printedSelections, skippedSelections,
      inf_assoc]
  | join i j l r ihl ihr =>
    simp only [conjTruth, blockSelections, printedSelections, skippedSelections] at ihl ihr ⊢
    split
    · exact ihl
    · split
      · simp only [List.map_append, Truth.conj_append, ihl, ihr]
        ac_rfl
      · simp

variable {subs : Nat → Option Subquery}

/-- The WHERE text after a list of Selections. -/
def whereOf (w : Text) (ps : List (Expr × Text)) : Text :=
  ps.foldl (fun w p => appendSelection w p.1 p.2) w

private theorem whereOf_append (w : Text) (ps qs : List (Expr × Text)) :
    whereOf w (ps ++ qs) = whereOf (whereOf w ps) qs := by
  simp [whereOf]

/-- A printed join is its left side, then its right side; the text between and after
them goes to the FROM clause. -/
private theorem deparseRaNode_printedJoin {i layer : Nat} {join : Join} {l r : RaNode}
    {c c' : Clauses} (hm : ¬ join.marker > 0) (hj : isPrintedJoin join.type = true)
    (h : deparseRaNode subs (.join i join l r) (layer + 1) c = some c') :
    ∃ c₁ c₂ c₃, deparseRaNode subs l (layer + 1) c = some c₁ ∧
      deparseRaNode subs r (layer + 1) c₂ = some c₃ ∧
      c₂.whereText = c₁.whereText ∧ c'.whereText = c₃.whereText := by
  simp only [deparseRaNode, if_neg hm] at h
  split at h
  · cases h
  · cases ht : join.type <;>
      simp only [ht, isPrintedJoin, Bool.false_eq_true] at hj h <;>
      simp only [Option.bind_eq_some_iff, Option.map_eq_some_iff] at h
    case crossProduct =>
      obtain ⟨c₁, h₁, h₂⟩ := h
      exact ⟨c₁, _, c', h₁, h₂, rfl, rfl⟩
    all_goals
      obtain ⟨c₁, h₁, c₂, h₂, suffix, -, rfl⟩ := h
      exact ⟨c₁, _, c₂, h₁, h₂, rfl, rfl⟩

private theorem deparseRaNode_skippedJoin {i layer : Nat} {join : Join} {l r : RaNode}
    {c c' : Clauses} (hm : ¬ join.marker > 0) (hj : ¬ isPrintedJoin join.type = true)
    (h : deparseRaNode subs (.join i join l r) (layer + 1) c = some c') : c' = c := by
  simp only [deparseRaNode, if_neg hm] at h
  split at h
  · cases h
  · cases ht : join.type <;> simp_all [isPrintedJoin]

/-- The printer appends the predicates of the Selections it reaches, in order. -/
theorem whereText_deparseRaNode {t : RaNode} {layer : Nat} {c c' : Clauses}
    (h : deparseRaNode subs t (layer + 1) c = some c') :
    ∃ tss, List.Forall₂ (fun p ts => deparsePredicate subs p = some ts) (printedSelections t) tss ∧
      c'.whereText = whereOf c.whereText ((printedSelections t).zip tss) := by
  induction t generalizing layer c c' with
  | hole => simp [deparseRaNode] at h
  | leaf i op =>
    refine ⟨[], .nil, ?_⟩
    cases op with
    | values vs a col =>
      simp only [deparseRaNode, Option.map_eq_some_iff] at h
      obtain ⟨strs, -, rfl⟩ := h
      rfl
    | _ =>
      simp only [deparseRaNode, Option.some.injEq] at h
      subst h
      rfl
  | unary i op child ih =>
    cases op with
    | root => exact ih (by simpa only [deparseRaNode] using h)
    | selection p =>
      simp only [deparseRaNode, Option.bind_eq_some_iff] at h
      obtain ⟨ts, hts, h⟩ := h
      obtain ⟨tss, htss, hw⟩ := ih h
      exact ⟨ts :: tss, .cons hts htss, hw⟩
    | projection pr =>
      simp only [deparseRaNode, Option.bind_eq_some_iff, Option.map_eq_some_iff] at h
      obtain ⟨select, -, inner, -, rfl⟩ := h
      exact ⟨[], .nil, rfl⟩
    | _ =>
      simp only [deparseRaNode, Option.bind_eq_some_iff] at h
      obtain ⟨s, -, h⟩ := h
      obtain ⟨tss, htss, hw⟩ := ih h
      exact ⟨tss, htss, hw⟩
  | join i j l r ihl ihr =>
    by_cases hm : j.marker > 0
    · simp only [deparseRaNode, if_pos hm] at h
      split at h
      · cases h
      · simpa only [printedSelections, if_pos hm] using ihl h
    · by_cases hj : isPrintedJoin j.type = true
      · obtain ⟨c₁, c₂, c₃, h₁, h₂, hw₂, hw₃⟩ := deparseRaNode_printedJoin hm hj h
        obtain ⟨tssl, htssl, hwl⟩ := ihl h₁
        obtain ⟨tssr, htssr, hwr⟩ := ihr h₂
        refine ⟨tssl ++ tssr, ?_, ?_⟩
        · simpa only [printedSelections, if_neg hm, if_pos hj] using
            List.rel_append htssl htssr
        · rw [hw₃, hwr, hw₂, hwl, ← whereOf_append]
          simp only [printedSelections, if_neg hm, if_pos hj]
          rw [List.zip_append htssl.length_eq]
      · refine ⟨[], ?_, ?_⟩
        · simp [printedSelections, hm, hj]
        · rw [deparseRaNode_skippedJoin hm hj h]
          simp [printedSelections, hm, hj, whereOf]

/-- The predicates after the first one are joined with AND, each as a unit. -/
private theorem whereOf_cons {ts : Text} (hne : render ts ≠ "") (ps : List Expr)
    (tss : List Text) :
    whereOf ts (ps.zip tss) = ts ++ (operandTexts ps tss).flatMap (fun t => .and :: t) := by
  induction ps generalizing ts tss with
  | nil => simp [whereOf, operandTexts]
  | cons q ps ih =>
    cases tss with
    | nil => simp [whereOf, operandTexts]
    | cons us tss =>
      have hstep : appendSelection ts q us = ts ++ .and :: operandText q us := by
        unfold appendSelection operandText
        split <;> simp_all
      have hne' : render (appendSelection ts q us) ≠ "" := by simp [hstep, hne]
      have hrest := ih hne' tss
      simp only [whereOf, List.zip_cons_cons, List.foldl_cons] at hrest ⊢
      rw [hrest, hstep]
      simp [operandTexts]

private theorem sepBy_append_flatMap {α : Type} {us : List (List (Tok α))} (hne : us ≠ [])
    (ts : List (List (Tok α))) :
    sepBy .and us ++ ts.flatMap (fun t => .and :: t) = sepBy .and (us ++ ts) := by
  induction us with
  | nil => exact absurd rfl hne
  | cons u us ih =>
    cases us with
    | nil =>
      cases ts with
      | nil => simp [sepBy]
      | cons t ts =>
        clear ih
        induction ts generalizing t with
        | nil => simp [sepBy]
        | cons t' ts ih => simpa [sepBy] using ih t'
    | cons u' us => simpa [sepBy] using ih (by simp)

private theorem exists_append_singleton {α β : Type} {R : α → β → Prop} {xs : List α}
    {ys : List β} {y : β} (h : List.Forall₂ R xs (ys ++ [y])) :
    ∃ front back, xs = front ++ [back] ∧ List.Forall₂ R front ys ∧ R back y := by
  have hfront := List.forall₂_take_append _ _ _ h
  have hback := List.forall₂_drop_append _ _ _ h
  rw [← List.take_append_drop ys.length xs]
  cases hd : List.drop ys.length xs with
  | nil => rw [hd] at hback; cases hback
  | cons b bs =>
    rw [hd] at hback
    cases hback with
    | cons hb hbs =>
      cases hbs
      exact ⟨_, b, rfl, hfront, hb⟩

private theorem skeleton_flatMap_and (tss : List Text) :
    skeleton (tss.flatMap (fun t => .and :: t)) =
      (tss.map skeleton).flatMap (fun t => .and :: t) := by
  induction tss with
  | nil => rfl
  | cons ts tss ih => simp [ih, Tok.map]

/-- The condition that the text denotes when the first predicate is an OR: the other
predicates go to its last operand. -/
def firstOr (subs : Nat → Option Subquery) (init : List Expr) (last : Expr) (ps : List Expr) :
    Cond Expr :=
  .any (init.map (printed subs) ++ [.all (printed subs last :: ps.map (printed subs))])

private theorem readsOr_whereOf_or {init : List Expr} {last : Expr} {ps : List Expr} {ts : Text}
    {tss : List Text} (hargs : ∀ a ∈ init ++ [last], IsBoolean a) (hps : ∀ p ∈ ps, IsBoolean p)
    (hts : deparsePredicate subs (.boolPredicate .or (init ++ [last])) = some ts)
    (hne : render ts ≠ "")
    (htss : List.Forall₂ (fun p ts => deparsePredicate subs p = some ts) ps tss) :
    ReadsOr (skeleton (whereOf ts (ps.zip tss))) (firstOr subs init last ps) := by
  rw [whereOf_cons hne]
  obtain ⟨uss, huss, rfl⟩ := deparsePredicate_bool hts
  have hunits := readsUnit_operandTexts hargs huss
  rw [boolText_or, skeleton_append, skeleton_sepBy, skeleton_flatMap_and]
  rw [List.map_append, List.map_singleton] at hunits
  obtain ⟨front, back, happ, hfront, hback⟩ := exists_append_singleton hunits
  rw [happ, Tok.map, sepBy_append_singleton]
  refine ReadsOr.sepBy_or (List.rel_append (hfront.imp fun _ _ h => h.toAnd) (.cons ?_ .nil))
    (by simp)
  have hlast := sepBy_append_flatMap (List.cons_ne_nil back [])
    ((operandTexts ps tss).map skeleton)
  rw [sepBy] at hlast
  rw [hlast]
  exact ReadsAnd.sepBy_and (.cons hback (readsUnit_operandTexts hps htss)) (by simp)

private theorem readsOr_whereOf_and {args : List Expr} {ps : List Expr} {ts : Text}
    {tss : List Text} (hargs : ∀ a ∈ args, IsBoolean a) (hps : ∀ p ∈ ps, IsBoolean p)
    (hts : deparsePredicate subs (.boolPredicate .and args) = some ts) (hne : render ts ≠ "")
    (htss : List.Forall₂ (fun p ts => deparsePredicate subs p = some ts) ps tss) :
    ReadsOr (skeleton (whereOf ts (ps.zip tss)))
      (.all (args.map (printed subs) ++ ps.map (printed subs))) := by
  rw [whereOf_cons hne]
  obtain ⟨uss, huss, rfl⟩ := deparsePredicate_bool hts
  have hunits := readsUnit_operandTexts hargs huss
  have hops : (operandTexts args uss).map skeleton ≠ [] := by
    intro h
    rw [boolText_and, List.map_eq_nil_iff.mp h] at hne
    exact hne rfl
  rw [boolText_and, skeleton_append, skeleton_sepBy, skeleton_flatMap_and, Tok.map,
    sepBy_append_flatMap hops]
  exact (ReadsAnd.sepBy_and (List.rel_append hunits (readsUnit_operandTexts hps htss))
    (by simp [List.map_eq_nil_iff] at hops ⊢; exact fun h => absurd h hops)).toOr

private theorem readsOr_whereOf_unit {p : Expr} {ps : List Expr} {ts : Text} {tss : List Text}
    (hp : ReadsUnit (skeleton ts) (printed subs p)) (hps : ∀ p ∈ ps, IsBoolean p)
    (hne : render ts ≠ "")
    (htss : List.Forall₂ (fun p ts => deparsePredicate subs p = some ts) ps tss) :
    ReadsOr (skeleton (whereOf ts (ps.zip tss)))
      (.all (printed subs p :: ps.map (printed subs))) := by
  have happ := sepBy_append_flatMap (List.cons_ne_nil (skeleton ts) [])
    ((operandTexts ps tss).map skeleton)
  rw [sepBy] at happ
  rw [whereOf_cons hne, skeleton_append, skeleton_flatMap_and, happ]
  exact (ReadsAnd.sepBy_and (.cons hp (readsUnit_operandTexts hps htss)) (by simp)).toOr

/-- The operands of the predicate printed first that keep no parentheses of their own:
all but the last one when it is an OR. -/
def exposedOperands : List Expr → List Expr
  | .boolPredicate .or args :: _ => args.dropLast
  | _ => []

/-- The truth value of a WHERE text: an empty text is no condition. -/
def whereTruth (v : Expr → Truth) (w : Text) : Option Truth :=
  if render w = "" then some ⊤ else (read (skeleton w)).map (Cond.eval v)

private theorem eval_printeds {ps : List Expr} (hps : ∀ p ∈ ps, IsBoolean p)
    (hf : ∀ p ∈ ps, Faithful subs p) (v : Expr → Truth) :
    (ps.map (printed subs)).map (Cond.eval v) = ps.map fun p => (meaning p).eval v := by
  rw [List.map_map]
  exact List.map_congr_left fun p hp => (hf p hp).eval_printed (hps p hp) v

private theorem whereTruth_of_readsOr {w : Text} {c : Cond Expr} (hne : render w ≠ "")
    (h : ReadsOr (skeleton w) c) (v : Expr → Truth) : whereTruth v w = some (c.eval v) := by
  simp [whereTruth, hne, h.read_eq]

private theorem render_whereOf {ts : Text} (hne : render ts ≠ "") (ps : List Expr)
    (tss : List Text) : render (whereOf ts (ps.zip tss)) ≠ "" := by
  rw [whereOf_cons hne, render_append]
  simp [hne]

/-- The truth value of the text of a list of predicates, the first one printed bare. -/
private theorem whereTruth_whereOf {p : Expr} {ps : List Expr} {ts : Text} {tss : List Text}
    (hbool : ∀ q ∈ p :: ps, IsBoolean q) (hf : ∀ q ∈ p :: ps, Faithful subs q)
    (hts : deparsePredicate subs p = some ts)
    (htss : List.Forall₂ (fun p ts => deparsePredicate subs p = some ts) ps tss)
    (hor : ∀ args, p ≠ .boolPredicate .or args) (v : Expr → Truth) :
    whereTruth v (whereOf ts (ps.zip tss)) = some (conjTruth v (p :: ps)) := by
  have hne := (hf p (by simp)).render_ne_empty hts
  have hps : ∀ q ∈ ps, IsBoolean q := fun q hq => hbool q (by simp [hq])
  have hval := eval_printeds hps (fun q hq => hf q (by simp [hq])) v
  have hunit (hp : ReadsUnit (skeleton ts) (printed subs p)) :
      whereTruth v (whereOf ts (ps.zip tss)) = some (conjTruth v (p :: ps)) := by
    rw [whereTruth_of_readsOr (render_whereOf hne ps tss)
      (readsOr_whereOf_unit hp hps hne htss)]
    simp only [Cond.eval_all, List.map_cons, hval, conjTruth,
      (hf p (by simp)).eval_printed (hbool p (by simp))]
  cases hbool p (by simp) with
  | connective op args hop hargs hab =>
    cases op with
    | and =>
      have hp := (hf _ List.mem_cons_self).eval_printed (hbool _ List.mem_cons_self) v
      simp only [printed, printeds_eq_map, Cond.eval_all] at hp
      rw [whereTruth_of_readsOr (render_whereOf hne ps tss)
        (readsOr_whereOf_and hab hps hts hne htss)]
      simp only [Cond.eval_all, List.map_append, Truth.conj_append, hval, hp, conjTruth,
        List.map_cons, Truth.conj_cons]
    | or => exact absurd rfl (hor args)
    | not => exact absurd rfl hop
  | not a ha => exact hunit (readsUnit_not ha hts)
  | atom _ hb => exact hunit (readsUnit_of_not_bool hb hts)

/-- The truth value of the text when the predicate printed first is an OR: the other
predicates only restrict its last operand. -/
private theorem whereTruth_whereOf_or {init : List Expr} {last : Expr} {ps : List Expr}
    {ts : Text} {tss : List Text}
    (hbool : ∀ q ∈ .boolPredicate .or (init ++ [last]) :: ps, IsBoolean q)
    (hf : ∀ q ∈ .boolPredicate .or (init ++ [last]) :: ps, Faithful subs q)
    (hargs : ∀ a ∈ init ++ [last], IsBoolean a)
    (hts : deparsePredicate subs (.boolPredicate .or (init ++ [last])) = some ts)
    (htss : List.Forall₂ (fun p ts => deparsePredicate subs p = some ts) ps tss)
    (v : Expr → Truth) :
    whereTruth v (whereOf ts (ps.zip tss)) =
      some (disj ((init.map (printed subs)).map (Cond.eval v)) ⊔
        ((printed subs last).eval v ⊓ conjTruth v ps)) := by
  have hne := (hf _ List.mem_cons_self).render_ne_empty hts
  have hps : ∀ q ∈ ps, IsBoolean q := fun q hq => hbool q (by simp [hq])
  have hval := eval_printeds hps (fun q hq => hf q (by simp [hq])) v
  rw [whereTruth_of_readsOr (render_whereOf hne ps tss)
    (readsOr_whereOf_or hargs hps hts hne htss)]
  simp [firstOr, hval, conjTruth]

/-- The WHERE text of a block, read with SQL precedence, has the truth value of the
conjunction of its Selections exactly when every exposed operand of the predicate
printed first is at most as true as the predicates after it, and what is printed is at
most as true as what a join of an unprintable type hides. -/
theorem whereTruth_deparseRaNode_iff {child : RaNode} {layer : Nat} {c c' : Clauses}
    (h : deparseRaNode subs child (layer + 1) c = some c') (hc : c.whereText = [])
    (hbool : ∀ p ∈ blockSelections child, IsBoolean p)
    (hf : ∀ p ∈ blockSelections child ++ exposedOperands (printedSelections child),
      Faithful subs p)
    (v : Expr → Truth) :
    whereTruth v c'.whereText = some (conjTruth v (blockSelections child)) ↔
      (∀ d ∈ exposedOperands (printedSelections child),
        (meaning d).eval v ≤ conjTruth v (printedSelections child).tail) ∧
      conjTruth v (printedSelections child) ≤ conjTruth v (skippedSelections child) := by
  obtain ⟨tss, htss, hw⟩ := whereText_deparseRaNode h
  have hbool' : ∀ p ∈ printedSelections child, IsBoolean p :=
    fun p hp => hbool p (mem_blockSelections.mpr (.inl hp))
  have hf' : ∀ p ∈ printedSelections child, Faithful subs p :=
    fun p hp => hf p (List.mem_append_left _ (mem_blockSelections.mpr (.inl hp)))
  rw [conjTruth_block, hw, hc]
  have hexposed : ∀ d ∈ exposedOperands (printedSelections child), Faithful subs d :=
    fun d hd => hf d (List.mem_append_right _ hd)
  generalize printedSelections child = ps at *
  cases htss with
  | nil =>
    simp only [whereOf, List.zip_nil_left, List.foldl_nil, whereTruth, render_nil, if_true,
      conjTruth, List.map_nil, Truth.conj_nil, Truth.tt_inf, Option.some.injEq, exposedOperands,
      List.not_mem_nil, false_implies, implies_true, true_and]
    exact ⟨fun h => h.le, fun h => (top_le_iff.mp h).symm⟩
  | @cons p ts ps tss hts htss =>
    have hfirst : whereOf [] ((p :: ps).zip (ts :: tss)) = whereOf ts (ps.zip tss) := by
      simp [whereOf, appendSelection]
    rw [hfirst]
    by_cases hor : ∃ args, p = .boolPredicate .or args
    · obtain ⟨args, rfl⟩ := hor
      have hargs : args ≠ [] ∧ ∀ a ∈ args, IsBoolean a := by
        cases hbool' _ List.mem_cons_self with
        | connective _ _ _ hne hargs => exact ⟨hne, hargs⟩
        | atom _ hb => cases hb
      obtain ⟨init, last, rfl⟩ : ∃ init last, args = init ++ [last] :=
        ⟨_, _, (List.dropLast_append_getLast hargs.1).symm⟩
      have hmeaning := (hf' _ List.mem_cons_self).eval_printed (hbool' _ List.mem_cons_self) v
      simp only [printed, printeds_eq_map, Cond.eval_any, List.map_append, Truth.disj_append,
        List.map_cons, List.map_nil, Truth.disj_cons, Truth.disj_nil, Truth.sup_ff] at hmeaning
      have hinit : (init.map (printed subs)).map (Cond.eval v) =
          init.map fun p => (meaning p).eval v :=
        eval_printeds (fun a ha => hargs.2 a (by simp [ha]))
          (fun a ha => hexposed a (by simpa [exposedOperands] using ha)) v
      rw [whereTruth_whereOf_or hbool' hf' hargs.2 hts htss]
      have hconj : conjTruth v (.boolPredicate .or (init ++ [last]) :: ps) =
          (disj ((init.map (printed subs)).map (Cond.eval v)) ⊔ (printed subs last).eval v) ⊓
            conjTruth v ps := by
        simp only [conjTruth, List.map_cons, Truth.conj_cons, hmeaning]
      rw [hconj, Option.some.injEq, sup_inf_eq_sup_inf_inf_iff, Truth.disj_le, hinit]
      simp [exposedOperands]
    · push Not at hor
      rw [whereTruth_whereOf hbool' hf' hts htss hor, Option.some.injEq, eq_comm, inf_eq_left]
      have hnil : exposedOperands (p :: ps) = [] := by
        unfold exposedOperands
        split <;> simp_all
      simp [hnil]

/-- The comparison `relation.column = value`. -/
def columnEq (relation column value : String) : Expr :=
  .predicate (.attribute column relation) (.constant value .int) "="

/-- `from r, s where (r.a=1 or s.b=2) and r.c=3` after push-down: the OR needs both
relations, the other conjunct only `r`. -/
def pushedDownBlock : RaNode :=
  .selection 1 (.boolPredicate .or [columnEq "r" "a" "1", columnEq "s" "b" "2"])
    (.join 2 { type := .crossProduct } (.selection 3 (columnEq "r" "c" "3") (.relation 4 "r" ""))
      (.relation 5 "s" ""))

/-- Only the comparison `r.a = 1` holds. -/
def onlyFirst : Expr → Truth
  | .predicate (.attribute "a" _) _ _ => .tt
  | _ => .ff

private theorem isBoolean_columnEq (r c x : String) : IsBoolean (columnEq r c x) :=
  .atom _ rfl

private theorem isBoolean_pushedDownBlock :
    ∀ p ∈ blockSelections pushedDownBlock, IsBoolean p := by
  simp only [blockSelections, pushedDownBlock, lt_irrefl, ite_false,
    List.append_nil, List.forall_mem_cons, List.not_mem_nil, false_implies, implies_true,
    and_true]
  refine ⟨.connective .or _ (by decide) (by simp) ?_, isBoolean_columnEq _ _ _⟩
  simp [isBoolean_columnEq]

private theorem faithful_columnEq {r c x : String} (hr : r ≠ "") :
    Faithful (fun _ => none) (columnEq r c x) := by
  refine faithful_of_printed (isBoolean_columnEq r c x) rfl ?_ fun v => rfl
  simp [render, tokText, attributeToString, hr]

private theorem faithful_pushedDownBlock :
    ∀ p ∈ blockSelections pushedDownBlock ++ exposedOperands (printedSelections pushedDownBlock),
      Faithful (fun _ => none) p := by
  have hor := isBoolean_pushedDownBlock _ List.mem_cons_self
  simp only [blockSelections, printedSelections, exposedOperands, pushedDownBlock, lt_irrefl,
    ite_false, List.append_nil, List.cons_append, List.dropLast_cons_cons, List.dropLast_singleton,
    List.forall_mem_cons, List.nil_append, List.not_mem_nil, false_implies, implies_true, and_true]
  exact ⟨faithful_of_printed hor rfl (by decide) fun v => rfl,
    faithful_columnEq (by decide), faithful_columnEq (by decide)⟩

/-- The text `r.a=1 or s.b=2 and r.c=3` is true where only `r.a=1` holds. -/
theorem whereTruth_pushedDownBlock_ne :
    ¬ ∀ (child : RaNode) (c' : Clauses),
      deparseRaNode (fun _ => none) child 1 {} = some c' →
      (∀ p ∈ blockSelections child, IsBoolean p) →
      (∀ p ∈ blockSelections child ++ exposedOperands (printedSelections child),
        Faithful (fun _ => none) p) →
      ∀ v, whereTruth v c'.whereText = some (conjTruth v (blockSelections child)) := by
  intro h
  have hv := h pushedDownBlock _ rfl isBoolean_pushedDownBlock faithful_pushedDownBlock onlyFirst
  revert hv
  decide

/-- Where every comparison holds the missing parentheses do no harm. -/
theorem whereTruth_pushedDownBlock_of_all :
    ∃ c', deparseRaNode (fun _ => none) pushedDownBlock 1 {} = some c' ∧
      whereTruth (fun _ => .tt) c'.whereText =
        some (conjTruth (fun _ => .tt) (blockSelections pushedDownBlock)) := by
  have hsome : (deparseRaNode (fun _ => none) pushedDownBlock (0 + 1) {}).isSome := by decide
  obtain ⟨c', hc'⟩ := Option.isSome_iff_exists.mp hsome
  exact ⟨c', hc', (whereTruth_deparseRaNode_iff hc' rfl isBoolean_pushedDownBlock
    faithful_pushedDownBlock fun _ => .tt).mpr (by decide)⟩

end SqlOptimizer.Deparse.WhereText
