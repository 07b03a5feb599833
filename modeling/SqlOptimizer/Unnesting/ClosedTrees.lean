import SqlOptimizer.Parse.Inventory
import SqlOptimizer.Semantics.References
import SqlOptimizer.Tree.PushDownRun
import SqlOptimizer.Unnesting.ExistsIn

/-!
Closed trees: every attribute is bound by a relation of a block around it. The body of an
EXISTS or IN subquery becomes a closed CTE when only the conjuncts that are lifted out of it
refer to an outer query.
-/

set_option autoImplicit false
set_option relaxedAutoImplicit false

namespace SqlOptimizer.Unnesting.ClosedTrees

open Algebra.RelationalAlgebra
open Tree.Frames Tree.Walks Tree.PushDown Tree.PushDownRun
open Semantics.Evaluation Semantics.References
open Parse.Inventory (unaryExprs leafExprs)
open Objects Attributes Markers ExistsIn

/-- The relations of a block and of the blocks around it, with their aliases. -/
abbrev Scope := List (String × String)

/-- An attribute that names a relation, by its qualifier or else by its prefix. -/
def namedColumn : Reference → Option AttributeRef
  | .column name aliasName =>
      if getRelationFromAttribute name aliasName = "" then none else some (name, aliasName)
  | .marker _ => none

/-- The attributes in an expression. -/
def attributesOf (e : Expr) : List AttributeRef := (references e).filterMap namedColumn

/-- The scope binds all attributes of the expressions. -/
def Bound (scope : Scope) (es : List Expr) : Prop :=
  ∀ e ∈ es, ∀ a ∈ attributesOf e, isCovered scope a.1 a.2 = true

instance (scope : Scope) (es : List Expr) : Decidable (Bound scope es) :=
  inferInstanceAs (Decidable (∀ e ∈ es, ∀ a ∈ attributesOf e, isCovered scope a.1 a.2 = true))

/-- The scope for what an operator carries itself, and for the tree below it. -/
def operatorScope (scope : Scope) : UnaryOp → RaNode → Scope
  | .projection _, c => getRelationsAliases c ++ scope
  | _, _ => scope

/-- The scope for the condition of a join; a marked join has a subquery on its right. -/
def joinScope (scope : Scope) (join : Join) (l r : RaNode) : Scope :=
  if join.marker ≠ 0 then getRelationsAliases l ++ scope
  else getRelationsAliases l ++ getRelationsAliases r ++ scope

/-- The attributes of the tree are bound by its own blocks or by the scope around it. -/
def Closed (scope : Scope) : RaNode → Prop
  | .hole => True
  | .leaf _ op => Bound scope (leafExprs op)
  | .unary _ op c =>
      Bound (operatorScope scope op c) (unaryExprs op) ∧ Closed (operatorScope scope op c) c
  | .join _ join l r =>
      Bound (joinScope scope join l r) [join.predicate] ∧
        Closed scope l ∧ Closed scope r

instance decidableClosed : ∀ scope t, Decidable (Closed scope t)
  | _, .hole => .isTrue trivial
  | scope, .leaf _ op => inferInstanceAs (Decidable (Bound scope (leafExprs op)))
  | scope, .unary _ op c =>
      have := decidableClosed (operatorScope scope op c) c
      inferInstanceAs (Decidable (_ ∧ Closed (operatorScope scope op c) c))
  | scope, .join _ _ l r =>
      have := decidableClosed scope l
      have := decidableClosed scope r
      inferInstanceAs (Decidable (_ ∧ Closed scope l ∧ Closed scope r))

/-- The conjuncts of a condition from position `n` on. -/
def conjunctsFrom (n : Nat) : Expr → List Expr
  | .boolPredicate _ args => args.drop n
  | _ => []

/-- The tree is closed but for the first `n` conjuncts of its first Selection. -/
def ClosedBut (n : Nat) (scope : Scope) : RaNode → Prop
  | .unary _ (.selection p) c => Bound scope (conjunctsFrom n p) ∧ Closed scope c
  | .unary _ op c =>
      Bound (operatorScope scope op c) (unaryExprs op) ∧ ClosedBut n (operatorScope scope op c) c
  | .join _ join l r =>
      Bound (joinScope scope join l r) [join.predicate] ∧
        if (getFirstSelection l).isSome then ClosedBut n scope l ∧ Closed scope r
        else Closed scope l ∧ ClosedBut n scope r
  | t => Closed scope t

instance decidableClosedBut (n : Nat) : ∀ scope t, Decidable (ClosedBut n scope t)
  | _, .hole => .isTrue trivial
  | scope, .leaf _ op => inferInstanceAs (Decidable (Bound scope (leafExprs op)))
  | scope, .unary _ op c =>
      have := decidableClosedBut n (operatorScope scope op c) c
      match op with
      | .selection p => inferInstanceAs (Decidable (Bound scope (conjunctsFrom n p) ∧ Closed scope c))
      | .projection pr => inferInstanceAs (Decidable (Bound _ pr.args ∧ ClosedBut n _ c))
      | .root => inferInstanceAs (Decidable (Bound _ [] ∧ ClosedBut n _ c))
      | .orderBy args _ => inferInstanceAs (Decidable (Bound _ args ∧ ClosedBut n _ c))
      | .groupBy args _ => inferInstanceAs (Decidable (Bound _ args ∧ ClosedBut n _ c))
      | .having p => inferInstanceAs (Decidable (Bound _ [p] ∧ ClosedBut n _ c))
  | scope, .join _ join l r =>
      have := decidableClosedBut n scope l
      have := decidableClosedBut n scope r
      inferInstanceAs (Decidable (Bound _ [join.predicate] ∧
        if (getFirstSelection l).isSome then ClosedBut n scope l ∧ Closed scope r
        else Closed scope l ∧ ClosedBut n scope r))

/-- The scope for the child that is put into the operator. -/
def frameScope (scope : Scope) : Frame → RaNode → Scope
  | .unary _ op, x => operatorScope scope op x
  | _, _ => scope

/-- What the operator carries itself is bound, and its other child is closed. -/
def FrameClosed (scope : Scope) : Frame → RaNode → Prop
  | .unary _ op, x => Bound (operatorScope scope op x) (unaryExprs op)
  | .left _ join r, x =>
      Bound (joinScope scope join x r) [join.predicate] ∧ Closed scope r
  | .right _ join l, x =>
      Bound (joinScope scope join l x) [join.predicate] ∧ Closed scope l

/-- The scope at a position. -/
def scopeAt (scope : Scope) : List Frame → RaNode → Scope
  | [], _ => scope
  | f :: K, x => frameScope (scopeAt scope K (f.plug x)) f x

/-- Everything around a position is bound. -/
def ContextClosed (scope : Scope) : List Frame → RaNode → Prop
  | [], _ => True
  | f :: K, x => FrameClosed (scopeAt scope K (f.plug x)) f x ∧ ContextClosed scope K (f.plug x)

theorem closed_frame {scope : Scope} {f : Frame} {x : RaNode} :
    Closed scope (f.plug x) ↔ FrameClosed scope f x ∧ Closed (frameScope scope f x) x := by
  cases f with
  | unary i op => rfl
  | left i join r =>
    simp only [Frame.plug, Closed, FrameClosed, frameScope]
    tauto
  | right i join l =>
    simp only [Frame.plug, Closed, FrameClosed, frameScope]
    tauto

/-- A tree is closed when it is closed around a position and at it. -/
theorem closed_plug {scope : Scope} {K : List Frame} {x : RaNode} :
    Closed scope (plug K x) ↔ ContextClosed scope K x ∧ Closed (scopeAt scope K x) x := by
  induction K generalizing x with
  | nil => simp [ContextClosed, scopeAt]
  | cons f K ih =>
    rw [plug_cons, ih, closed_frame]
    simp only [ContextClosed, scopeAt]
    tauto

section

variable {x y : RaNode} (h : core x = core y)

include h

theorem relations_eq : getRelationsAliases x = getRelationsAliases y := by
  rw [← getRelationsAliases_core x, h, getRelationsAliases_core]

private theorem operatorScope_eq (scope : Scope) (op : UnaryOp) :
    operatorScope scope op x = operatorScope scope op y := by
  cases op <;> simp [operatorScope, relations_eq h]

private theorem frame_eq (scope : Scope) (f : Frame) :
    frameScope scope f x = frameScope scope f y ∧
      (FrameClosed scope f x ↔ FrameClosed scope f y) := by
  cases f <;> simp [frameScope, FrameClosed, operatorScope_eq h, joinScope, relations_eq h]

/-- Only the core of the tree at a position counts for what is around it. -/
theorem context_eq (scope : Scope) (K : List Frame) :
    scopeAt scope K x = scopeAt scope K y ∧
      (ContextClosed scope K x ↔ ContextClosed scope K y) := by
  induction K generalizing x y with
  | nil => simp [scopeAt, ContextClosed]
  | cons f K ih =>
    obtain ⟨hscope, hclosed⟩ := ih (core_plug h [f])
    have hframe := frame_eq h (scopeAt scope K (f.plug y)) f
    simp only [plug_cons, plug_nil] at hscope hclosed
    simp only [scopeAt, ContextClosed, hscope, hclosed, hframe.1, hframe.2, and_self]

end

/-- Frames around the frames around a position. -/
private theorem context_append (scope : Scope) (K : List Frame) (f : Frame) (x : RaNode) :
    scopeAt scope (K ++ [f]) x = scopeAt (frameScope scope f (plug K x)) K x ∧
      (ContextClosed scope (K ++ [f]) x ↔
        FrameClosed scope f (plug K x) ∧ ContextClosed (frameScope scope f (plug K x)) K x) := by
  induction K generalizing x with
  | nil => simp [scopeAt, ContextClosed]
  | cons g K ih =>
    obtain ⟨hscope, hclosed⟩ := ih (g.plug x)
    simp only [List.cons_append, scopeAt, ContextClosed, hscope, hclosed, plug_cons]
    tauto

theorem core_selection (i : Nat) (p : Expr) (c : RaNode) (K : List Frame) :
    core (plug K (.selection i p c)) = core (plug K c) := by
  have hsel : core (.selection i p c) = core c := rfl
  exact core_plug hsel K

/-- The first Selection and its position, which decide whether a tree is closed but for the first
conjuncts. -/
theorem exists_firstSelection {t : RaNode} {i : Nat} {p : Expr}
    (h : getFirstSelection t = some (i, p)) :
    ∃ K c, t = plug K (.selection i p c) ∧ ∀ n scope, ClosedBut n scope t ↔
      ContextClosed scope K c ∧ Bound (scopeAt scope K c) (conjunctsFrom n p) ∧
        Closed (scopeAt scope K c) c := by
  induction t with
  | hole => cases h
  | leaf j op => cases h
  | unary j op c ih =>
    have hbelow (h : getFirstSelection c = some (i, p)) (hop : ∀ p, op ≠ .selection p) :
        ∃ K c', .unary j op c = plug K (.selection i p c') ∧ ∀ n scope,
          ClosedBut n scope (.unary j op c) ↔ ContextClosed scope K c' ∧
            Bound (scopeAt scope K c') (conjunctsFrom n p) ∧ Closed (scopeAt scope K c') c' := by
      obtain ⟨K, c', rfl, hiff⟩ := ih h
      refine ⟨K ++ [.unary j op], c', by simp [Frame.plug], fun n scope => ?_⟩
      have hcore := core_selection i p c' K
      obtain ⟨hscope, hclosed⟩ := context_append scope K (.unary j op) c'
      have hframe := frame_eq hcore scope (.unary j op)
      rw [hscope, hclosed, ← hframe.1, ← hframe.2]
      simp only [frameScope, FrameClosed, and_assoc]
      rw [← hiff]
      cases op with
      | selection p => exact absurd rfl (hop p)
      | _ => rfl
    cases op with
    | selection p' =>
      cases h
      exact ⟨[], c, rfl, fun n scope => by simp [ClosedBut, ContextClosed, scopeAt]⟩
    | _ => exact hbelow h (by simp)
  | join j join l r ihl ihr =>
    rcases Option.or_eq_some_iff.mp h with hl | ⟨hl, hr⟩
    · obtain ⟨K, c', rfl, hiff⟩ := ihl hl
      refine ⟨K ++ [.left j join r], c', by simp [Frame.plug], fun n scope => ?_⟩
      have hcore := core_selection i p c' K
      obtain ⟨hscope, hclosed⟩ := context_append scope K (.left j join r) c'
      rw [hscope, hclosed, ← (frame_eq hcore scope (.left j join r)).2]
      simp only [ClosedBut, hl, Option.isSome_some, if_true, hiff, frameScope, FrameClosed]
      tauto
    · obtain ⟨K, c', rfl, hiff⟩ := ihr hr
      refine ⟨K ++ [.right j join l], c', by simp [Frame.plug], fun n scope => ?_⟩
      have hcore := core_selection i p c' K
      obtain ⟨hscope, hclosed⟩ := context_append scope K (.right j join l) c'
      rw [hscope, hclosed, ← (frame_eq hcore scope (.right j join l)).2]
      simp only [ClosedBut, hl, Option.isSome_none, Bool.false_eq_true, if_false, hiff, frameScope,
        FrameClosed]
      tauto

/-- `P` holds of the objects with the given address and of their scopes. -/
def AtObject (i : Nat) (P : Scope → RaNode → Prop) (scope : Scope) : RaNode → Prop
  | .hole => True
  | .leaf j op => j = i → P scope (.leaf j op)
  | .unary j op c =>
      if j = i then P scope (.unary j op c) else AtObject i P (operatorScope scope op c) c
  | .join j join l r =>
      if j = i then P scope (.join j join l r) else AtObject i P scope l ∧ AtObject i P scope r

instance decidableAtObject (i : Nat) (P : Scope → RaNode → Prop) [∀ scope t, Decidable (P scope t)] :
    ∀ scope t, Decidable (AtObject i P scope t)
  | _, .hole => .isTrue trivial
  | scope, .leaf j op => inferInstanceAs (Decidable (j = i → P scope (.leaf j op)))
  | scope, .unary j op c =>
      have := decidableAtObject i P (operatorScope scope op c) c
      inferInstanceAs (Decidable (if j = i then P scope (.unary j op c)
        else AtObject i P (operatorScope scope op c) c))
  | scope, .join j join l r =>
      have := decidableAtObject i P scope l
      have := decidableAtObject i P scope r
      inferInstanceAs (Decidable (if j = i then P scope (.join j join l r)
        else AtObject i P scope l ∧ AtObject i P scope r))

/-- A change of an object that keeps its relations and keeps it closed in its scope. -/
theorem AtObject.closed_update {i : Nat} {P : Scope → RaNode → Prop} {f : RaNode → RaNode}
    (hf : ∀ scope t, P scope t → getRelationsAliases (f t) = getRelationsAliases t ∧
      (Closed scope t → Closed scope (f t))) {scope : Scope} {t : RaNode}
    (h : AtObject i P scope t) : getRelationsAliases (update i f t) = getRelationsAliases t ∧
      (Closed scope t → Closed scope (update i f t)) := by
  induction t generalizing scope with
  | hole => exact ⟨rfl, id⟩
  | leaf j op =>
    rw [update]
    split
    · next hj => exact hf scope _ (h hj)
    · exact ⟨rfl, id⟩
  | unary j op c ih =>
    rw [AtObject] at h
    rw [update]
    split
    · next hj =>
      rw [if_pos hj] at h
      exact hf scope _ h
    · next hj =>
      rw [if_neg hj] at h
      obtain ⟨hrel, hclosed⟩ := ih h
      have hscope : operatorScope scope op (update i f c) = operatorScope scope op c := by
        cases op <;> simp [operatorScope, hrel]
      refine ⟨?_, fun ht => ?_⟩
      · cases op <;> simp [getRelationsAliases, hrel]
      · rw [Closed, hscope]
        exact ⟨ht.1, hclosed ht.2⟩
  | join j join l r ihl ihr =>
    rw [AtObject] at h
    rw [update]
    split
    · next hj =>
      rw [if_pos hj] at h
      exact hf scope _ h
    · next hj =>
      rw [if_neg hj] at h
      obtain ⟨hrell, hl⟩ := ihl h.1
      obtain ⟨hrelr, hr⟩ := ihr h.2
      refine ⟨by simp [getRelationsAliases, hrell, hrelr], fun ht => ?_⟩
      rw [Closed, joinScope, hrell, hrelr]
      exact ⟨ht.1, hl ht.2.1, hr ht.2.2⟩

end SqlOptimizer.Unnesting.ClosedTrees
