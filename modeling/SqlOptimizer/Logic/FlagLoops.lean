import Mathlib.Data.List.Basic

/-!
Loops that try one call after the other on a shared state until a flag is set. A call that
fails may change the state too, and the next call starts from what it has left.
-/

set_option autoImplicit false
set_option relaxedAutoImplicit false

namespace SqlOptimizer.Logic.FlagLoops

variable {σ : Type}

/-- `for(call : calls) if(!found) found = call(state)`. -/
def tryAll (calls : List (σ → Bool × σ)) (r : Bool × σ) : Bool × σ :=
  calls.foldl (fun r call => if r.1 then r else call r.2) r

@[simp] theorem tryAll_nil (r : Bool × σ) : tryAll [] r = r := rfl

@[simp] theorem tryAll_cons (call : σ → Bool × σ) (calls : List (σ → Bool × σ)) (r : Bool × σ) :
    tryAll (call :: calls) r = tryAll calls (if r.1 then r else call r.2) := rfl

/-- Nothing happens once the flag is set. -/
theorem tryAll_found (calls : List (σ → Bool × σ)) {r : Bool × σ} (h : r.1 = true) :
    tryAll calls r = r := by
  induction calls with
  | nil => rfl
  | cons call calls ih => rw [tryAll_cons, if_pos h, ih]

/-- An invariant that every failing call keeps, and what a succeeding call gives. -/
theorem tryAll_rule {I Q : σ → Prop} {calls : List (σ → Bool × σ)} {s : σ}
    (hfail : ∀ call ∈ calls, ∀ s, I s → (call s).1 = false → I (call s).2)
    (hsucceed : ∀ call ∈ calls, ∀ s, I s → (call s).1 = true → Q (call s).2) (hs : I s) :
    ((tryAll calls (false, s)).1 = true → Q (tryAll calls (false, s)).2) ∧
      ((tryAll calls (false, s)).1 = false → I (tryAll calls (false, s)).2) := by
  induction calls generalizing s with
  | nil => exact ⟨fun h => Bool.noConfusion h, fun _ => hs⟩
  | cons call calls ih =>
    obtain ⟨hfail₁, hfail₂⟩ := List.forall_mem_cons.mp hfail
    obtain ⟨hsucceed₁, hsucceed₂⟩ := List.forall_mem_cons.mp hsucceed
    rw [tryAll_cons, if_neg Bool.false_ne_true]
    by_cases hcall : (call s).1 = true
    · rw [tryAll_found calls hcall]
      exact ⟨fun _ => hsucceed₁ s hs hcall, fun h => Bool.noConfusion (hcall.symm.trans h)⟩
    · rw [Bool.not_eq_true] at hcall
      have hpair : call s = (false, (call s).2) := Prod.ext hcall rfl
      rw [hpair]
      exact ih hfail₂ hsucceed₂ (hfail₁ s hs hcall)

/-- When no call's answer depends on the state, the loop answers whether some call succeeds. -/
theorem tryAll_fst {α : Type} {f : α → σ → Bool × σ} {answer : α → Bool} {xs : List α}
    (h : ∀ x ∈ xs, ∀ s, (f x s).1 = answer x) (r : Bool × σ) :
    (tryAll (xs.map f) r).1 = (r.1 || xs.any answer) := by
  induction xs generalizing r with
  | nil => simp
  | cons x xs ih =>
    obtain ⟨hx, hxs⟩ := List.forall_mem_cons.mp h
    rw [List.map_cons, tryAll_cons, ih hxs]
    by_cases hr : r.1 = true
    · simp [hr]
    · simp [hr, hx]

/-- The state after a successful loop is the one that a successful call has left. -/
theorem exists_of_tryAll {α : Type} {f : α → σ → Bool × σ} {xs : List α} {s : σ}
    (h : (tryAll (xs.map f) (false, s)).1 = true) :
    ∃ x ∈ xs, ∃ s', f x s' = tryAll (xs.map f) (false, s) := by
  have hsucceed : ∀ call ∈ xs.map f, ∀ s, True → (call s).1 = true →
      ∃ x ∈ xs, ∃ s', f x s' = (true, (call s).2) := by
    intro call hcall s' _ hs'
    obtain ⟨x, hx, rfl⟩ := List.mem_map.mp hcall
    exact ⟨x, hx, s', Prod.ext hs' rfl⟩
  obtain ⟨x, hx, s', hs'⟩ := (tryAll_rule (I := fun _ => True)
    (Q := fun r => ∃ x ∈ xs, ∃ s', f x s' = (true, r)) (fun _ _ _ _ _ => trivial) hsucceed
    trivial).1 h
  exact ⟨x, hx, s', hs'.trans (Prod.ext h.symm rfl)⟩

/-- Calls that do not use the state: the first success is the result. -/
theorem tryAll_stateless {α : Type} {f : α → Bool × σ} {g : α → Option σ} {xs : List α}
    (h : ∀ x ∈ xs, g x = if (f x).1 then some (f x).2 else none) (s : σ) :
    (if (tryAll (xs.map fun x _ => f x) (false, s)).1 then
        some (tryAll (xs.map fun x _ => f x) (false, s)).2 else none) = xs.findSome? g := by
  induction xs generalizing s with
  | nil => rfl
  | cons x xs ih =>
    obtain ⟨hx, hxs⟩ := List.forall_mem_cons.mp h
    rw [List.map_cons, tryAll_cons, if_neg Bool.false_ne_true, List.findSome?_cons, hx]
    by_cases hfound : (f x).1 = true
    · simp [tryAll_found _ hfound, hfound]
    · rw [Bool.not_eq_true] at hfound
      have hpair : f x = (false, (f x).2) := Prod.ext hfound rfl
      rw [hpair, ih hxs]
      simp

end SqlOptimizer.Logic.FlagLoops
