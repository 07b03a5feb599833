import Mathlib.Algebra.BigOperators.Group.List.Basic
import Mathlib.Algebra.Order.BigOperators.Group.List
import Mathlib.Algebra.GroupWithZero.Nat

/-!
Machines that read a list and put out another one. A step may put out some elements,
and the last state puts out what it still holds. A step or the end may fail.
-/

set_option autoImplicit false
set_option relaxedAutoImplicit false

namespace SqlOptimizer.Logic.Transducers

variable {σ α β : Type}

/-- Elements put out before a result. -/
def emit (bs : List β) (r : Option (List β × σ)) : Option (List β × σ) :=
  r.map fun p => (bs ++ p.1, p.2)

@[simp] theorem emit_nil (r : Option (List β × σ)) : emit [] r = r := by
  cases r <;> rfl

@[simp] theorem emit_none (bs : List β) : emit bs (none : Option (List β × σ)) = none := rfl

@[simp] theorem emit_some (bs : List β) (p : List β × σ) :
    emit bs (some p) = some (bs ++ p.1, p.2) := rfl

theorem emit_emit (bs bs' : List β) (r : Option (List β × σ)) :
    emit bs (emit bs' r) = emit (bs ++ bs') r := by
  cases r with
  | none => rfl
  | some p => simp

theorem emit_eq_some {bs : List β} {r : Option (List β × σ)} {p : List β × σ} :
    emit bs r = some p ↔ ∃ bs', r = some (bs', p.2) ∧ p.1 = bs ++ bs' := by
  obtain ⟨cs, s⟩ := p
  cases r with
  | none => simp
  | some q =>
    obtain ⟨bs', s'⟩ := q
    simp only [emit_some, Option.some.injEq, Prod.mk.injEq]
    constructor
    · rintro ⟨rfl, rfl⟩
      exact ⟨bs', ⟨rfl, rfl⟩, rfl⟩
    · rintro ⟨bs'', ⟨rfl, rfl⟩, rfl⟩
      exact ⟨rfl, rfl⟩

variable (step : σ → α → Option (List β × σ)) (finish : σ → Option (List β))

/-- What is put out while a list is read, and the state after it. -/
def after : σ → List α → Option (List β × σ)
  | s, [] => some ([], s)
  | s, a :: as => (step s a).bind fun p => emit p.1 (after p.2 as)

/-- What is put out for a whole list. -/
def output : σ → List α → Option (List β)
  | s, [] => finish s
  | s, a :: as => (step s a).bind fun p => (output p.2 as).map (p.1 ++ ·)

variable {step finish}

theorem after_append (s : σ) (as as' : List α) :
    after step s (as ++ as') =
      (after step s as).bind fun p => emit p.1 (after step p.2 as') := by
  induction as generalizing s with
  | nil => simp [after]
  | cons a as ih =>
    simp only [List.cons_append, after]
    cases step s a with
    | none => rfl
    | some p =>
      simp only [Option.bind_some, ih]
      cases after step p.2 as with
      | none => rfl
      | some q => exact emit_emit _ _ _

theorem output_append {s s' : σ} {as : List α} {bs : List β}
    (h : after step s as = some (bs, s')) (as' : List α) :
    output step finish s (as ++ as') = (output step finish s' as').map (bs ++ ·) := by
  induction as generalizing s bs with
  | nil =>
    cases h
    simp
  | cons a as ih =>
    obtain ⟨p, hp, h⟩ := Option.bind_eq_some_iff.mp h
    obtain ⟨bs', h', rfl⟩ := emit_eq_some.mp h
    simp only [List.cons_append, output, hp, Option.bind_some, ih h', Option.map_map]
    congr 1
    funext bs
    exact (List.append_assoc _ _ _).symm

/-- An element for which nothing is put out. -/
theorem output_cons_silent {s s' : σ} {a : α} (h : step s a = some ([], s')) (as : List α) :
    output step finish s (a :: as) = output step finish s' as := by
  simp [output, h]

/-- A state that owes some elements and then behaves like another one. -/
theorem output_cons_of_emit {s s' : σ} {a : α} {bs : List β}
    (h : step s a = emit bs (step s' a)) (as : List α) :
    output step finish s (a :: as) = (output step finish s' (a :: as)).map (bs ++ ·) := by
  simp only [output, h]
  cases step s' a with
  | none => rfl
  | some p => simp [Function.comp_def]

/-- The list goes on with something that the state has no part in: the state can put out
what it holds, and the rest is read from `s₀`. -/
def Ends (step : σ → α → Option (List β × σ)) (finish : σ → Option (List β)) (s₀ s : σ)
    (as : List α) : Prop :=
  output step finish s as = (finish s).bind fun bs => (output step finish s₀ as).map (bs ++ ·)

theorem ends_nil {s₀ : σ} (h : finish s₀ = some []) (s : σ) : Ends step finish s₀ s [] := by
  simp [Ends, output, h]

theorem ends_self {s₀ : σ} (h : finish s₀ = some []) (as : List α) :
    Ends step finish s₀ s₀ as := by
  simp [Ends, h]

/-- A step that closes the state and starts anew. -/
theorem ends_cons {s₀ s : σ} {a : α}
    (h : step s a = (finish s).bind fun bs => emit bs (step s₀ a)) (as : List α) :
    Ends step finish s₀ s (a :: as) := by
  unfold Ends
  cases hs : finish s with
  | none => simp [output, h, hs]
  | some bs => exact output_cons_of_emit (by rw [h, hs, Option.bind_some]) as

/-- A state that owes some elements, whatever comes next. -/
theorem output_of_owes {s s' : σ} {bs : List β} {as : List α}
    (hfinish : finish s = (finish s').map (bs ++ ·))
    (hstep : ∀ a, as.head? = some a → step s a = emit bs (step s' a)) :
    output step finish s as = (output step finish s' as).map (bs ++ ·) := by
  cases as with
  | nil => exact hfinish
  | cons a as => exact output_cons_of_emit (hstep a rfl) as

/-- A state that after the element owes what it holds. -/
theorem ends_of_owes {s₀ s s' : σ} (s₁ : σ) {a : α} {bs : List β} {as : List α}
    (hs : step s a = some ([], s')) (h₀ : step s₀ a = some ([], s₁)) (hbs : finish s = some bs)
    (h : output step finish s' as = (output step finish s₁ as).map (bs ++ ·)) :
    Ends step finish s₀ s (a :: as) := by
  simpa [Ends, output, hs, h₀, hbs] using h

/-- An element that neither the state nor `s₀` puts anything out for. -/
theorem Ends.cons_silent {s₀ s s' : σ} {a : α} {as : List α} (h : Ends step finish s₀ s' as)
    (hs : step s a = some ([], s')) (h₀ : step s₀ a = some ([], s₀))
    (hfinish : finish s = finish s') : Ends step finish s₀ s (a :: as) := by
  unfold Ends at h ⊢
  simpa [output, hs, h₀, hfinish] using h

/-- What is put out has a property that every step and the end give to what they put out. -/
theorem output_forall {I : σ → Prop} {P : β → Prop}
    (hstep : ∀ s a bs s', I s → step s a = some (bs, s') → (∀ b ∈ bs, P b) ∧ I s')
    (hfinish : ∀ s bs, I s → finish s = some bs → ∀ b ∈ bs, P b)
    {s : σ} {as : List α} {bs : List β} (h : output step finish s as = some bs) (hs : I s) :
    ∀ b ∈ bs, P b := by
  induction as generalizing s bs with
  | nil => exact hfinish s bs hs h
  | cons a as ih =>
    obtain ⟨⟨bs₁, s₁⟩, h₁, h⟩ := Option.bind_eq_some_iff.mp h
    obtain ⟨bs₂, h₂, rfl⟩ := Option.map_eq_some_iff.mp h
    obtain ⟨hbs₁, hs₁⟩ := hstep s a bs₁ s₁ hs h₁
    intro b hb
    rcases List.mem_append.mp hb with hb | hb
    · exact hbs₁ b hb
    · exact ih h₂ hs₁ b hb

/-- The weight put out is bounded by the weight read, when every step takes what it puts
out from its state and from what it reads. -/
theorem output_sum_le {v : α → Nat} {w : β → Nat} {p : σ → Nat}
    (hstep : ∀ s a bs s', step s a = some (bs, s') → (bs.map w).sum + p s' ≤ p s + v a)
    (hfinish : ∀ s bs, finish s = some bs → (bs.map w).sum ≤ p s)
    {s : σ} {as : List α} {bs : List β} (h : output step finish s as = some bs) :
    (bs.map w).sum ≤ p s + (as.map v).sum := by
  induction as generalizing s bs with
  | nil => exact hfinish s bs h
  | cons a as ih =>
    obtain ⟨⟨bs₁, s₁⟩, h₁, h⟩ := Option.bind_eq_some_iff.mp h
    obtain ⟨bs₂, h₂, rfl⟩ := Option.map_eq_some_iff.mp h
    have hfirst := hstep s a bs₁ s₁ h₁
    have hrest : (bs₂.map w).sum ≤ p s₁ + (as.map v).sum := ih h₂
    simp only [List.map_append, List.sum_append, List.map_cons, List.sum_cons]
    omega

end SqlOptimizer.Logic.Transducers
