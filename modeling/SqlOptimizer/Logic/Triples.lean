import Mathlib.Init

/-!
Programs with a state and faults: the state is kept when a program faults. A triple says
what holds of the state before and after, for both ways of ending.
-/

set_option autoImplicit false
set_option relaxedAutoImplicit false

namespace SqlOptimizer.Logic.Triples

variable {σ ε α β ι : Type}

/-- Programs over a state `σ` with faults `ε`. -/
abbrev Program (σ ε : Type) := ExceptT ε (StateM σ)

/-- The fault or the result, and the state in which the program ends. -/
def outcome (x : Program σ ε α) (s : σ) : Except ε α × σ := x.run.run s

@[simp] theorem outcome_pure (a : α) (s : σ) :
    outcome (pure a : Program σ ε α) s = (.ok a, s) := rfl

@[simp] theorem outcome_throw (e : ε) (s : σ) :
    outcome (throw e : Program σ ε α) s = (.error e, s) := rfl

@[simp] theorem outcome_get (s : σ) : outcome (get : Program σ ε σ) s = (.ok s, s) := rfl

@[simp] theorem outcome_modify (f : σ → σ) (s : σ) :
    outcome (modify f : Program σ ε Unit) s = (.ok (), f s) := rfl

theorem outcome_bind (x : Program σ ε α) (f : α → Program σ ε β) (s : σ) :
    outcome (x >>= f) s =
      match outcome x s with
      | (.ok a, s') => outcome (f a) s'
      | (.error e, s') => (.error e, s') := by
  change (do
    let r ← x.run
    ExceptT.bindCont f r).run s = _
  rw [StateT.run_bind]
  generalize hx : x.run.run s = r
  have hx' : outcome x s = r := hx
  rw [hx']
  obtain ⟨r, s'⟩ := r
  cases r <;> rfl

/-- A program that does not fault does not fault on the way. -/
theorem outcome_bind_eq_ok {x : Program σ ε α} {f : α → Program σ ε β} {s s'' : σ} {b : β} :
    outcome (x >>= f) s = (.ok b, s'') ↔
      ∃ a s', outcome x s = (.ok a, s') ∧ outcome (f a) s' = (.ok b, s'') := by
  rw [outcome_bind]
  generalize outcome x s = r
  obtain ⟨r, s'⟩ := r
  cases r with
  | error e => simp
  | ok a =>
    constructor
    · exact fun h => ⟨a, s', rfl, h⟩
    · rintro ⟨_, _, hx, h⟩
      cases hx
      exact h

/-- From a state with `P` the program ends with `Q` of its result, or faults with `E`. -/
def Triple (P : σ → Prop) (x : Program σ ε α) (Q : α → σ → Prop) (E : σ → Prop) : Prop :=
  ∀ s, P s →
    match outcome x s with
    | (.ok a, s') => Q a s'
    | (.error _, s') => E s'

namespace Triple

variable {P P' : σ → Prop} {Q Q' : α → σ → Prop} {R : β → σ → Prop} {E E' : σ → Prop}
  {x : Program σ ε α} {f : α → Program σ ε β}

theorem pure {a : α} (h : ∀ s, P s → Q a s) : Triple P (pure a : Program σ ε α) Q E :=
  fun s hs => h s hs

theorem throw {e : ε} (h : ∀ s, P s → E s) : Triple P (throw e : Program σ ε α) Q E :=
  fun s hs => h s hs

theorem get : Triple P (get : Program σ ε σ) (fun a s => a = s ∧ P s) E :=
  fun _ hs => ⟨rfl, hs⟩

theorem modify {g : σ → σ} {Q : Unit → σ → Prop} (h : ∀ s, P s → Q () (g s)) :
    Triple P (modify g : Program σ ε Unit) Q E :=
  fun s hs => h s hs

/-- Two programs after each other. -/
theorem bind (hx : Triple P x Q E) (hf : ∀ a, Triple (Q a) (f a) R E) :
    Triple P (x >>= f) R E := by
  intro s hs
  have h := hx s hs
  rw [outcome_bind]
  generalize outcome x s = r at h
  obtain ⟨r, s'⟩ := r
  cases r with
  | ok a => exact hf a s' h
  | error e => exact h

theorem mono (h : Triple P x Q E) (hP : ∀ s, P' s → P s) (hQ : ∀ a s, Q a s → Q' a s)
    (hE : ∀ s, E s → E' s) : Triple P' x Q' E' := by
  intro s hs
  have h := h s (hP s hs)
  generalize outcome x s = r at h
  obtain ⟨r, s'⟩ := r
  cases r with
  | ok a => exact hQ a s' h
  | error e => exact hE s' h

theorem pre (h : Triple P x Q E) (hP : ∀ s, P' s → P s) : Triple P' x Q E :=
  h.mono hP (fun _ _ h => h) fun _ h => h

/-- What the state says about values that are known already. -/
theorem given {p : Prop} (h : p → Triple P x Q E) : Triple (fun s => p ∧ P s) x Q E :=
  fun s hs => h hs.1 s hs.2

theorem post (h : Triple P x Q E) (hQ : ∀ a s, Q a s → Q' a s) : Triple P x Q' E :=
  h.mono (fun _ h => h) hQ fun _ h => h

/-- The state after a program remembers the state before it. -/
theorem remember (h : Triple P x Q E) (R : σ → Prop) :
    Triple (fun s => P s ∧ R s) x
      (fun a s' => Q a s' ∧ ∃ s, R s ∧ outcome x s = (.ok a, s')) E := by
  intro s hs
  have hx := h s hs.1
  generalize hout : outcome x s = r at hx
  obtain ⟨r, s'⟩ := r
  cases r with
  | ok a => exact ⟨hx, s, hs.2, hout⟩
  | error e => exact hx

/-- A program without faults. -/
theorem exists_ok {s : σ} (h : Triple P x Q fun _ => False) (hs : P s) :
    ∃ a s', outcome x s = (.ok a, s') ∧ Q a s' := by
  have h := h s hs
  generalize outcome x s = r at h
  obtain ⟨r, s'⟩ := r
  cases r with
  | ok a => exact ⟨a, s', rfl, h⟩
  | error e => exact h.elim

/-- A loop over a list keeps what every round keeps. -/
theorem forM {g : ι → Program σ ε PUnit} {is : List ι}
    (h : ∀ i ∈ is, Triple P (g i) (fun _ => P) E) :
    Triple P (is.forM g) (fun _ => P) E := by
  induction is with
  | nil => exact .pure fun _ h => h
  | cons i is ih =>
    rw [List.forall_mem_cons] at h
    exact .bind h.1 fun _ => ih h.2

end Triple

/-- The program keeps the invariant, also when it faults, and its results satisfy `A`. -/
def Yields (I : σ → Prop) (x : Program σ ε α) (A : α → Prop) : Prop :=
  Triple I x (fun a s => A a ∧ I s) I

/-- The program keeps the invariant, also when it faults. -/
def Keeps (I : σ → Prop) (x : Program σ ε α) : Prop := Triple I x (fun _ => I) I

section

variable {I : σ → Prop} {x : Program σ ε α} {f : α → Program σ ε β} {A : α → Prop}

theorem Yields.pure {a : α} (h : A a) : Yields I (pure a : Program σ ε α) A :=
  Triple.pure fun _ hs => ⟨h, hs⟩

theorem Yields.bind {B : β → Prop} (hx : Yields I x A) (hf : ∀ a, A a → Yields I (f a) B) :
    Yields I (x >>= f) B :=
  Triple.bind hx fun a s hs => hf a hs.1 s hs.2

theorem Yields.then {B : β → Prop} (hx : Keeps I x) (hf : ∀ a, Yields I (f a) B) :
    Yields I (x >>= f) B :=
  Triple.bind hx hf

theorem Yields.keeps (h : Yields I x A) : Keeps I x := Triple.post h fun _ _ hs => hs.2

theorem Keeps.yields (h : Keeps I x) : Yields I x fun _ => True :=
  Triple.post h fun _ _ hs => ⟨trivial, hs⟩

theorem Keeps.pure (a : α) : Keeps I (pure a : Program σ ε α) := Triple.pure fun _ hs => hs

theorem Keeps.throw (e : ε) : Keeps I (throw e : Program σ ε α) := Triple.throw fun _ hs => hs

theorem Keeps.modify {g : σ → σ} (h : ∀ s, I s → I (g s)) :
    Keeps I (modify g : Program σ ε Unit) :=
  Triple.modify h

theorem Keeps.bind (hx : Keeps I x) (hf : ∀ a, Keeps I (f a)) : Keeps I (x >>= f) :=
  Triple.bind hx hf

theorem Keeps.triple {E : σ → Prop} (h : Keeps I x) (hE : ∀ s, I s → E s) :
    Triple I x (fun _ => I) E :=
  Triple.mono h (fun _ hs => hs) (fun _ _ hs => hs) hE

/-- The rest of the program may use what is known of the result. -/
theorem Keeps.after (hx : Yields I x A) (hf : ∀ a, A a → Keeps I (f a)) : Keeps I (x >>= f) :=
  Triple.bind hx fun a s hs => hf a hs.1 s hs.2

theorem Keeps.forM {g : ι → Program σ ε PUnit} {is : List ι} (h : ∀ i ∈ is, Keeps I (g i)) :
    Keeps I (is.forM g) :=
  Triple.forM h

/-- A loop with an accumulator. -/
theorem Keeps.foldlM {g : β → ι → Program σ ε β} {is : List ι} (h : ∀ b, ∀ i ∈ is, Keeps I (g b i))
    (b : β) : Keeps I (is.foldlM g b) := by
  induction is generalizing b with
  | nil => exact .pure b
  | cons i is ih =>
    rw [List.foldlM_cons]
    exact .bind (h b i List.mem_cons_self) fun b' =>
      ih (fun b j hj => h b j (List.mem_cons_of_mem _ hj)) b'

end

/-- As far as `view` shows the state, the program takes one state to another and ends with the
result. -/
def Takes {τ : Type} (view : σ → τ) (x : Program σ ε α) (t : τ) (a : α) (t' : τ) : Prop :=
  ∀ s, view s = t → ∃ s', outcome x s = (.ok a, s') ∧ view s' = t'

section

variable {τ : Type} {view : σ → τ} {x : Program σ ε α} {f : α → Program σ ε β} {t t' t'' : τ} {a : α}
  {b : β}

theorem Takes.pure (a : α) : Takes view (pure a : Program σ ε α) t a t := fun s hs => ⟨s, rfl, hs⟩

theorem Takes.modify {g : σ → σ} (h : ∀ s, view s = t → view (g s) = t') :
    Takes view (modify g : Program σ ε Unit) t () t' :=
  fun s hs => ⟨g s, rfl, h s hs⟩

theorem Takes.bind (hx : Takes view x t a t') (hf : Takes view (f a) t' b t'') :
    Takes view (x >>= f) t b t'' := by
  intro s hs
  obtain ⟨s', hrun, hs'⟩ := hx s hs
  obtain ⟨s'', hrest, hs''⟩ := hf s' hs'
  exact ⟨s'', outcome_bind_eq_ok.mpr ⟨a, s', hrun, hrest⟩, hs''⟩

/-- A program that looks at the whole state. -/
theorem Takes.get {f : σ → Program σ ε β} (h : ∀ s, view s = t → Takes view (f s) t b t') :
    Takes view (get >>= f) t b t' := by
  intro s hs
  obtain ⟨s', hrun, hs'⟩ := h s hs s hs
  exact ⟨s', outcome_bind_eq_ok.mpr ⟨s, s, rfl, hrun⟩, hs'⟩

/-- A loop none of whose rounds changes anything. -/
theorem Takes.forM {g : ι → Program σ ε PUnit} {is : List ι} (h : ∀ i ∈ is, Takes view (g i) t ⟨⟩ t) :
    Takes view (is.forM g) t ⟨⟩ t := by
  induction is with
  | nil => exact .pure _
  | cons i is ih =>
    rw [List.forall_mem_cons] at h
    exact .bind h.1 (ih h.2)

end

/-- `P` holds of every round of a loop and of the state in which the round starts. -/
def EachRound (g : ι → Program σ ε PUnit) (P : ι → σ → Prop) : List ι → σ → Prop
  | [], _ => True
  | i :: is, s => P i s ∧ ∀ s', outcome (g i) s = (.ok ⟨⟩, s') → EachRound g P is s'

theorem eachRound_of_forall {g : ι → Program σ ε PUnit} {P : ι → σ → Prop}
    (h : ∀ i s, P i s) (is : List ι) (s : σ) : EachRound g P is s := by
  induction is generalizing s with
  | nil => trivial
  | cons i is ih => exact ⟨h i s, fun s' _ => ih s'⟩

/-- What holds after a program that does not fault. -/
instance decidableAfter (x : Program σ ε α) (s : σ) (a : α) (P : σ → Prop) [DecidableEq α]
    [DecidablePred P] : Decidable (∀ s', outcome x s = (.ok a, s') → P s') :=
  match h : outcome x s with
  | (.error e, s₁) => .isTrue fun s' h' => nomatch h'
  | (.ok b, s₁) =>
      decidable_of_iff (b = a → P s₁) (by
        constructor
        · intro hP s' h'
          simp only [Prod.mk.injEq, Except.ok.injEq] at h'
          exact h'.2 ▸ hP h'.1
        · rintro hP rfl
          exact hP s₁ rfl)

instance decidableEachRound (g : ι → Program σ ε PUnit) (P : ι → σ → Prop)
    [∀ i s, Decidable (P i s)] : ∀ is s, Decidable (EachRound g P is s)
  | [], _ => .isTrue trivial
  | i :: is, s =>
      have : DecidablePred fun s' => EachRound g P is s' := decidableEachRound g P is
      inferInstanceAs (Decidable (P i s ∧ ∀ s', outcome (g i) s = (.ok ⟨⟩, s') →
        EachRound g P is s'))

/-- A loop keeps what the rounds keep for which `P` holds. -/
theorem Triple.forM_of_eachRound {I : σ → Prop} {E : σ → Prop} {g : ι → Program σ ε PUnit}
    {P : ι → σ → Prop} {is : List ι}
    (h : ∀ i ∈ is, Triple (fun s => I s ∧ P i s) (g i) (fun _ => I) E) :
    Triple (fun s => I s ∧ EachRound g P is s) (is.forM g) (fun _ => I) E := by
  induction is with
  | nil => exact .pure fun _ hs => hs.1
  | cons i is ih =>
    rw [List.forall_mem_cons] at h
    intro s hs
    have hround := h.1 s ⟨hs.1, hs.2.1⟩
    have hcons : (i :: is).forM g = g i >>= fun _ => is.forM g := rfl
    rw [hcons, outcome_bind]
    generalize hout : outcome (g i) s = r at hround
    obtain ⟨r, s'⟩ := r
    cases r with
    | ok a => exact ih h.2 s' ⟨hround, hs.2.2 s' hout⟩
    | error e => exact hround

end SqlOptimizer.Logic.Triples
