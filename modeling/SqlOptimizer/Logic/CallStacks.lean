import Mathlib.Logic.Relation

/-!
Recursive calls on a stack. A call that is made on something absent faults; otherwise the calls
of its body take its place, unless an assertion stops the program.
-/

set_option autoImplicit false
set_option relaxedAutoImplicit false

namespace SqlOptimizer.Logic.CallStacks

open Relation (ReflTransGen)

variable {C : Type} (present : C → Bool) (callees : C → Option (List C))

/-- The call on top is entered. -/
inductive Step : List C → List C → Prop
  | enter {c : C} {cs : List C} (rest : List C) (hpresent : present c = true)
      (hcs : callees c = some cs) : Step (c :: rest) (cs ++ rest)

/-- No call faults on the way. -/
def OnlyPresent (c : C) : Prop :=
  ∀ stack, ReflTransGen (Step present callees) [c] stack →
    ∀ top ∈ stack.head?, present top = true

/-- The call comes back. -/
def Returns (c : C) : Prop := ReflTransGen (Step present callees) [c] []

variable {present callees}

/-- A step does not look at the calls below. -/
theorem Step.append {stack stack' : List C} (h : Step present callees stack stack')
    (rest : List C) : Step present callees (stack ++ rest) (stack' ++ rest) := by
  cases h with
  | @enter c cs below hpresent hcs =>
    rw [List.append_assoc]
    exact .enter (below ++ rest) hpresent hcs

theorem reaches_append {stack stack' : List C}
    (h : ReflTransGen (Step present callees) stack stack') (rest : List C) :
    ReflTransGen (Step present callees) (stack ++ rest) (stack' ++ rest) := by
  induction h with
  | refl => exact .refl
  | tail _ hstep ih => exact ih.tail (hstep.append rest)

theorem Returns.pop {c : C} (h : Returns present callees c) (rest : List C) :
    ReflTransGen (Step present callees) (c :: rest) rest := reaches_append h rest

theorem pop_all {cs : List C} (h : ∀ c ∈ cs, Returns present callees c) (rest : List C) :
    ReflTransGen (Step present callees) (cs ++ rest) rest := by
  induction cs with
  | nil => exact .refl
  | cons c cs ih =>
    obtain ⟨hc, hcs⟩ := List.forall_mem_cons.mp h
    exact (hc.pop (cs ++ rest)).trans (ih hcs)

/-- A call returns when those of its body do. -/
theorem Returns.intro {c : C} {cs : List C} (hpresent : present c = true)
    (hcs : callees c = some cs) (h : ∀ b ∈ cs, Returns present callees b) :
    Returns present callees c := by
  have hstep : Step present callees [c] (cs ++ []) := .enter [] hpresent hcs
  exact (ReflTransGen.single hstep).trans (pop_all h [])

theorem not_onlyPresent_of_absent {c : C} (h : present c = false) :
    ¬ OnlyPresent present callees c := by
  intro honly
  have hc := honly [c] .refl c rfl
  rw [h] at hc
  cases hc

/-- A call faults when one of its body does and those before it return. -/
theorem not_onlyPresent_of_callee {c b : C} {before after : List C} (hpresent : present c = true)
    (hcs : callees c = some (before ++ b :: after))
    (hbefore : ∀ a ∈ before, Returns present callees a) (hb : ¬ OnlyPresent present callees b) :
    ¬ OnlyPresent present callees c := by
  intro honly
  apply hb
  intro stack hreach top htop
  have hstep : Step present callees [c] (before ++ b :: after ++ []) := .enter [] hpresent hcs
  rw [List.append_nil] at hstep
  have hreach' := ((ReflTransGen.single hstep).trans (pop_all hbefore _)).trans
    (reaches_append hreach after)
  refine honly _ hreach' top ?_
  cases stack with
  | nil => cases htop
  | cons c' stack => exact htop

theorem step_rightUnique : Relator.RightUnique (Step present callees) := by
  intro stack stack₁ stack₂ h₁ h₂
  cases h₁ with
  | enter rest _ hcs₁ =>
    cases h₂ with
    | enter _ _ hcs₂ => rw [Option.some.inj (hcs₁.symm.trans hcs₂)]

/-- A call that comes back does not fault. -/
theorem Returns.onlyPresent {c : C} (h : Returns present callees c) :
    OnlyPresent present callees c := by
  intro stack hreach top htop
  obtain ⟨rest, rfl⟩ : ∃ rest, stack = top :: rest := List.head?_eq_some_iff.mp htop
  rcases ReflTransGen.total_of_right_unique step_rightUnique hreach h with hend | hend
  · rcases hend.cases_head with heq | ⟨_, hstep, -⟩
    · cases heq
    · cases hstep with
      | enter _ hpresent _ => exact hpresent
  · rcases hend.cases_head with heq | ⟨_, hstep, -⟩
    · cases heq
    · cases hstep

/-- The first element of which `P` does not hold. -/
private theorem exists_first_not {P : C → Prop} {cs : List C} (h : ¬ ∀ c ∈ cs, P c) :
    ∃ before b after, cs = before ++ b :: after ∧ (∀ a ∈ before, P a) ∧ ¬ P b := by
  induction cs with
  | nil => exact absurd (fun _ hc => nomatch hc) h
  | cons c cs ih =>
    by_cases hc : P c
    · rw [List.forall_mem_cons, not_and] at h
      obtain ⟨before, b, after, rfl, hbefore, hb⟩ := ih (h hc)
      exact ⟨c :: before, b, after, rfl, List.forall_mem_cons.mpr ⟨hc, hbefore⟩, hb⟩
    · exact ⟨[], c, cs, rfl, fun _ ha => (nomatch ha), hc⟩

section

variable {c : C} {cs : List C} (hcs : callees c = some cs)
  (h : ∀ b ∈ cs, OnlyPresent present callees b → Returns present callees b)

include hcs h

/-- Where the calls of a body return unless they fault, the call faults exactly when it is absent
or one of them faults. -/
theorem onlyPresent_iff : OnlyPresent present callees c ↔
    present c = true ∧ ∀ b ∈ cs, OnlyPresent present callees b := by
  constructor
  · intro hc
    have hpresent : present c = true := hc [c] .refl c rfl
    refine ⟨hpresent, Classical.byContradiction fun hnot => ?_⟩
    obtain ⟨before, b, after, rfl, hbefore, hb⟩ := exists_first_not hnot
    refine not_onlyPresent_of_callee hpresent hcs (fun a ha => ?_) hb hc
    exact h a (List.mem_append_left _ ha) (hbefore a ha)
  · rintro ⟨hpresent, hall⟩
    exact (Returns.intro hpresent hcs fun b hb => h b hb (hall b hb)).onlyPresent

theorem returns_of_onlyPresent (hc : OnlyPresent present callees c) :
    Returns present callees c := by
  obtain ⟨hpresent, hall⟩ := (onlyPresent_iff hcs h).mp hc
  exact .intro hpresent hcs fun b hb => h b hb (hall b hb)

end

/-- Calls that are present and lead only to such calls never fault: all calls on the stack are of
this kind. -/
theorem onlyPresent_of_closed {Good : C → Prop} (hpresent : ∀ c, Good c → present c = true)
    (hclosed : ∀ c cs, Good c → callees c = some cs → ∀ b ∈ cs, Good b) {c : C} (hc : Good c) :
    OnlyPresent present callees c := by
  intro stack hreach
  have hgood : ∀ b ∈ stack, Good b := by
    induction hreach with
    | refl => exact fun b hb => List.mem_singleton.mp hb ▸ hc
    | tail _ hstep ih =>
      cases hstep with
      | enter rest _ hcs =>
        obtain ⟨htop, hrest⟩ := List.forall_mem_cons.mp ih
        exact List.forall_mem_append.mpr ⟨hclosed _ _ htop hcs, hrest⟩
  intro top htop
  exact hpresent top (hgood top (List.mem_of_mem_head? htop))

end SqlOptimizer.Logic.CallStacks
