import Mathlib.Data.List.Dedup

/-!
Joins and groupings of lists as nested loops. A condition that only looks at one side
of a join can be checked before the join, as long as that side is not padded.
-/

set_option autoImplicit false
set_option relaxedAutoImplicit false

namespace SqlOptimizer.Logic.NestedLoops

variable {α β γ κ : Type}

/-- The combinations of one left element that satisfy the join condition. -/
def matching (combine : α → β → γ) (on : γ → Bool) (r : List β) (a : α) : List γ :=
  (r.map (combine a)).filter on

def innerJoin (combine : α → β → γ) (on : γ → Bool) (l : List α) (r : List β) : List γ :=
  l.flatMap (matching combine on r)

/-- A left element without a match is padded. -/
def leftJoin (combine : α → β → γ) (pad : α → γ) (on : γ → Bool) (l : List α) (r : List β) :
    List γ :=
  l.flatMap fun a =>
    if (matching combine on r a).isEmpty then [pad a] else matching combine on r a

/-- The right elements without a match. -/
def unmatched (combine : α → β → γ) (on : γ → Bool) (l : List α) (r : List β) : List β :=
  r.filter fun b => !l.any fun a => on (combine a b)

/-- The join of every left element with its own right side. -/
def dependentJoin (combine : α → β → γ) (on : γ → Bool) (l : List α) (r : α → List β) : List γ :=
  l.flatMap fun a => matching combine on (r a) a

/-- The classes of the elements with the same key. -/
def groups [DecidableEq κ] (key : α → κ) (l : List α) : List (List α) :=
  (l.map key).dedup.map fun k => l.filter fun a => key a = k

section

variable {combine : α → β → γ} {pad : α → γ} {on p : γ → Bool} {q : α → Bool}

theorem mem_matching {r : List β} {a : α} {c : γ} :
    c ∈ matching combine on r a ↔ ∃ b ∈ r, c = combine a b ∧ on c = true := by
  simp only [matching, List.mem_filter, List.mem_map]
  constructor
  · rintro ⟨⟨b, hb, rfl⟩, hon⟩
    exact ⟨b, hb, rfl, hon⟩
  · rintro ⟨b, hb, rfl, hon⟩
    exact ⟨⟨b, hb, rfl⟩, hon⟩

theorem isEmpty_matching {r : List β} {a : α} :
    (matching combine on r a).isEmpty = true ↔ ∀ b ∈ r, on (combine a b) = false := by
  simp [matching]

/-- A row of an inner join is a combination that satisfies the condition. -/
theorem mem_innerJoin {l : List α} {r : List β} {c : γ} :
    c ∈ innerJoin combine on l r ↔ ∃ a ∈ l, ∃ b ∈ r, c = combine a b ∧ on c = true := by
  simp only [innerJoin, List.mem_flatMap, mem_matching]

/-- A row of a left join is such a combination, or a padded element without any. -/
theorem mem_leftJoin {l : List α} {r : List β} {c : γ} :
    c ∈ leftJoin combine pad on l r ↔ ∃ a ∈ l, (∃ b ∈ r, c = combine a b ∧ on c = true) ∨
      c = pad a ∧ ∀ b ∈ r, on (combine a b) = false := by
  simp only [leftJoin, List.mem_flatMap]
  refine exists_congr fun a => and_congr_right fun _ => ?_
  split
  · next hempty =>
    rw [List.mem_singleton]
    rw [isEmpty_matching] at hempty
    constructor
    · exact fun hc => .inr ⟨hc, hempty⟩
    · rintro (⟨b, hb, rfl, hon⟩ | ⟨hc, -⟩)
      · rw [hempty b hb] at hon
        cases hon
      · exact hc
  · next hempty =>
    rw [mem_matching]
    rw [isEmpty_matching] at hempty
    exact ⟨.inl, fun h => h.resolve_right fun hpad => hempty hpad.2⟩

/-- Conditions on a match can be checked in any order. -/
theorem filter_matching (r : List β) (a : α) :
    (matching combine on r a).filter p = matching combine (fun c => on c && p c) r a := by
  simp only [matching, List.filter_filter, Bool.and_comm]

theorem filter_innerJoin (l : List α) (r : List β) :
    (innerJoin combine on l r).filter p = innerJoin combine (fun c => on c && p c) l r := by
  simp only [innerJoin, List.filter_flatMap, filter_matching]

private theorem flatMap_filter_eq {f g : α → List γ} {l : List α}
    (ht : ∀ a ∈ l, q a = true → f a = g a) (hf : ∀ a ∈ l, q a = false → f a = []) :
    l.flatMap f = (l.filter q).flatMap g := by
  induction l with
  | nil => rfl
  | cons a l ih =>
    rw [List.forall_mem_cons] at ht hf
    rw [List.flatMap_cons, ih ht.2 hf.2]
    cases hq : q a with
    | true => rw [List.filter_cons_of_pos hq, List.flatMap_cons, ht.1 hq]
    | false =>
      have hneg : ¬ q a = true := by simp [hq]
      rw [List.filter_cons_of_neg hneg, hf.1 hq, List.nil_append]

private theorem filter_matching_left {r : List β} {a : α}
    (h : ∀ b ∈ r, p (combine a b) = q a) :
    (matching combine on r a).filter p = if q a then matching combine on r a else [] := by
  have hmem : ∀ c ∈ matching combine on r a, p c = q a := by
    intro c hc
    obtain ⟨b, hb, rfl⟩ := List.mem_map.mp (List.mem_filter.mp hc).1
    exact h b hb
  cases hq : q a with
  | true => simpa [hq] using hmem
  | false => simpa [hq] using hmem

/-- A condition on the left side of a join. -/
theorem filter_innerJoin_left {l : List α} {r : List β}
    (h : ∀ a ∈ l, ∀ b ∈ r, p (combine a b) = q a) :
    (innerJoin combine on l r).filter p = innerJoin combine on (l.filter q) r := by
  simp only [innerJoin, List.filter_flatMap]
  refine flatMap_filter_eq (fun a ha hq => ?_) (fun a ha hq => ?_)
  · simp [filter_matching_left (h a ha), hq]
  · simp [filter_matching_left (h a ha), hq]

/-- A condition on the right side of a join. -/
theorem filter_innerJoin_right {q : β → Bool} {l : List α} {r : List β}
    (h : ∀ a ∈ l, ∀ b ∈ r, p (combine a b) = q b) :
    (innerJoin combine on l r).filter p = innerJoin combine on l (r.filter q) := by
  simp only [innerJoin, List.filter_flatMap]
  refine List.flatMap_congr fun a ha => ?_
  simp only [Function.comp_apply, matching, List.filter_filter, List.filter_map]
  rw [List.filter_congr fun b hb => ?_]
  simp [h a ha b hb, Bool.and_comm]

/-- A condition on the preserved side of a left join. -/
theorem filter_leftJoin_left {l : List α} {r : List β}
    (h : ∀ a ∈ l, ∀ b ∈ r, p (combine a b) = q a) (hpad : ∀ a ∈ l, p (pad a) = q a) :
    (leftJoin combine pad on l r).filter p = leftJoin combine pad on (l.filter q) r := by
  simp only [leftJoin, List.filter_flatMap]
  refine flatMap_filter_eq (fun a ha hq => ?_) (fun a ha hq => ?_)
  · by_cases he : (matching combine on r a).isEmpty
    · simp [he, hpad a ha, hq]
    · simp [he, filter_matching_left (h a ha), hq]
  · by_cases he : (matching combine on r a).isEmpty
    · simp [he, hpad a ha, hq]
    · simp [he, filter_matching_left (h a ha), hq]

end

end SqlOptimizer.Logic.NestedLoops
