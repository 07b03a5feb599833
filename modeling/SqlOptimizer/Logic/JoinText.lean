import Mathlib.Data.List.Basic

/-!
FROM clauses as text without parentheses. A clause is a tree of cross products and joins over
items; its text is a list of tokens in which every item and every condition is one token. The
reader lets a join bind tighter than a comma, gives a condition to the nearest open join, and
takes a name only for the item right before it.
-/

set_option autoImplicit false
set_option relaxedAutoImplicit false

namespace SqlOptimizer.Logic.JoinText

/-- A FROM clause over items `α`, with join operators `κ`, conditions `γ` and names `ρ` that are
given to the result of a join. -/
inductive Source (α κ γ ρ : Type) where
  | item (a : α)
  | cross (l r : Source α κ γ ρ) (on : Option γ) (names : List ρ)
  | join (k : κ) (l r : Source α κ γ ρ) (on : Option γ) (names : List ρ)

/-- An entry of a comma list; a cross product is one when it has a condition or a name. -/
inductive Entry (α κ γ ρ : Type) where
  | item (a : α)
  | cross (l r : List (Entry α κ γ ρ)) (on : Option γ) (names : List ρ)
  | join (k : κ) (l r : List (Entry α κ γ ρ)) (on : Option γ) (names : List ρ)

inductive Token (α κ γ ρ : Type) where
  | item (a : α)
  | comma
  | join (k : κ)
  | on (c : γ)
  | name (x : ρ)

variable {α κ γ ρ : Type}

namespace Source

/-- The cross product is nothing but its inputs side by side. -/
def isBare (on : Option γ) (names : List ρ) : Bool := on.isNone && names.isEmpty

/-- What a clause means: cross products are lists, whatever their nesting. -/
def denotes : Source α κ γ ρ → List (Entry α κ γ ρ)
  | item a => [.item a]
  | cross l r on names =>
      if isBare on names then l.denotes ++ r.denotes else [.cross l.denotes r.denotes on names]
  | join k l r on names => [.join k l.denotes r.denotes on names]

/-- The text: a comma stands for a cross product, and a join is followed by its condition and
its names. -/
def tokens : Source α κ γ ρ → List (Token α κ γ ρ)
  | item a => [.item a]
  | cross l r _ _ => l.tokens ++ .comma :: r.tokens
  | join k l r on names =>
      l.tokens ++ .join k :: (r.tokens ++ (on.toList.map .on ++ names.map .name))

/-- The clause is a cross product. -/
def isCross : Source α κ γ ρ → Bool
  | cross _ _ _ _ => true
  | _ => false

/-- The text says all: no cross product has a condition or a name, every join has a condition
and no name, and none has a cross product as an input. -/
def Readable : Source α κ γ ρ → Prop
  | item _ => True
  | cross l r on names => isBare on names = true ∧ l.Readable ∧ r.Readable
  | join _ l r on names =>
      (on.isSome = true ∧ names = []) ∧ (l.isCross = false ∧ r.isCross = false) ∧
        l.Readable ∧ r.Readable

/-- Every join has a condition. -/
def HasConditions : Source α κ γ ρ → Prop
  | item _ => True
  | cross l r _ _ => l.HasConditions ∧ r.HasConditions
  | join _ l r on _ => on.isSome = true ∧ l.HasConditions ∧ r.HasConditions

end Source

/-- The state of the reader: the entries before the last comma, the open joins with their left
inputs, innermost first, and the entry that was read last. -/
structure Reader (α κ γ ρ : Type) where
  before : List (Entry α κ γ ρ)
  opened : List (κ × Entry α κ γ ρ)
  last : Option (Entry α κ γ ρ)

section

-- what an item is with a name, when it can take one
variable (rename : ρ → α → Option α)

/-- One token is read. -/
def step (s : Reader α κ γ ρ) : Token α κ γ ρ → Option (Reader α κ γ ρ)
  | .item a => if s.last.isNone then some { s with last := some (.item a) } else none
  | .join k => s.last.map fun e => { s with opened := (k, e) :: s.opened, last := none }
  | .on c =>
      match s.opened, s.last with
      | (k, l) :: opened, some r =>
          some { s with opened := opened, last := some (.join k [l] [r] (some c) []) }
      | _, _ => none
  | .comma =>
      if s.opened.isEmpty then s.last.map fun e => ⟨s.before ++ [e], [], none⟩ else none
  | .name x =>
      match s.last with
      | some (.item a) => (rename x a).map fun a => { s with last := some (.item a) }
      | _ => none

/-- The entries that a text is read as. -/
def read (ts : List (Token α κ γ ρ)) : Option (List (Entry α κ γ ρ)) :=
  (ts.foldlM (step rename) ⟨[], [], none⟩).bind fun s =>
    if s.opened.isEmpty then s.last.map fun e => s.before ++ [e] else none

end

def Token.isOn : Token α κ γ ρ → Bool
  | on _ => true
  | _ => false

def Token.isJoin : Token α κ γ ρ → Bool
  | join _ => true
  | _ => false

/-- The joins without a condition. -/
private def missing : Source α κ γ ρ → Nat
  | .item _ => 0
  | .cross l r _ _ => missing l + missing r
  | .join _ l r on _ => missing l + missing r + if on.isSome then 0 else 1

private theorem hasConditions_of_missing {s : Source α κ γ ρ} (h : missing s = 0) :
    s.HasConditions := by
  induction s with
  | item a => trivial
  | cross l r on names ihl ihr =>
    rw [missing] at h
    exact ⟨ihl (by omega), ihr (by omega)⟩
  | join k l r on names ihl ihr =>
    rw [missing] at h
    cases hon : on.isSome with
    | true => exact ⟨hon, ihl (by omega), ihr (by omega)⟩
    | false =>
      rw [hon] at h
      simp at h

private theorem countP_tokens (s : Source α κ γ ρ) :
    s.tokens.countP Token.isOn + missing s = s.tokens.countP Token.isJoin := by
  have hnames (p : Token α κ γ ρ → Bool) (names : List ρ) (hp : ∀ x, p (.name x) = false) :
      (names.map Token.name).countP p = 0 := by
    rw [List.countP_eq_zero]
    simp [hp]
  have hon (names : List ρ) := hnames Token.isOn names fun _ => rfl
  have hjoin (names : List ρ) := hnames Token.isJoin names fun _ => rfl
  induction s with
  | item a => rfl
  | cross l r on names ihl ihr =>
    simp only [Source.tokens, missing, List.countP_append, List.countP_cons, Token.isOn,
      Token.isJoin, Bool.false_eq_true, if_false]
    omega
  | join k l r on names ihl ihr =>
    simp only [Source.tokens, missing, List.countP_append, List.countP_cons, hon, hjoin]
    cases on with
    | none =>
      simp only [Option.toList_none, List.map_nil, List.countP_nil, Token.isOn, Token.isJoin,
        Option.isSome_none, Bool.false_eq_true, if_false, if_true]
      omega
    | some c =>
      simp only [Option.toList_some, List.map_cons, List.map_nil, List.countP_cons,
        List.countP_nil, Token.isOn, Token.isJoin, Option.isSome_some, Bool.false_eq_true, if_false,
        if_true]
      omega

section

variable {rename : ρ → α → Option α}

private theorem step_opened {s s' : Reader α κ γ ρ} {t : Token α κ γ ρ}
    (h : step rename s t = some s') :
    s'.opened.length + [t].countP Token.isOn = s.opened.length + [t].countP Token.isJoin := by
  cases t with
  | item a =>
    rw [step, Option.ite_none_right_eq_some] at h
    obtain ⟨-, h⟩ := h
    cases h
    rfl
  | comma =>
    rw [step, Option.ite_none_right_eq_some, List.isEmpty_iff] at h
    obtain ⟨hopened, h⟩ := h
    obtain ⟨e, -, rfl⟩ := Option.map_eq_some_iff.mp h
    rw [hopened]
    rfl
  | join k =>
    obtain ⟨e, -, rfl⟩ := Option.map_eq_some_iff.mp h
    simp [Token.isOn, Token.isJoin]
  | on c =>
    rw [step] at h
    split at h
    · next hopened hlast =>
      cases h
      simp [hopened, Token.isOn, Token.isJoin]
    · cases h
  | name x =>
    rw [step] at h
    split at h
    · obtain ⟨a, -, rfl⟩ := Option.map_eq_some_iff.mp h
      rfl
    · cases h

/-- Every condition closes a join. -/
private theorem foldlM_opened {ts : List (Token α κ γ ρ)} {s s' : Reader α κ γ ρ}
    (h : ts.foldlM (step rename) s = some s') :
    s'.opened.length + ts.countP Token.isOn = s.opened.length + ts.countP Token.isJoin := by
  induction ts generalizing s with
  | nil =>
    cases h
    rfl
  | cons t ts ih =>
    rw [List.foldlM_cons, Option.bind_eq_bind, Option.bind_eq_some_iff] at h
    obtain ⟨s₁, hstep, h⟩ := h
    have hrest := ih h
    have hfirst := step_opened hstep
    rw [List.countP_cons, List.countP_nil, Nat.zero_add] at hfirst
    rw [List.countP_cons, List.countP_cons]
    simp only [List.countP_cons, List.countP_nil, Nat.zero_add] at hfirst
    omega

/-- A text that is read to its end has a condition for each of its joins. -/
private theorem hasConditions_of_read {s : Source α κ γ ρ} {es : List (Entry α κ γ ρ)}
    (h : read rename s.tokens = some es) : s.HasConditions := by
  rw [read, Option.bind_eq_some_iff] at h
  obtain ⟨s', hfold, h⟩ := h
  rw [Option.ite_none_right_eq_some, List.isEmpty_iff] at h
  have hopened := foldlM_opened hfold
  have hcount := countP_tokens s
  rw [h.1] at hopened
  apply hasConditions_of_missing
  simp only [List.length_nil] at hopened
  omega

/-- The text of a readable clause is read as what the clause means. -/
private theorem foldlM_of_readable {s : Source α κ γ ρ} (h : s.Readable)
    (before : List (Entry α κ γ ρ)) (opened : List (κ × Entry α κ γ ρ))
    (hopened : s.isCross = true → opened = []) :
    ∃ es e, s.denotes = es ++ [e] ∧ (s.isCross = false → es = []) ∧
      s.tokens.foldlM (step rename) ⟨before, opened, none⟩ =
        some ⟨before ++ es, opened, some e⟩ := by
  induction s generalizing before opened with
  | item a => exact ⟨[], _, rfl, fun _ => rfl, by simp [Source.tokens, step]⟩
  | cross l r on names ihl ihr =>
    obtain ⟨hbare, hl, hr⟩ := h
    obtain rfl := hopened rfl
    obtain ⟨xs, x, hx, -, hfoldl⟩ := ihl hl before [] fun _ => rfl
    obtain ⟨ys, y, hy, -, hfoldr⟩ := ihr hr (before ++ (xs ++ [x])) [] fun _ => rfl
    refine ⟨xs ++ [x] ++ ys, y, ?_, fun h => Bool.noConfusion h, ?_⟩
    · rw [Source.denotes, if_pos hbare, hx, hy, List.append_assoc (xs ++ [x])]
    · simp only [Source.tokens, List.foldlM_append, hfoldl, List.foldlM_cons, step,
        Option.bind_eq_bind, Option.bind_some, List.isEmpty_nil, if_true, Option.map_some,
        List.append_assoc] at hfoldr ⊢
      exact hfoldr
  | join k l r on names ihl ihr =>
    obtain ⟨⟨hon, rfl⟩, ⟨hlc, hrc⟩, hl, hr⟩ := h
    obtain ⟨c, rfl⟩ := Option.isSome_iff_exists.mp hon
    obtain ⟨xs, x, hx, hxs, hfoldl⟩ := ihl hl before opened
      (fun h => absurd (hlc.symm.trans h) Bool.false_ne_true)
    obtain ⟨ys, y, hy, hys, hfoldr⟩ := ihr hr before ((k, x) :: opened)
      (fun h => absurd (hrc.symm.trans h) Bool.false_ne_true)
    obtain rfl := hxs hlc
    obtain rfl := hys hrc
    refine ⟨[], .join k [x] [y] (some c) [], ?_, fun _ => rfl, ?_⟩
    · rw [Source.denotes, hx, hy]
      rfl
    · rw [List.append_nil] at hfoldl hfoldr
      simp [Source.tokens, List.foldlM_append, hfoldl, List.foldlM_cons, step, hfoldr]

/-- What a text is read as, whatever its clause means: a join gets the last entry on its left
only. -/
private def readAs : Source α κ γ ρ → List (Entry α κ γ ρ)
  | .item a => [.item a]
  | .cross l r _ _ => readAs l ++ readAs r
  | .join k l r on _ =>
      (readAs l).dropLast ++ [.join k (readAs l).getLast?.toList (readAs r) on []]

/-- No right input of a join is a cross product. -/
private def RightClosed : Source α κ γ ρ → Prop
  | .item _ => True
  | .cross l r _ _ => RightClosed l ∧ RightClosed r
  | .join _ l r _ _ => r.isCross = false ∧ RightClosed l ∧ RightClosed r

/-- A text that can be read has no comma inside a join that is still open. -/
private theorem reads_as {s : Source α κ γ ρ} (h : s.HasConditions)
    {before : List (Entry α κ γ ρ)} {opened : List (κ × Entry α κ γ ρ)} {s' : Reader α κ γ ρ}
    (hfold : s.tokens.foldlM (step rename) ⟨before, opened, none⟩ = some s') :
    RightClosed s ∧ (opened ≠ [] → s.isCross = false) ∧
      ∃ es e, readAs s = es ++ [e] ∧ (opened ≠ [] → es = []) ∧
        s' = ⟨before ++ es, opened, some e⟩ := by
  induction s generalizing before opened s' with
  | item a =>
    cases hfold
    exact ⟨trivial, fun _ => rfl, [], _, rfl, fun _ => rfl, by simp⟩
  | cross l r on names ihl ihr =>
    obtain ⟨hl, hr⟩ := h
    rw [Source.tokens, List.foldlM_append, Option.bind_eq_bind, Option.bind_eq_some_iff] at hfold
    obtain ⟨s₁, hfoldl, hfold⟩ := hfold
    rw [List.foldlM_cons, Option.bind_eq_bind, Option.bind_eq_some_iff] at hfold
    obtain ⟨s₂, hcomma, hfoldr⟩ := hfold
    obtain ⟨hcl, -, xs, x, hx, -, rfl⟩ := ihl hl hfoldl
    rw [step, Option.ite_none_right_eq_some, List.isEmpty_iff] at hcomma
    obtain ⟨hopened, hcomma⟩ := hcomma
    simp only at hopened
    subst hopened
    cases hcomma
    obtain ⟨hcr, -, ys, y, hy, -, rfl⟩ := ihr hr hfoldr
    refine ⟨⟨hcl, hcr⟩, fun h => absurd rfl h, xs ++ [x] ++ ys, y, ?_, fun h => absurd rfl h, ?_⟩
    · rw [readAs, hx, hy, List.append_assoc (xs ++ [x])]
    · simp [List.append_assoc]
  | join k l r on names ihl ihr =>
    obtain ⟨hon, hl, hr⟩ := h
    obtain ⟨c, rfl⟩ := Option.isSome_iff_exists.mp hon
    rw [Source.tokens, List.foldlM_append, Option.bind_eq_bind, Option.bind_eq_some_iff] at hfold
    obtain ⟨s₁, hfoldl, hfold⟩ := hfold
    obtain ⟨hcl, -, xs, x, hx, hxs, rfl⟩ := ihl hl hfoldl
    rw [List.foldlM_cons, Option.bind_eq_bind, Option.bind_eq_some_iff] at hfold
    obtain ⟨s₂, hjoin, hfold⟩ := hfold
    cases hjoin
    rw [List.foldlM_append, Option.bind_eq_bind, Option.bind_eq_some_iff] at hfold
    obtain ⟨s₃, hfoldr, hfold⟩ := hfold
    obtain ⟨hcr, hr, ys, y, hy, hys, rfl⟩ := ihr hr hfoldr
    obtain rfl := hys (List.cons_ne_nil _ _)
    simp only [Option.toList_some, List.map_cons, List.map_nil, List.cons_append, List.nil_append,
      List.foldlM_cons, step, Option.bind_eq_bind, Option.bind_some] at hfold
    -- a name cannot follow the condition
    cases names with
    | nil =>
      cases hfold
      refine ⟨⟨hr (List.cons_ne_nil _ _), hcl, hcr⟩, fun _ => rfl, xs, _, ?_, hxs, by simp; rfl⟩
      rw [readAs, hx, hy]
      simp
    | cons n names => cases hfold

private theorem readAs_ne_nil (s : Source α κ γ ρ) : readAs s ≠ [] := by
  induction s with
  | item a => simp [readAs]
  | cross l r on names ihl ihr => simp [readAs, ihl]
  | join k l r on names ihl ihr => simp [readAs]

private theorem denotes_ne_nil (s : Source α κ γ ρ) : s.denotes ≠ [] := by
  induction s with
  | item a => simp [Source.denotes]
  | cross l r on names ihl ihr =>
    rw [Source.denotes]
    split <;> simp [ihl]
  | join k l r on names ihl ihr => simp [Source.denotes]

private theorem length_denotes_le (s : Source α κ γ ρ) :
    s.denotes.length ≤ (readAs s).length := by
  induction s with
  | item a => exact Nat.le_refl 1
  | cross l r on names ihl ihr =>
    rw [Source.denotes, readAs, List.length_append]
    split
    · rw [List.length_append]
      omega
    · have hne := List.length_pos_iff.mpr (readAs_ne_nil l)
      rw [List.length_singleton]
      omega
  | join k l r on names ihl ihr =>
    rw [Source.denotes, readAs, List.length_append, List.length_singleton, List.length_singleton]
    omega

/-- Only a readable clause is read as what it means. -/
private theorem readable_of_readAs {s : Source α κ γ ρ} (hc : s.HasConditions)
    (hr : RightClosed s) (h : readAs s = s.denotes) : s.Readable := by
  have hcross {s : Source α κ γ ρ} (hs : s.Readable) {e : Entry α κ γ ρ}
      (he : s.denotes = [e]) : s.isCross = false := by
    cases s with
    | cross l r on names =>
      have hl := List.length_pos_iff.mpr (denotes_ne_nil l)
      have hr := List.length_pos_iff.mpr (denotes_ne_nil r)
      have hlen := congrArg List.length he
      rw [Source.denotes, if_pos hs.1, List.length_append, List.length_singleton] at hlen
      omega
    | _ => rfl
  induction s with
  | item a => trivial
  | cross l r on names ihl ihr =>
    have hposl := List.length_pos_iff.mpr (readAs_ne_nil l)
    have hposr := List.length_pos_iff.mpr (readAs_ne_nil r)
    rw [Source.denotes, readAs] at h
    split at h
    · next hbare =>
      have hlen := congrArg List.length h
      rw [List.length_append, List.length_append] at hlen
      have hl := length_denotes_le l
      have hr' := length_denotes_le r
      obtain ⟨hl, hr'⟩ := List.append_inj h (by omega)
      exact ⟨hbare, ihl hc.1 hr.1 hl, ihr hc.2 hr.2 hr'⟩
    · have hlen := congrArg List.length h
      rw [List.length_append, List.length_singleton] at hlen
      omega
  | join k l r on names ihl ihr =>
    obtain ⟨hon, hcl, hcr⟩ := hc
    obtain ⟨hright, hrl, hrr⟩ := hr
    rw [Source.denotes, readAs] at h
    obtain ⟨hfront, hlast⟩ := List.append_eq_singleton_iff.mp h |>.resolve_right (by simp)
    simp only [List.cons.injEq, Entry.join.injEq, true_and, and_true] at hlast
    obtain ⟨hleft, hr', hnames⟩ := hlast
    obtain ⟨xs, x, hx⟩ := (List.eq_nil_or_concat (readAs l)).resolve_left (readAs_ne_nil l)
    rw [List.concat_eq_append] at hx
    rw [hx, List.dropLast_concat] at hfront
    rw [hfront, List.nil_append] at hx
    rw [hx, List.getLast?_singleton, Option.toList_some] at hleft
    have hl : l.Readable := ihl hcl hrl (hx.trans hleft)
    exact ⟨⟨hon, hnames.symm⟩, ⟨hcross hl hleft.symm, hright⟩, hl, ihr hcr hrr hr'⟩

/-- A text without parentheses is read as what its clause means if and only if the clause is
readable. -/
theorem read_tokens_iff (s : Source α κ γ ρ) :
    read rename s.tokens = some s.denotes ↔ s.Readable := by
  constructor
  · intro h
    have hc := hasConditions_of_read h
    rw [read, Option.bind_eq_some_iff] at h
    obtain ⟨s', hfold, h⟩ := h
    obtain ⟨hclosed, -, es, e, hread, -, rfl⟩ := reads_as hc hfold
    have hes : es ++ [e] = s.denotes := by simpa using h
    exact readable_of_readAs hc hclosed (hread.trans hes)
  · intro h
    obtain ⟨es, e, hes, -, hfold⟩ := foldlM_of_readable h [] [] fun _ => rfl
    rw [read, hfold, hes]
    rfl

end

end SqlOptimizer.Logic.JoinText
