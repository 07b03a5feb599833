import Mathlib.Data.List.Basic
import SqlOptimizer.Logic.ThreeValued

/-!
Boolean conditions written as text. A condition is a tree over atoms; its text is
a list of tokens in which every atom is one token, and a reader recovers the tree
with SQL's precedence: NOT binds tighter than AND, AND tighter than OR.
-/

set_option autoImplicit false
set_option relaxedAutoImplicit false

namespace SqlOptimizer.Logic.BoolText

open ThreeValued (Truth)
open ThreeValued.Truth (conj disj)

/-- A boolean condition over atoms of type `α`. -/
inductive Cond (α : Type) where
  | lit (t : Truth)
  | atom (a : α)
  | not (c : Cond α)
  | and (c d : Cond α)
  | or (c d : Cond α)
  deriving DecidableEq, Repr

/-- A piece of the text of a condition. `negAtom a` is an atom with an infix
negation, such as `x not in (..)`. -/
inductive Tok (α : Type) where
  | and
  | or
  | not
  | lpar
  | rpar
  | atom (a : α)
  | negAtom (a : α)
  deriving DecidableEq, Repr

variable {α β : Type}

/-- The token with its atom replaced. -/
def Tok.map (f : α → β) : Tok α → Tok β
  | .and => .and
  | .or => .or
  | .not => .not
  | .lpar => .lpar
  | .rpar => .rpar
  | .atom a => .atom (f a)
  | .negAtom a => .negAtom (f a)

namespace Cond

/-- Truth value under a valuation of the atoms. -/
def eval (v : α → Truth) : Cond α → Truth
  | lit t => t
  | atom a => v a
  | not c => (c.eval v).not
  | and c d => c.eval v ⊓ d.eval v
  | or c d => c.eval v ⊔ d.eval v

/-- The atoms in reading order, one entry for each occurrence. -/
def atoms : Cond α → List α
  | lit _ => []
  | atom a => [a]
  | not c => c.atoms
  | and c d => c.atoms ++ d.atoms
  | or c d => c.atoms ++ d.atoms

/-- Truth value when the occurrences of atoms get the listed truth values, in
reading order. -/
def evalLeaves : Cond α → List Truth → Truth
  | lit t, _ => t
  | atom _, ts => ts.headD .unknown
  | not c, ts => (c.evalLeaves ts).not
  | and c d, ts =>
      c.evalLeaves (ts.take c.atoms.length) ⊓ d.evalLeaves (ts.drop c.atoms.length)
  | or c d, ts =>
      c.evalLeaves (ts.take c.atoms.length) ⊔ d.evalLeaves (ts.drop c.atoms.length)

/-- A valuation of the atoms is a special assignment to the occurrences. -/
theorem eval_eq_evalLeaves (v : α → Truth) (c : Cond α) :
    c.eval v = c.evalLeaves (c.atoms.map v) := by
  induction c with
  | lit t => rfl
  | atom a => rfl
  | not c ih => simp [eval, evalLeaves, atoms, ih]
  | and c d ihc ihd => simp [eval, evalLeaves, atoms, ihc, ihd]
  | or c d ihc ihd => simp [eval, evalLeaves, atoms, ihc, ihd]

/-- Two conditions have the same atoms in the same order and the same truth value
however truth values are assigned to the occurrences of the atoms. -/
def Agree (c d : Cond α) : Prop :=
  c.atoms = d.atoms ∧ ∀ ts, c.evalLeaves ts = d.evalLeaves ts

theorem Agree.eval {c d : Cond α} (h : Agree c d) (v : α → Truth) : c.eval v = d.eval v := by
  rw [eval_eq_evalLeaves, eval_eq_evalLeaves, h.1, h.2]

/-- The conjunction of a list of conditions, nested to the right. -/
def all : List (Cond α) → Cond α
  | [] => lit ⊤
  | [c] => c
  | c :: d :: cs => and c (all (d :: cs))

/-- The disjunction of a list of conditions, nested to the right. -/
def any : List (Cond α) → Cond α
  | [] => lit ⊥
  | [c] => c
  | c :: d :: cs => or c (any (d :: cs))

@[simp] theorem eval_all (v : α → Truth) (cs : List (Cond α)) :
    (all cs).eval v = conj (cs.map (eval v)) := by
  induction cs with
  | nil => rfl
  | cons c cs ih =>
    cases cs with
    | nil => simp [all]
    | cons d cs => simp [all, eval, ih]

@[simp] theorem eval_any (v : α → Truth) (cs : List (Cond α)) :
    (any cs).eval v = disj (cs.map (eval v)) := by
  induction cs with
  | nil => rfl
  | cons c cs ih =>
    cases cs with
    | nil => simp [any]
    | cons d cs => simp [any, eval, ih]

/-- No truth constant occurs in the condition. -/
def IsPure : Cond α → Prop
  | lit _ => False
  | atom _ => True
  | not c => c.IsPure
  | and c d => c.IsPure ∧ d.IsPure
  | or c d => c.IsPure ∧ d.IsPure

/-- The condition with every negation directly above an atom of the class `p`
left out. -/
def eraseNot (p : α → Bool) : Cond α → Cond α
  | lit t => lit t
  | atom a => atom a
  | not (atom a) => if p a then atom a else not (atom a)
  | not c => not (c.eraseNot p)
  | and c d => and (c.eraseNot p) (d.eraseNot p)
  | or c d => or (c.eraseNot p) (d.eraseNot p)

/-- Some negation stands directly above an atom of the class `p`. -/
def hasNotAbove (p : α → Bool) : Cond α → Bool
  | lit _ => false
  | atom _ => false
  | not (atom a) => p a
  | not c => c.hasNotAbove p
  | and c d => c.hasNotAbove p || d.hasNotAbove p
  | or c d => c.hasNotAbove p || d.hasNotAbove p

@[simp] theorem atoms_eraseNot (p : α → Bool) (c : Cond α) :
    (c.eraseNot p).atoms = c.atoms := by
  fun_induction eraseNot p c <;> simp_all [atoms]

theorem eraseNot_eq_self {p : α → Bool} {c : Cond α} (h : c.hasNotAbove p = false) :
    c.eraseNot p = c := by
  fun_induction eraseNot p c <;> simp_all [hasNotAbove]

private theorem evalLeaves_and_append {c d : Cond α} {ts us : List Truth}
    (hc : ts.length = c.atoms.length) :
    (and c d).evalLeaves (ts ++ us) = c.evalLeaves ts ⊓ d.evalLeaves us := by
  simp [evalLeaves, ← hc]

private theorem evalLeaves_or_append {c d : Cond α} {ts us : List Truth}
    (hc : ts.length = c.atoms.length) :
    (or c d).evalLeaves (ts ++ us) = c.evalLeaves ts ⊔ d.evalLeaves us := by
  simp [evalLeaves, ← hc]

private theorem not_ne_unknown {b : Truth} (hb : b ≠ .unknown) : b.not ≠ .unknown := by
  cases b <;> simp_all [Truth.not]

/-- One assignment separates a condition from its erased form by exchanging `tt`
and `ff` when a negation is erased, and gives both the same end otherwise. -/
private theorem exists_leaves (p : α → Bool) (c : Cond α) (hc : c.IsPure) (b : Truth)
    (hb : b ≠ .unknown) :
    ∃ ts : List Truth, ts.length = c.atoms.length ∧ c.evalLeaves ts = b ∧
      (c.eraseNot p).evalLeaves ts = if c.hasNotAbove p then b.not else b := by
  fun_induction eraseNot p c generalizing b with
  | case1 t => exact hc.elim
  | case2 a => exact ⟨[b], by simp [atoms, evalLeaves, hasNotAbove]⟩
  | case3 a ha => exact ⟨[b.not], by simp [atoms, evalLeaves, hasNotAbove, ha]⟩
  | case4 a ha => exact ⟨[b.not], by simp [atoms, evalLeaves, hasNotAbove, ha]⟩
  | case5 c hne ih =>
    obtain ⟨ts, hlen, hval, herase⟩ := ih hc b.not (not_ne_unknown hb)
    have habove : (not c).hasNotAbove p = c.hasNotAbove p := by
      cases c <;> first | rfl | exact absurd rfl (hne _)
    refine ⟨ts, hlen, by simp [evalLeaves, hval], ?_⟩
    rw [habove, evalLeaves, herase]
    split <;> simp
  | case6 c d ihc ihd =>
    -- a side that keeps its negations is set to `tt` when the other side must decide
    obtain ⟨ts, hlen, hval, herase⟩ :=
      ihc hc.1 (if c.hasNotAbove p || !d.hasNotAbove p then b else .tt) (by split <;> simp [hb])
    obtain ⟨us, hlen', hval', herase'⟩ :=
      ihd hc.2 (if d.hasNotAbove p || !c.hasNotAbove p then b else .tt) (by split <;> simp [hb])
    refine ⟨ts ++ us, by simp [atoms, hlen, hlen'], ?_, ?_⟩
    · rw [evalLeaves_and_append hlen, hval, hval']
      cases c.hasNotAbove p <;> cases d.hasNotAbove p <;> simp
    · rw [evalLeaves_and_append (by simpa using hlen), herase, herase', hasNotAbove]
      cases c.hasNotAbove p <;> cases d.hasNotAbove p <;> simp
  | case7 c d ihc ihd =>
    obtain ⟨ts, hlen, hval, herase⟩ :=
      ihc hc.1 (if c.hasNotAbove p || !d.hasNotAbove p then b else .ff) (by split <;> simp [hb])
    obtain ⟨us, hlen', hval', herase'⟩ :=
      ihd hc.2 (if d.hasNotAbove p || !c.hasNotAbove p then b else .ff) (by split <;> simp [hb])
    refine ⟨ts ++ us, by simp [atoms, hlen, hlen'], ?_, ?_⟩
    · rw [evalLeaves_or_append hlen, hval, hval']
      cases c.hasNotAbove p <;> cases d.hasNotAbove p <;> simp
    · rw [evalLeaves_or_append (by simpa using hlen), herase, herase', hasNotAbove]
      cases c.hasNotAbove p <;> cases d.hasNotAbove p <;> simp

/-- Leaving out the negations above a class of atoms changes a condition unless
there is none. -/
theorem agree_eraseNot_iff (p : α → Bool) {c : Cond α} (hc : c.IsPure) :
    Agree c (c.eraseNot p) ↔ c.hasNotAbove p = false := by
  constructor
  · intro h
    obtain ⟨ts, -, hval, herase⟩ := exists_leaves p c hc .tt (by simp)
    rw [← h.2 ts, hval] at herase
    cases habove : c.hasNotAbove p with
    | false => rfl
    | true => simp [habove, Truth.not] at herase
  · intro h
    rw [eraseNot_eq_self h]
    exact ⟨rfl, fun _ => rfl⟩

/-- The two conditions have the same connectives and related atoms. -/
inductive Rel (R : α → β → Prop) : Cond α → Cond β → Prop
  | lit (t : Truth) : Rel R (.lit t) (.lit t)
  | atom {a : α} {b : β} : R a b → Rel R (.atom a) (.atom b)
  | not {c : Cond α} {d : Cond β} : Rel R c d → Rel R (.not c) (.not d)
  | and {c c' : Cond α} {d d' : Cond β} : Rel R c d → Rel R c' d' → Rel R (.and c c') (.and d d')
  | or {c c' : Cond α} {d d' : Cond β} : Rel R c d → Rel R c' d' → Rel R (.or c c') (.or d d')

theorem Rel.atoms {R : α → β → Prop} {c : Cond α} {d : Cond β} (h : Rel R c d) :
    List.Forall₂ R c.atoms d.atoms := by
  induction h with
  | lit t => exact .nil
  | atom h => exact .cons h .nil
  | not _ ih => exact ih
  | and _ _ ih ih' => exact List.rel_append ih ih'
  | or _ _ ih ih' => exact List.rel_append ih ih'

theorem Rel.evalLeaves {R : α → β → Prop} {c : Cond α} {d : Cond β} (h : Rel R c d)
    (ts : List Truth) : d.evalLeaves ts = c.evalLeaves ts := by
  induction h generalizing ts with
  | lit t => rfl
  | atom h => rfl
  | not _ ih => simp only [Cond.evalLeaves, ih]
  | and h _ ih ih' => simp only [Cond.evalLeaves, ih, ih', h.atoms.length_eq]
  | or h _ ih ih' => simp only [Cond.evalLeaves, ih, ih', h.atoms.length_eq]

theorem Rel.all {R : α → β → Prop} {cs : List (Cond α)} {ds : List (Cond β)}
    (h : List.Forall₂ (Rel R) cs ds) : Rel R (Cond.all cs) (Cond.all ds) := by
  induction h with
  | nil => exact .lit ⊤
  | cons h hs ih =>
    cases hs with
    | nil => exact h
    | cons h' hs => exact .and h ih

theorem Rel.any {R : α → β → Prop} {cs : List (Cond α)} {ds : List (Cond β)}
    (h : List.Forall₂ (Rel R) cs ds) : Rel R (Cond.any cs) (Cond.any ds) := by
  induction h with
  | nil => exact .lit ⊥
  | cons h hs ih =>
    cases hs with
    | nil => exact h
    | cons h' hs => exact .or h ih

theorem Rel.mono {R S : α → β → Prop} (hRS : ∀ a b, R a b → S a b) {c : Cond α} {d : Cond β}
    (h : Rel R c d) : Rel S c d := by
  induction h with
  | lit t => exact .lit t
  | atom h => exact .atom (hRS _ _ h)
  | not _ ih => exact .not ih
  | and _ _ ih ih' => exact .and ih ih'
  | or _ _ ih ih' => exact .or ih ih'

theorem eraseNot_all (p : α → Bool) (cs : List (Cond α)) :
    (all cs).eraseNot p = all (cs.map (eraseNot p)) := by
  induction cs with
  | nil => rfl
  | cons c cs ih =>
    cases cs with
    | nil => rfl
    | cons d cs => simpa [all, eraseNot] using ih

theorem eraseNot_any (p : α → Bool) (cs : List (Cond α)) :
    (any cs).eraseNot p = any (cs.map (eraseNot p)) := by
  induction cs with
  | nil => rfl
  | cons c cs ih =>
    cases cs with
    | nil => rfl
    | cons d cs => simpa [any, eraseNot] using ih

theorem isPure_all {cs : List (Cond α)} (hne : cs ≠ []) (h : ∀ c ∈ cs, c.IsPure) :
    (all cs).IsPure := by
  induction cs with
  | nil => exact absurd rfl hne
  | cons c cs ih =>
    rw [List.forall_mem_cons] at h
    cases cs with
    | nil => exact h.1
    | cons d cs => exact ⟨h.1, ih (by simp) h.2⟩

theorem isPure_any {cs : List (Cond α)} (hne : cs ≠ []) (h : ∀ c ∈ cs, c.IsPure) :
    (any cs).IsPure := by
  induction cs with
  | nil => exact absurd rfl hne
  | cons c cs ih =>
    rw [List.forall_mem_cons] at h
    cases cs with
    | nil => exact h.1
    | cons d cs => exact ⟨h.1, ih (by simp) h.2⟩

end Cond

mutual

/-- Read a disjunction from the front of a text; the fuel bounds the recursion. -/
def readOr : Nat → List (Tok α) → Option (Cond α × List (Tok α))
  | 0, _ => none
  | n + 1, ts =>
      match readAnd n ts with
      | none => none
      | some (c, .or :: rest) =>
          match readOr n rest with
          | none => none
          | some (d, rest') => some (.or c d, rest')
      | some (c, rest) => some (c, rest)

/-- Read a conjunction from the front of a text. -/
def readAnd : Nat → List (Tok α) → Option (Cond α × List (Tok α))
  | 0, _ => none
  | n + 1, ts =>
      match readUnit n ts with
      | none => none
      | some (c, .and :: rest) =>
          match readAnd n rest with
          | none => none
          | some (d, rest') => some (.and c d, rest')
      | some (c, rest) => some (c, rest)

/-- Read a negation, a parenthesised condition or an atom. -/
def readUnit : Nat → List (Tok α) → Option (Cond α × List (Tok α))
  | 0, _ => none
  | n + 1, .not :: rest =>
      match readUnit n rest with
      | none => none
      | some (c, rest') => some (.not c, rest')
  | n + 1, .lpar :: rest =>
      match readOr n rest with
      | some (c, .rpar :: rest') => some (c, rest')
      | _ => none
  | _ + 1, .atom a :: rest => some (.atom a, rest)
  | _ + 1, .negAtom a :: rest => some (.not (.atom a), rest)
  | _ + 1, _ => none

end

/-- The condition that a whole text denotes, if it denotes one. -/
def read (ts : List (Tok α)) : Option (Cond α) :=
  match readOr (3 * ts.length + 2) ts with
  | some (c, []) => some c
  | _ => none

/-- `ts` reads as the unit `c` in front of any text. -/
def ReadsUnit (ts : List (Tok α)) (c : Cond α) : Prop :=
  ∀ n rest, 3 * ts.length ≤ n → readUnit n (ts ++ rest) = some (c, rest)

/-- `ts` reads as the conjunction `c` in front of any text that does not go on with
AND. -/
def ReadsAnd (ts : List (Tok α)) (c : Cond α) : Prop :=
  ∀ n rest, rest.head? ≠ some .and → 3 * ts.length + 1 ≤ n →
    readAnd n (ts ++ rest) = some (c, rest)

/-- `ts` reads as the disjunction `c` in front of any text that goes on with neither
AND nor OR. -/
def ReadsOr (ts : List (Tok α)) (c : Cond α) : Prop :=
  ∀ n rest, rest.head? ≠ some .and → rest.head? ≠ some .or → 3 * ts.length + 2 ≤ n →
    readOr n (ts ++ rest) = some (c, rest)

theorem ReadsUnit.atom (a : α) : ReadsUnit [.atom a] (.atom a) := by
  intro n rest hn
  obtain ⟨n, rfl⟩ := Nat.exists_eq_add_of_le' (show 1 ≤ n by simp at hn; omega)
  rfl

theorem ReadsUnit.negAtom (a : α) : ReadsUnit [.negAtom a] (.not (.atom a)) := by
  intro n rest hn
  obtain ⟨n, rfl⟩ := Nat.exists_eq_add_of_le' (show 1 ≤ n by simp at hn; omega)
  rfl

theorem ReadsUnit.not {ts : List (Tok α)} {c : Cond α} (h : ReadsUnit ts c) :
    ReadsUnit (.not :: ts) (.not c) := by
  intro n rest hn
  simp only [List.length_cons] at hn
  obtain ⟨n, rfl⟩ := Nat.exists_eq_add_of_le' (show 1 ≤ n by omega)
  simp only [List.cons_append, readUnit, h n rest (by omega)]

theorem ReadsOr.paren {ts : List (Tok α)} {c : Cond α} (h : ReadsOr ts c) :
    ReadsUnit (.lpar :: ts ++ [.rpar]) c := by
  intro n rest hn
  simp only [List.length_append, List.length_cons, List.length_nil] at hn
  obtain ⟨n, rfl⟩ := Nat.exists_eq_add_of_le' (show 1 ≤ n by omega)
  simp only [List.cons_append, List.append_assoc, List.nil_append, readUnit,
    h n (.rpar :: rest) (by simp) (by simp) (by omega)]

theorem ReadsUnit.toAnd {ts : List (Tok α)} {c : Cond α} (h : ReadsUnit ts c) :
    ReadsAnd ts c := by
  intro n rest hrest hn
  obtain ⟨n, rfl⟩ := Nat.exists_eq_add_of_le' (show 1 ≤ n by omega)
  rw [readAnd, h n rest (by omega)]
  split <;> simp_all

theorem ReadsUnit.and {ts us : List (Tok α)} {c d : Cond α} (h : ReadsUnit ts c)
    (h' : ReadsAnd us d) : ReadsAnd (ts ++ .and :: us) (.and c d) := by
  intro n rest hrest hn
  simp only [List.length_append, List.length_cons] at hn
  obtain ⟨n, rfl⟩ := Nat.exists_eq_add_of_le' (show 1 ≤ n by omega)
  simp only [List.append_assoc, List.cons_append, readAnd,
    h n (.and :: (us ++ rest)) (by omega), h' n rest hrest (by omega)]

theorem ReadsAnd.toOr {ts : List (Tok α)} {c : Cond α} (h : ReadsAnd ts c) :
    ReadsOr ts c := by
  intro n rest hand hor hn
  obtain ⟨n, rfl⟩ := Nat.exists_eq_add_of_le' (show 1 ≤ n by omega)
  rw [readOr, h n rest hand (by omega)]
  split <;> simp_all

theorem ReadsAnd.or {ts us : List (Tok α)} {c d : Cond α} (h : ReadsAnd ts c)
    (h' : ReadsOr us d) : ReadsOr (ts ++ .or :: us) (.or c d) := by
  intro n rest hand hor hn
  simp only [List.length_append, List.length_cons] at hn
  obtain ⟨n, rfl⟩ := Nat.exists_eq_add_of_le' (show 1 ≤ n by omega)
  simp only [List.append_assoc, List.cons_append, readOr,
    h n (.or :: (us ++ rest)) (by simp) (by omega), h' n rest hand hor (by omega)]

theorem ReadsOr.read_eq {ts : List (Tok α)} {c : Cond α} (h : ReadsOr ts c) :
    read ts = some c := by
  have hr := h (3 * ts.length + 2) [] (by simp) (by simp) le_rfl
  rw [List.append_nil] at hr
  simp [read, hr]

/-- Texts joined by a separating token. -/
def sepBy (sep : Tok α) : List (List (Tok α)) → List (Tok α)
  | [] => []
  | [t] => t
  | t :: u :: ts => t ++ sep :: sepBy sep (u :: ts)

theorem sepBy_append_singleton (sep : Tok α) (init : List (List (Tok α)))
    (last more : List (Tok α)) :
    sepBy sep (init ++ [last]) ++ more = sepBy sep (init ++ [last ++ more]) := by
  induction init with
  | nil => rfl
  | cons t init ih =>
    cases init with
    | nil => simp [sepBy]
    | cons u init => simpa [sepBy] using ih

/-- Appending the separator after every text and dropping the last separator joins
the texts. -/
theorem dropLast_flatMap_eq_sepBy (sep : Tok α) (ts : List (List (Tok α))) :
    (ts.flatMap (fun t => t ++ [sep])).dropLast = sepBy sep ts := by
  induction ts with
  | nil => rfl
  | cons t ts ih =>
    cases ts with
    | nil => simp [sepBy]
    | cons u ts =>
      rw [List.flatMap_cons, List.dropLast_append_of_ne_nil (by simp), ih]
      simp [sepBy]

theorem ReadsAnd.sepBy_and {ts : List (List (Tok α))} {cs : List (Cond α)}
    (h : List.Forall₂ ReadsUnit ts cs) (hne : ts ≠ []) :
    ReadsAnd (sepBy .and ts) (.all cs) := by
  induction h with
  | nil => exact absurd rfl hne
  | @cons t c ts cs h h' ih =>
    cases h' with
    | nil => exact h.toAnd
    | cons h₁ h₂ => exact h.and (ih (by simp))

theorem ReadsOr.sepBy_or {ts : List (List (Tok α))} {cs : List (Cond α)}
    (h : List.Forall₂ ReadsAnd ts cs) (hne : ts ≠ []) :
    ReadsOr (sepBy .or ts) (.any cs) := by
  induction h with
  | nil => exact absurd rfl hne
  | @cons t c ts cs h h' ih =>
    cases h' with
    | nil => exact h.toOr
    | cons h₁ h₂ => exact h.or (ih (by simp))

end SqlOptimizer.Logic.BoolText
