import SqlOptimizer.Postgres.ReadTrees

/-!
The strings of a tree come from the quotes of its text. The field of an extract may also be a
word, but then it is one that `extract_arg` takes. A tree whose text starts with an extract has
that extract at its left end.
-/

set_option autoImplicit false
set_option relaxedAutoImplicit false

namespace SqlOptimizer.Postgres.ReadStrings

open Parse.PgQuery (PgNode)
open Scanner Lexemes ScannedTokens Keywords ExpressionGrammar ReadTrees

/-- The quotes of a string token. -/
def stringQuotes (s : String) : Nat := 2 + 2 * s.toList.count '\''

/-- The quotes that the field of an extract needs. -/
def fieldQuotes (field : String) : Nat :=
  if isWord field && isExtractField field then 0 else stringQuotes field

mutual

/-- The quotes that the strings of a tree need at least. -/
def nodeQuotes : PgNode → Nat
  | .aConst (.string s) => stringQuotes s
  | .aExpr _ _ lexpr rexpr => nodeQuotes lexpr + nodeQuotes rexpr
  | .funcCall f args _ _ => if f = "date_part" then fieldArgQuotes args else argQuotes args
  | .typeCast _ _ arg => nodeQuotes arg
  | _ => 0

/-- The first argument is the field of an extract. -/
def fieldArgQuotes : List PgNode → Nat
  | [] => 0
  | .aConst (.string field) :: ns => fieldQuotes field + argQuotes ns
  | n :: ns => nodeQuotes n + argQuotes ns

def argQuotes : List PgNode → Nat
  | [] => 0
  | n :: ns => nodeQuotes n + argQuotes ns

end

theorem fieldQuotes_le (field : String) : fieldQuotes field ≤ stringQuotes field := by
  unfold fieldQuotes
  split <;> omega

theorem fieldArgQuotes_le (ns : List PgNode) : fieldArgQuotes ns ≤ argQuotes ns := by
  unfold fieldArgQuotes
  split
  · omega
  · rename_i field ns
    have hfield := fieldQuotes_le field
    rw [argQuotes, nodeQuotes]
    omega
  · rw [argQuotes]

/-- The rules for calls never count more than the arguments. -/
theorem funcCall_quotes_le (f : String) (args : List PgNode) (star distinct : Bool) :
    nodeQuotes (.funcCall f args star distinct) ≤ argQuotes args := by
  rw [nodeQuotes]
  split
  · exact fieldArgQuotes_le args
  · exact le_rfl

theorem argQuotes_append (ns ms : List PgNode) :
    argQuotes (ns ++ ms) = argQuotes ns + argQuotes ms := by
  induction ns with
  | nil => simp [argQuotes]
  | cons n ns ih =>
    rw [List.cons_append, argQuotes, argQuotes, ih]
    omega

theorem argQuotes_singleton (n : PgNode) : argQuotes [n] = nodeQuotes n := by
  simp [argQuotes]

/-! ### The quotes of a state -/

def frameQuotes : Frame → Nat
  | .unary _ | .paren | .normalize => 0
  | .binary l _ => nodeQuotes l
  | .call _ _ args | .substring args => argQuotes args
  | .substringFrom a => nodeQuotes a
  | .substringFor a b => nodeQuotes a + nodeQuotes b
  | .extract field => fieldQuotes field

def positionQuotes : Position → Nat
  | .extractField field => fieldQuotes field
  | .interval s => stringQuotes s
  | .operator l _ => nodeQuotes l
  | .complete e => nodeQuotes e
  | .operand | .word _ | .qualified _ | .arguments _ | .star _ | .extractStart => 0

def stackQuotes (st : List Frame) : Nat := (st.map frameQuotes).sum

def stateQuotes (s : State) : Nat := stackQuotes s.stack + positionQuotes s.position

@[simp] theorem stackQuotes_cons (fr : Frame) (st : List Frame) :
    stackQuotes (fr :: st) = frameQuotes fr + stackQuotes st := by
  simp [stackQuotes]

theorem makeUnary_quotes (o : String) (e : PgNode) :
    nodeQuotes (makeUnary o e) = nodeQuotes e := by
  have hunary (o : String) : nodeQuotes (.aExpr .op o .nullptr e) = nodeQuotes e := by
    simp [nodeQuotes]
  unfold makeUnary
  split
  · by_cases hnumber : isNumberNode e = true
    · cases e with
      | aConst val => cases val <;> simp [doNegate, nodeQuotes]
      | _ => cases hnumber
    · rw [Bool.not_eq_true] at hnumber
      rw [doNegate_of_not_number hnumber, hunary]
  · exact hunary o

theorem reduce_quotes (level : Nat) (st : List Frame) (e : PgNode) :
    stackQuotes (reduce level st e).1 + nodeQuotes (reduce level st e).2 =
      stackQuotes st + nodeQuotes e := by
  induction st generalizing e with
  | nil => rfl
  | cons fr st ih =>
    cases fr with
    | unary o =>
      rw [reduce]
      split
      · rw [ih, makeUnary_quotes, stackQuotes_cons, frameQuotes]
        omega
      · rfl
    | binary l o =>
      rw [reduce]
      split
      · rw [ih, nodeQuotes, stackQuotes_cons, frameQuotes]
        omega
      · rfl
    | _ => rfl

theorem node_quotes {p : Position} {e : PgNode} (h : p.node = some e) :
    nodeQuotes e ≤ positionQuotes p := by
  cases p with
  | word w =>
    rw [Position.node] at h
    split at h
    · cases h
      simp [nodeQuotes]
    · cases h
  | interval s =>
    cases h
    simp [nodeQuotes, positionQuotes]
  | operator l o =>
    cases h
    simp [nodeQuotes, positionQuotes]
  | complete e =>
    cases h
    exact le_rfl
  | _ => cases h

theorem startOperand_quotes {st : List Frame} {t : Token} {s' : State}
    (h : startOperand st t = some s') : stateQuotes s' ≤ stackQuotes st + tokenQuotes t := by
  cases t with
  | word w =>
    rw [startOperand] at h
    split at h
    · cases h
    · cases h
      simp [stateQuotes, positionQuotes]
  | operator o =>
    rw [startOperand] at h
    split at h
    · cases h
      simp [stateQuotes, positionQuotes, frameQuotes]
    · cases h
  | integer n | float s =>
    cases h
    simp [stateQuotes, positionQuotes, nodeQuotes]
  | string s =>
    cases h
    simp [stateQuotes, positionQuotes, nodeQuotes, stringQuotes, tokenQuotes]
  | lpar =>
    cases h
    simp [stateQuotes, positionQuotes, frameQuotes]
  | rpar | comma | dot => cases h

theorem closedBy_quotes {fr : Frame} {e n : PgNode} (h : closedBy e fr = some n) :
    nodeQuotes n ≤ frameQuotes fr + nodeQuotes e := by
  cases fr <;> cases h
  case paren => simp [frameQuotes]
  case call f distinct args =>
    refine (funcCall_quotes_le f (args ++ [e]) false distinct).trans ?_
    rw [argQuotes_append, argQuotes_singleton, frameQuotes]
  case normalize =>
    refine (funcCall_quotes_le "normalize" [e] false false).trans ?_
    rw [argQuotes_singleton]
    omega
  case substring args =>
    refine (funcCall_quotes_le "substring" (args ++ [e]) false false).trans ?_
    rw [argQuotes_append, argQuotes_singleton, frameQuotes]
  case substringFrom a =>
    refine (funcCall_quotes_le "substring" [a, e] false false).trans ?_
    rw [argQuotes, argQuotes_singleton, frameQuotes]
  case substringFor a b =>
    refine (funcCall_quotes_le "substring" [a, b, e] false false).trans ?_
    rw [argQuotes, argQuotes, argQuotes_singleton, frameQuotes]
    omega
  case extract field =>
    rw [nodeQuotes, if_pos rfl, fieldArgQuotes, argQuotes_singleton, frameQuotes]

theorem nextFrame_quotes {fr fr' : Frame} {e : PgNode} {t : Token}
    (h : nextFrame e fr t = some fr') : frameQuotes fr' = frameQuotes fr + nodeQuotes e := by
  unfold nextFrame at h
  split at h
  · cases h
    rw [frameQuotes, argQuotes_append, argQuotes_singleton, frameQuotes]
  · cases h
    rw [frameQuotes, argQuotes_append, argQuotes_singleton, frameQuotes]
  · split at h <;> cases h
    simp [frameQuotes, argQuotes]
  · split at h <;> cases h
    rfl
  · cases h

theorem afterOperand_quotes {st : List Frame} {e : PgNode} {t : Token} {s' : State}
    (h : afterOperand st e t = some s') :
    stateQuotes s' ≤ stackQuotes st + nodeQuotes e + tokenQuotes t := by
  rcases afterOperand_cases h with ⟨o, rfl, h⟩ | h
  · obtain ⟨level, rfl | ⟨-, rfl⟩⟩ := pushOperator_cases h
    · have hreduce := reduce_quotes level st e
      simp only [stateQuotes, stackQuotes_cons, frameQuotes, positionQuotes]
      omega
    · have hreduce := reduce_quotes level st e
      simp only [stateQuotes, positionQuotes]
      omega
  · have hreduce := reduce_quotes 0 st e
    obtain ⟨fr, st', e', hred, ⟨n, -, hn, rfl⟩ | ⟨fr', -, hfr', rfl⟩⟩ := endOperand_cases h
    · have hclose := closedBy_quotes hn
      simp only [hred, stackQuotes_cons] at hreduce
      simp only [stateQuotes, positionQuotes]
      omega
    · have hnext := nextFrame_quotes hfr'
      simp only [hred, stackQuotes_cons] at hreduce
      simp only [stateQuotes, positionQuotes, stackQuotes_cons]
      omega

theorem moves_quotes {p p' : Position} {t : Token} (ht : Valid t) (h : Moves p t p') :
    positionQuotes p' ≤ positionQuotes p + tokenQuotes t := by
  cases h with
  | interval s => simp [positionQuotes, tokenQuotes, stringQuotes]
  | typed s htype => simp [positionQuotes, nodeQuotes, tokenQuotes, stringQuotes]
  | noArguments f => exact (funcCall_quotes_le f [] false false).trans (Nat.zero_le _)
  | closeStar f => exact (funcCall_quotes_le f [] true false).trans (Nat.zero_le _)
  | wordField hw =>
    have hfield : (isWord _ && isExtractField _) = true := Bool.and_eq_true_iff.mpr ⟨ht, hw⟩
    simp [positionQuotes, fieldQuotes, hfield]
  | stringField s =>
    refine (fieldQuotes_le s).trans ?_
    simp [tokenQuotes, stringQuotes]
  | unit s hmask => simp [positionQuotes, nodeQuotes]
  | qualified hcol | extractStart | arguments hname | column w x | columnStar w | star f =>
    simp [positionQuotes, nodeQuotes]

theorem pushes_quotes {p : Position} {t : Token} {fr : Frame} (h : Pushes p t fr) :
    frameQuotes fr ≤ positionQuotes p := by
  cases h <;> simp [frameQuotes, positionQuotes, argQuotes]

theorem opens_quotes {p : Position} {frs : List Frame} (h : Opens p frs) :
    stackQuotes frs ≤ positionQuotes p := by
  cases h <;> simp [stackQuotes, frameQuotes, positionQuotes, argQuotes]

theorem step_quotes {s : State} {t : Token} {s' : State} (ht : Valid t)
    (h : step s t = some s') : stateQuotes s' ≤ stateQuotes s + tokenQuotes t := by
  have hs : stateQuotes s = stackQuotes s.stack + positionQuotes s.position := rfl
  rcases step_cases h with ⟨frs, hopens, h⟩ | ⟨e, he, h⟩ | ⟨fr, hpush, rfl⟩ | ⟨p, hmove, rfl⟩
  · have hstart := startOperand_quotes h
    have hframes := opens_quotes hopens
    have happend : stackQuotes (frs ++ s.stack) = stackQuotes frs + stackQuotes s.stack := by
      simp [stackQuotes]
    omega
  · have hafter := afterOperand_quotes h
    have hnode := node_quotes he
    omega
  · have hframe := pushes_quotes hpush
    have hs' : stateQuotes ⟨fr :: s.stack, .operand⟩ = frameQuotes fr + stackQuotes s.stack := by
      simp [stateQuotes, positionQuotes]
    omega
  · have hposition := moves_quotes ht hmove
    have hs' : stateQuotes ⟨s.stack, p⟩ = stackQuotes s.stack + positionQuotes p := rfl
    omega

theorem readFrom_quotes {s : State} {ts : List Token} {e : PgNode} (hts : ∀ t ∈ ts, Valid t)
    (h : readFrom s ts = some e) : nodeQuotes e ≤ stateQuotes s + (ts.map tokenQuotes).sum := by
  induction ts generalizing s with
  | nil =>
    obtain ⟨e₀, he₀, hred⟩ := finish_cases h
    have hnode := node_quotes he₀
    have hreduce := reduce_quotes 0 s.stack e₀
    rw [hred] at hreduce
    simp only [stackQuotes, List.map_nil, List.sum_nil] at hreduce ⊢
    rw [stateQuotes, stackQuotes]
    omega
  | cons t ts ih =>
    obtain ⟨ht, hts⟩ := List.forall_mem_cons.mp hts
    obtain ⟨s', hfold, hfinish⟩ := Option.bind_eq_some_iff.mp h
    rw [List.foldlM_cons, Option.bind_eq_bind, Option.bind_eq_some_iff] at hfold
    obtain ⟨s₁, hstep, hfold⟩ := hfold
    have hfirst := step_quotes ht hstep
    have hrest := ih hts (Option.bind_eq_some_iff.mpr ⟨s', hfold, hfinish⟩)
    rw [List.map_cons, List.sum_cons]
    omega

/-- The strings of a tree need no more quotes than its text has. -/
theorem nodeQuotes_le_of_readExpression {text : String} {e : PgNode}
    (h : readExpression text = some e) : nodeQuotes e ≤ text.toList.count '\'' := by
  obtain ⟨ts, hts, h⟩ := Option.bind_eq_some_iff.mp h
  have hread := readFrom_quotes (valid_of_scan hts) h
  have hscan := quotes_le_of_scan hts
  have hinitial : stateQuotes initial = 0 := rfl
  omega

/-! ### The extract at the left end -/

/-- The node of an extract. -/
def isExtract (f : String) : List PgNode → Bool
  | [.aConst (.string _), _] => f = "date_part"
  | _ => false

/-- The left end of the tree is an extract. -/
def startsExtract : PgNode → Bool
  | .aExpr _ _ lexpr _ => startsExtract lexpr
  | .funcCall f args _ _ => isExtract f args
  | _ => false

def frameStarts : Frame → Bool
  | .extract _ => true
  | .binary l _ => startsExtract l
  | _ => false

def positionStarts : Position → Bool
  | .extractStart | .extractField _ => true
  | .operator l _ => startsExtract l
  | .complete e => startsExtract e
  | _ => false

/-- What the outermost construct starts with; behind it stands what is read last. -/
def outermost : List Frame → Bool → Bool
  | [], p => p
  | fr :: st, _ => outermost st (frameStarts fr)

def Starts (s : State) : Prop := outermost s.stack (positionStarts s.position) = true

theorem outermost_mono {p q : Bool} (hpq : p = true → q = true) {st : List Frame}
    (h : outermost st p = true) : outermost st q = true := by
  cases st with
  | nil => exact hpq h
  | cons fr st => exact h

theorem outermost_append {p : Bool} (frs st : List Frame) :
    outermost (frs ++ st) p = outermost st (outermost frs p) := by
  induction frs generalizing p with
  | nil => rfl
  | cons fr frs ih => exact ih

theorem reduce_starts (level : Nat) {st : List Frame} {e : PgNode}
    (h : outermost st (startsExtract e) = true) :
    outermost (reduce level st e).1 (startsExtract (reduce level st e).2) = true := by
  induction st generalizing e with
  | nil => exact h
  | cons fr st ih =>
    cases fr with
    | unary o =>
      rw [reduce]
      split
      · exact ih (outermost_mono (p := false) (by simp) h)
      · exact h
    | binary l o =>
      rw [reduce]
      split
      · exact ih h
      · exact h
    | _ => exact h

theorem node_starts {p : Position} {e : PgNode} (h : p.node = some e)
    (hp : positionStarts p = true) : startsExtract e = true := by
  cases p with
  | operator l o | complete e =>
    cases h
    exact hp
  | extractStart | extractField field => cases h
  | _ => cases hp

theorem startOperand_starts {st : List Frame} {t : Token} {s' : State}
    (hst : outermost st false = true) (h : startOperand st t = some s') : Starts s' := by
  have hany (p : Bool) : outermost st p = true := outermost_mono (by simp) hst
  cases t with
  | word w =>
    rw [startOperand] at h
    split at h
    · cases h
    · cases h
      exact hany _
  | operator o =>
    rw [startOperand] at h
    split at h
    · cases h
      exact hany _
    · cases h
  | integer n | float s | string s | lpar =>
    cases h
    exact hany _
  | rpar | comma | dot => cases h

theorem closedBy_starts {fr : Frame} {e n : PgNode} (h : closedBy e fr = some n)
    (hfr : frameStarts fr = true) : startsExtract n = true := by
  cases fr with
  | extract field =>
    cases h
    rfl
  | binary l o => cases h
  | _ => cases hfr

theorem nextFrame_starts {fr fr' : Frame} {e : PgNode} {t : Token}
    (h : nextFrame e fr t = some fr') : frameStarts fr = false := by
  unfold nextFrame at h
  split at h
  · rfl
  · rfl
  · rfl
  · rfl
  · cases h

theorem afterOperand_starts {st : List Frame} {e : PgNode} {t : Token} {s' : State}
    (hst : outermost st (startsExtract e) = true) (h : afterOperand st e t = some s') :
    Starts s' := by
  rcases afterOperand_cases h with ⟨o, rfl, h⟩ | h
  · obtain ⟨level, rfl | ⟨-, rfl⟩⟩ := pushOperator_cases h
    · exact reduce_starts level hst
    · exact reduce_starts level hst
  · have hreduce := reduce_starts 0 hst
    obtain ⟨fr, st', e', hred, ⟨n, -, hn, rfl⟩ | ⟨fr', -, hfr', rfl⟩⟩ := endOperand_cases h
    · rw [hred] at hreduce
      exact outermost_mono (closedBy_starts hn) hreduce
    · rw [hred] at hreduce
      have hfr := nextFrame_starts hfr'
      show outermost st' (frameStarts fr') = true
      refine outermost_mono (p := frameStarts fr) (fun hstarts => ?_) hreduce
      rw [hfr] at hstarts
      cases hstarts

theorem moves_starts {p p' : Position} {t : Token} (h : Moves p t p')
    (hp : positionStarts p = true) : positionStarts p' = true := by
  cases h with
  | wordField hw | stringField s => rfl
  | _ => cases hp

theorem step_starts {s : State} {t : Token} {s' : State} (hs : Starts s)
    (h : step s t = some s') : Starts s' := by
  have hcases := step_cases h
  obtain ⟨st, p⟩ := s
  have hs : outermost st (positionStarts p) = true := hs
  rcases hcases with ⟨frs, hopens, h⟩ | ⟨e, he, h⟩ | ⟨fr, hpush, rfl⟩ | ⟨p', hmove, rfl⟩
  · refine startOperand_starts ?_ h
    rw [outermost_append]
    refine outermost_mono (p := positionStarts p) (fun hp => ?_) hs
    cases hopens with
    | operator l o => exact hp
    | operand | arguments f => cases hp
  · exact afterOperand_starts (outermost_mono (node_starts he) hs) h
  · show outermost st (frameStarts fr) = true
    refine outermost_mono (p := positionStarts p) (fun hp => ?_) hs
    cases hpush with
    | extract field => rfl
    | substring | normalize | distinct f => cases hp
  · exact outermost_mono (moves_starts hmove) hs

/-- The tree of tokens that start with an extract. -/
theorem startsExtract_of_readFrom {ts : List Token} {e : PgNode}
    (h : readFrom initial (.word "extract" :: .lpar :: ts) = some e) : startsExtract e = true := by
  have hopen : readFrom initial (.word "extract" :: .lpar :: ts) =
      readFrom ⟨[], .extractStart⟩ ts := rfl
  obtain ⟨s', hs', hfinish⟩ := readFrom_cases (I := Starts)
    (fun t _ s s' hs hstep => step_starts hs hstep) (show Starts ⟨[], .extractStart⟩ from rfl)
    (hopen ▸ h)
  obtain ⟨e₀, he₀, hred⟩ := finish_cases hfinish
  have hreduce := reduce_starts 0 (outermost_mono (node_starts he₀) hs')
  rwa [hred] at hreduce

end SqlOptimizer.Postgres.ReadStrings
