import SqlOptimizer.Postgres.ReadTrees
import SqlOptimizer.Postgres.Renderings

/-!
Tokens that are an operand on their own: the parser reads them as one tree, whatever is open
around them.
-/

set_option autoImplicit false
set_option relaxedAutoImplicit false

namespace SqlOptimizer.Postgres.Operands

open Parse.PgQuery (PgNode)
open Scanner (Token)
open Keywords ExpressionGrammar

/-- A token that goes on behind an operand of a printed expression. -/
def Continues : Token → Prop
  | .operator _ | .rpar | .comma => True
  | .word w => w = "from" ∨ w = "for"
  | _ => False

/-- The parser has read the operand `n` over the stack `st`. -/
structure Resting (st : List Frame) (n : PgNode) (s : State) : Prop where
  step_eq : ∀ t, Continues t → step s t = afterOperand st n t
  finish_eq : finish s = finish ⟨st, .complete n⟩

/-- The tokens are an operand, the tree `n`. -/
def Denotes (ts : List Token) (n : PgNode) : Prop :=
  ∃ t us, ts = t :: us ∧ ∀ st, ∃ s₁ s, startOperand st t = some s₁ ∧
    us.foldlM step s₁ = some s ∧ Resting st n s

variable {ts us : List Token} {n l r : PgNode} {o : String} {st : List Frame}

theorem read_cons {t : Token} {s s' : State} (h : step s t = some s') (us : List Token) :
    (t :: us).foldlM step s = us.foldlM step s' := by
  rw [List.foldlM_cons, h]
  rfl

theorem read_append {s s' : State} (h : ts.foldlM step s = some s') (us : List Token) :
    (ts ++ us).foldlM step s = us.foldlM step s' := by
  rw [List.foldlM_append, h]
  rfl

theorem continues_operator (o : String) : Continues (.operator o) := trivial

theorem continues_rpar : Continues .rpar := trivial

theorem continues_comma : Continues .comma := trivial

theorem continues_from : Continues (.word "from") := .inl rfl

theorem continues_for : Continues (.word "for") := .inr rfl

theorem resting_complete (st : List Frame) (n : PgNode) : Resting st n ⟨st, .complete n⟩ :=
  ⟨fun _ _ => rfl, rfl⟩

/-- An operand where one must follow. -/
theorem Denotes.read (h : Denotes ts n) (st : List Frame) :
    ∃ s, ts.foldlM step ⟨st, .operand⟩ = some s ∧ Resting st n s := by
  obtain ⟨t, us, rfl, h⟩ := h
  obtain ⟨s₁, s, hstart, hfold, hrest⟩ := h st
  refine ⟨s, ?_, hrest⟩
  have hstep : step ⟨st, .operand⟩ t = some s₁ := hstart
  rw [read_cons hstep]
  exact hfold

/-- What has been read goes on with a token behind the operand. -/
theorem Resting.foldlM_cons {s : State} (h : Resting st n s) {t : Token} (ht : Continues t)
    (us : List Token) :
    (t :: us).foldlM step s = (afterOperand st n t).bind fun s' => us.foldlM step s' := by
  rw [List.foldlM_cons, h.step_eq t ht]
  rfl

/-! ### Leaves -/

theorem Continues.continueOperand {t : Token} (ht : Continues t) {w : String} :
    step ⟨st, .word w⟩ t = continueOperand ⟨st, .word w⟩ t := by
  cases t with
  | operator o | rpar | comma | word w' => rfl
  | _ => cases ht

theorem not_mem_reserved {w : String} (h : isColId w = true) : w ∉ reserved := by
  simp only [isColId, Bool.and_eq_true, decide_eq_true_eq] at h
  exact h.1

theorem startOperand_word {w : String} (h : w ∉ reserved) :
    startOperand st (.word w) = some ⟨st, .word w⟩ := if_neg h

theorem startOperand_operator (h : isUnaryOp o = true) :
    startOperand st (.operator o) = some ⟨.unary o :: st, .operand⟩ := if_pos h

theorem denotes_column {w : String} (h : isColId w = true) :
    Denotes [.word w] (.columnRef [w]) := by
  refine ⟨_, [], rfl, fun st => ⟨_, _, startOperand_word (not_mem_reserved h), rfl, ?_⟩⟩
  have hnode : Position.node (.word w) = some (.columnRef [w]) := if_pos h
  refine ⟨fun t ht => ?_, ?_⟩
  · rw [ht.continueOperand, continueOperand, hnode, Option.bind_some]
  · rw [finish, finish, hnode]
    rfl

theorem denotes_qualified {w x : String} (h : isColId w = true) :
    Denotes [.word w, .dot, .word x] (.columnRef [w, x]) := by
  refine ⟨_, _, rfl, fun st => ⟨_, _, startOperand_word (not_mem_reserved h), ?_,
    resting_complete _ _⟩⟩
  have hdot : step ⟨st, .word w⟩ .dot = some ⟨st, .qualified w⟩ := if_pos h
  rw [read_cons hdot]
  rfl

theorem denotes_star {w : String} (h : isColId w = true) :
    Denotes [.word w, .dot, .operator "*"] (.columnRef [w, "*"]) := by
  refine ⟨_, _, rfl, fun st => ⟨_, _, startOperand_word (not_mem_reserved h), ?_,
    resting_complete _ _⟩⟩
  have hdot : step ⟨st, .word w⟩ .dot = some ⟨st, .qualified w⟩ := if_pos h
  rw [read_cons hdot]
  rfl

theorem denotes_integer (k : Nat) : Denotes [.integer k] (.aConst (.integer k)) :=
  ⟨_, [], rfl, fun st => ⟨_, _, rfl, rfl, resting_complete st _⟩⟩

theorem denotes_float (s : String) : Denotes [.float s] (.aConst (.float s)) :=
  ⟨_, [], rfl, fun st => ⟨_, _, rfl, rfl, resting_complete st _⟩⟩

theorem denotes_string (s : String) : Denotes [.string s] (.aConst (.string s)) :=
  ⟨_, [], rfl, fun st => ⟨_, _, rfl, rfl, resting_complete st _⟩⟩

/-! ### Operators -/

theorem reduce_unary {level : Nat} {e : PgNode} (h : level ≤ unaryLevel o) :
    reduce level (.unary o :: st) e = reduce level st (makeUnary o e) := by
  rw [reduce, if_pos h]

theorem binaryLevel_le (o : String) : binaryLevel o ≤ 5 := by
  unfold binaryLevel
  split_ifs <;> omega

/-- A minus sign binds stronger than any operator behind its operand. -/
theorem afterOperand_minus (st : List Frame) (e : PgNode) {t : Token} :
    afterOperand (.unary "-" :: st) e t = afterOperand st (makeUnary "-" e) t := by
  have hlevel : unaryLevel "-" = 6 := by decide
  have hreduce {level : Nat} (h : level ≤ 6) :
      reduce level (.unary "-" :: st) e = reduce level st (makeUnary "-" e) :=
    reduce_unary (hlevel ▸ h)
  cases t with
  | operator o =>
    have hmath : reduce (binaryLevel o) (.unary "-" :: st) e =
        reduce (binaryLevel o) st (makeUnary "-" e) :=
      hreduce ((binaryLevel_le o).trans (by omega))
    simp only [afterOperand, pushOperator, pushMathOp, hmath, hreduce (show 2 ≤ 6 by omega)]
  | _ => simp only [afterOperand, hreduce (Nat.zero_le 6)]

theorem finish_minus (st : List Frame) (e : PgNode) :
    finish ⟨.unary "-" :: st, .complete e⟩ = finish ⟨st, .complete (makeUnary "-" e)⟩ := by
  have hreduce : reduce 0 (.unary "-" :: st) e = reduce 0 st (makeUnary "-" e) :=
    reduce_unary (Nat.zero_le _)
  simp only [finish, Position.node, Option.bind_some, hreduce]

/-- A number with a sign stays open. -/
theorem denotes_negated {t : Token} {e : PgNode}
    (h : ∀ st, startOperand st t = some ⟨st, .complete e⟩) :
    Denotes [.operator "-", t] (makeUnary "-" e) := by
  refine ⟨_, [t], rfl, fun st => ⟨⟨.unary "-" :: st, .operand⟩,
    ⟨.unary "-" :: st, .complete e⟩, startOperand_operator (by decide), ?_, ?_,
    finish_minus st e⟩⟩
  · have hstep : step ⟨.unary "-" :: st, .operand⟩ t = some ⟨.unary "-" :: st, .complete e⟩ := h _
    rw [read_cons hstep]
    rfl
  · intro u _
    exact afterOperand_minus st e

/-- A token behind an operator that waits for its right operand. -/
theorem pushOperator_paren (st : List Frame) (l : PgNode) (o : String) :
    pushOperator (.paren :: st) l o = some (if isMathOp o = true
      then ⟨.binary l o :: .paren :: st, .operand⟩ else ⟨.paren :: st, .operator l o⟩) := by
  unfold pushOperator pushMathOp
  split
  · split <;> rfl
  · rfl

/-- The tokens may be the right operand of the operator: behind a generic operator, some words
cannot start an operand. -/
def MayFollow (o : String) (ts : List Token) : Prop :=
  isMathOp o = false → ∀ w, ts.head? = some (.word w) → w ∉ afterPostfix

theorem startsOperand_of {t : Token} {s₁ : State} (hstart : startOperand st t = some s₁)
    (h : ∀ w, t = .word w → w ∉ afterPostfix) : startsOperand t = true := by
  cases t with
  | word w =>
    rw [startOperand] at hstart
    split at hstart
    · cases hstart
    · rename_i hres
      simpa [startsOperand] using ⟨hres, h w rfl⟩
  | operator o =>
    rw [startOperand] at hstart
    split at hstart
    · rename_i hunary
      exact hunary
    · cases hstart
  | integer k | float s | string s | lpar => rfl
  | rpar | comma | dot => cases hstart

/-- The right operand of an operator. -/
theorem Denotes.read_right (h : Denotes ts n) (hfollow : MayFollow o ts) (l : PgNode)
    (st : List Frame) :
    ∃ s, (afterOperand (.paren :: st) l (.operator o)).bind (fun s' => ts.foldlM step s') =
      some s ∧ Resting (.binary l o :: .paren :: st) n s := by
  rw [afterOperand, pushOperator_paren, Option.bind_some]
  split
  · exact h.read _
  · rename_i hmath
    obtain ⟨t, us, rfl, h⟩ := h
    obtain ⟨s₁, s, hstart, hfold, hrest⟩ := h (.binary l o :: .paren :: st)
    refine ⟨s, ?_, hrest⟩
    have hstarts : startsOperand t = true :=
      startsOperand_of hstart fun w hw =>
        hfollow (by simpa using hmath) w (congrArg some hw)
    have hstep : step ⟨.paren :: st, .operator l o⟩ t = some s₁ := (if_pos hstarts).trans hstart
    rw [read_cons hstep]
    exact hfold

/-- `)` behind an operand that fills what is open in the parentheses. -/
theorem Resting.close_paren {e : PgNode} {s : State} (frs : List Frame)
    (h : Resting (frs ++ .paren :: st) n s)
    (hreduce : reduce 0 (frs ++ .paren :: st) n = (.paren :: st, e)) :
    [Token.rpar].foldlM step s = some ⟨st, .complete e⟩ := by
  have hafter : afterOperand (frs ++ .paren :: st) n .rpar = some ⟨st, .complete e⟩ := by
    show endOperand .rpar (reduce 0 (frs ++ .paren :: st) n) = _
    rw [hreduce]
    rfl
  rw [h.foldlM_cons continues_rpar, hafter]
  rfl

theorem denotes_binary (hl : Denotes ts l) (hr : Denotes us r) (hfollow : MayFollow o us) :
    Denotes (.lpar :: (ts ++ .operator o :: (us ++ [.rpar]))) (.aExpr .op o l r) := by
  refine ⟨_, _, rfl, fun st => ⟨⟨.paren :: st, .operand⟩, ⟨st, .complete (.aExpr .op o l r)⟩, rfl,
    ?_, resting_complete _ _⟩⟩
  obtain ⟨s₁, hs₁, hrest₁⟩ := hl.read (.paren :: st)
  obtain ⟨s₂, hs₂, hrest₂⟩ := hr.read_right hfollow l st
  have hclose := Resting.close_paren [.binary l o] hrest₂ rfl
  have hafter : (Token.operator o :: us).foldlM step s₁ = some s₂ := by
    rw [hrest₁.foldlM_cons (continues_operator o), hs₂]
  have happend : ts ++ Token.operator o :: (us ++ [.rpar]) =
      ts ++ ((.operator o :: us) ++ [.rpar]) := by simp
  rw [happend, read_append hs₁, read_append hafter, hclose]

theorem denotes_unary (hr : Denotes us r) (hunary : isUnaryOp o = true) :
    Denotes (.lpar :: .operator o :: (us ++ [.rpar])) (makeUnary o r) := by
  refine ⟨_, _, rfl, fun st => ⟨⟨.paren :: st, .operand⟩, ⟨st, .complete (makeUnary o r)⟩, rfl, ?_,
    resting_complete _ _⟩⟩
  obtain ⟨s, hs, hrest⟩ := hr.read (.unary o :: .paren :: st)
  have hclose := Resting.close_paren [.unary o] hrest (reduce_unary (Nat.zero_le _))
  have hopen : step ⟨.paren :: st, .operand⟩ (.operator o) =
      some ⟨.unary o :: .paren :: st, .operand⟩ := startOperand_operator hunary
  rw [read_cons hopen, read_append hs, hclose]

theorem denotes_trailing (hl : Denotes ts l) (hmath : isMathOp o = false) :
    Denotes (.lpar :: (ts ++ [.operator o, .rpar])) (.aExpr .op o l .nullptr) := by
  refine ⟨_, _, rfl, fun st => ⟨⟨.paren :: st, .operand⟩,
    ⟨st, .complete (.aExpr .op o l .nullptr)⟩, rfl, ?_, resting_complete _ _⟩⟩
  obtain ⟨s, hs, hrest⟩ := hl.read (.paren :: st)
  have hpush : pushOperator (.paren :: st) l o = some ⟨.paren :: st, .operator l o⟩ := by
    rw [pushOperator_paren, if_neg (by simp [hmath])]
  rw [read_append hs, hrest.foldlM_cons (continues_operator o),
    afterOperand, hpush]
  rfl

/-! ### Calls and typed constants -/

/-- The rules for the arguments of a function: `f` opens a frame that takes every operand, a
comma goes on with it and `)` closes it. -/
theorem close_frame {fr : Frame} {e : PgNode} {s : State} (h : Resting (fr :: st) n s)
    (hreduce : reduce 0 (fr :: st) n = (fr :: st, n)) (hclose : closedBy n fr = some e) :
    [Token.rpar].foldlM step s = some ⟨st, .complete e⟩ := by
  have hafter : afterOperand (fr :: st) n .rpar = some ⟨st, .complete e⟩ := by
    show endOperand .rpar (reduce 0 (fr :: st) n) = _
    rw [hreduce, endOperand, if_pos rfl, hclose]
    rfl
  rw [h.foldlM_cons continues_rpar, hafter]
  rfl

/-- A word or a comma leads to the next operand of the frame. -/
theorem next_operand {fr fr' : Frame} {t : Token} {s : State} (h : Resting (fr :: st) n s)
    (ht : Continues t) (hreduce : reduce 0 (fr :: st) n = (fr :: st, n))
    (hnext : nextFrame n fr t = some fr') (us : List Token) :
    (t :: us).foldlM step s = us.foldlM step ⟨fr' :: st, .operand⟩ := by
  have hafter : afterOperand (fr :: st) n t = some ⟨fr' :: st, .operand⟩ := by
    have hrpar : t ≠ .rpar := by
      rintro rfl
      cases fr <;> cases hnext
    have hother : afterOperand (fr :: st) n t = endOperand t (reduce 0 (fr :: st) n) := by
      cases t with
      | operator o => cases fr <;> cases hnext
      | _ => rfl
    rw [hother, hreduce, endOperand, if_neg hrpar, hnext]
    rfl
  rw [h.foldlM_cons ht, hafter, Option.bind_some]

/-- The tokens of the arguments behind the first one. -/
def argumentTokens : List (List Token) → List Token
  | [] => [.rpar]
  | ts :: tss => .comma :: (ts ++ argumentTokens tss)

/-- The arguments of a call, one after the other. -/
theorem read_arguments {f : String} {distinct : Bool} {tss : List (List Token)}
    {ns : List PgNode} (h : List.Forall₂ Denotes tss ns) (done : List PgNode) {s : State}
    (hs : Resting (.call f distinct done :: st) n s) :
    (argumentTokens tss).foldlM step s =
      some ⟨st, .complete (.funcCall f (done ++ n :: ns) false distinct)⟩ := by
  induction h generalizing done n s with
  | nil => exact close_frame hs rfl rfl
  | @cons ts n' tss ns hn _ ih =>
    obtain ⟨s', hs', hrest⟩ := hn.read (.call f distinct (done ++ [n]) :: st)
    have hrest' := ih (done ++ [n]) hrest
    rw [argumentTokens, next_operand hs continues_comma rfl rfl, read_append hs', hrest']
    simp

theorem openCall_functionName {f : String} (hf : isFunctionName f = true) :
    openCall st f = some ⟨st, .arguments f⟩ := by
  have hne {w : String} (hw : isFunctionName w = false) : f ≠ w := by
    rintro rfl
    rw [hw] at hf
    cases hf
  rw [openCall, if_neg (hne (by decide)), if_neg (hne (by decide)), if_neg (hne (by decide)),
    if_pos hf]

theorem startOperand_functionName {f : String} (hf : isFunctionName f = true) :
    startOperand st (.word f) = some ⟨st, .word f⟩ := by
  simp only [isFunctionName, Bool.and_eq_true, decide_eq_true_eq] at hf
  exact startOperand_word hf.1.1

/-- The name of a function and the parenthesis. -/
theorem read_functionName {f : String} (hf : isFunctionName f = true) (us : List Token) :
    (Token.lpar :: us).foldlM step ⟨st, .word f⟩ = us.foldlM step ⟨st, .arguments f⟩ := by
  have hopen : step ⟨st, .word f⟩ .lpar = some ⟨st, .arguments f⟩ := openCall_functionName hf
  exact read_cons hopen us

/-- The first argument of a call. -/
theorem step_arguments {f : String} {t : Token} {s₁ : State}
    (h : startOperand (.call f false [] :: st) t = some s₁) :
    step ⟨st, .arguments f⟩ t = some s₁ := by
  have hstar : t ≠ .operator "*" := by
    rintro rfl
    rw [startOperand, if_neg (by decide)] at h
    cases h
  have hdistinct : t ≠ .word "distinct" := by
    rintro rfl
    rw [startOperand, if_pos (by decide)] at h
    cases h
  cases t with
  | rpar => cases h
  | _ => simpa [step, hstar, hdistinct] using h

theorem denotes_call {f : String} (hf : isFunctionName f = true) {tss : List (List Token)}
    {ns : List PgNode} (hn : Denotes ts n) (hns : List.Forall₂ Denotes tss ns) :
    Denotes (.word f :: .lpar :: (ts ++ argumentTokens tss))
      (.funcCall f (n :: ns) false false) := by
  refine ⟨_, _, rfl, fun st => ⟨_, _, startOperand_functionName hf, ?_, resting_complete st _⟩⟩
  obtain ⟨t, us, rfl, hn⟩ := hn
  obtain ⟨s₁, s, hstart, hfold, hrest⟩ := hn (.call f false [] :: st)
  have hargs := read_arguments hns [] hrest
  rw [read_functionName hf, List.cons_append, read_cons (step_arguments hstart), read_append hfold, hargs]
  rfl

theorem denotes_distinctCall {f : String} (hf : isFunctionName f = true)
    {tss : List (List Token)} {ns : List PgNode} (hn : Denotes ts n)
    (hns : List.Forall₂ Denotes tss ns) :
    Denotes (.word f :: .lpar :: .word "distinct" :: (ts ++ argumentTokens tss))
      (.funcCall f (n :: ns) false true) := by
  refine ⟨_, _, rfl, fun st => ⟨_, _, startOperand_functionName hf, ?_, resting_complete st _⟩⟩
  obtain ⟨s, hs, hrest⟩ := hn.read (.call f true [] :: st)
  have hargs := read_arguments hns [] hrest
  have hdistinct : step ⟨st, .arguments f⟩ (.word "distinct") =
      some ⟨.call f true [] :: st, .operand⟩ := rfl
  rw [read_functionName hf, read_cons hdistinct,
    read_append hs, hargs]
  rfl

theorem denotes_starCall {f : String} (hf : isFunctionName f = true) :
    Denotes [.word f, .lpar, .operator "*", .rpar] (.funcCall f [] true false) := by
  refine ⟨_, _, rfl, fun st => ⟨_, _, startOperand_functionName hf, ?_, resting_complete st _⟩⟩
  rw [read_functionName hf]
  rfl

theorem denotes_normalize (hn : Denotes ts n) :
    Denotes (.word "normalize" :: .lpar :: (ts ++ [.rpar]))
      (.funcCall "normalize" [n] false false) := by
  refine ⟨_, _, rfl, fun st => ⟨_, _, startOperand_word (by decide), ?_, resting_complete st _⟩⟩
  obtain ⟨s, hs, hrest⟩ := hn.read (.normalize :: st)
  have hopen : step ⟨st, .word "normalize"⟩ .lpar = some ⟨.normalize :: st, .operand⟩ := rfl
  rw [read_cons hopen, read_append hs]
  exact close_frame hrest rfl rfl

theorem denotes_extract {field : String} (hfield : isExtractField field = true)
    (hn : Denotes ts n) :
    Denotes (.word "extract" :: .lpar :: .word field :: .word "from" :: (ts ++ [.rpar]))
      (.funcCall "date_part" [.aConst (.string field), n] false false) := by
  refine ⟨_, _, rfl, fun st => ⟨_, _, startOperand_word (by decide), ?_, resting_complete st _⟩⟩
  obtain ⟨s, hs, hrest⟩ := hn.read (.extract field :: st)
  have hopen : step ⟨st, .word "extract"⟩ .lpar = some ⟨st, .extractStart⟩ := rfl
  have hword : step ⟨st, .extractStart⟩ (.word field) = some ⟨st, .extractField field⟩ :=
    if_pos hfield
  have hfrom : step ⟨st, .extractField field⟩ (.word "from") =
      some ⟨.extract field :: st, .operand⟩ := rfl
  rw [read_cons hopen, read_cons hword, read_cons hfrom, read_append hs]
  exact close_frame hrest rfl rfl

/-- The tokens of the string, the position and the length of a substring. -/
theorem read_substring (us : List Token) :
    (Token.lpar :: us).foldlM step ⟨st, .word "substring"⟩ =
      us.foldlM step ⟨.substring [] :: st, .operand⟩ := by
  have hopen : step ⟨st, .word "substring"⟩ .lpar = some ⟨.substring [] :: st, .operand⟩ := rfl
  exact read_cons hopen us

theorem denotes_substring (hn : Denotes ts n) :
    Denotes (.word "substring" :: .lpar :: (ts ++ [.rpar]))
      (.funcCall "substring" [n] false false) := by
  refine ⟨_, _, rfl, fun st => ⟨_, _, startOperand_word (by decide), ?_, resting_complete st _⟩⟩
  obtain ⟨s, hs, hrest⟩ := hn.read (.substring [] :: st)
  rw [read_substring, read_append hs]
  exact close_frame hrest rfl rfl

theorem denotes_substringFrom (hl : Denotes ts l) (hn : Denotes us n) :
    Denotes (.word "substring" :: .lpar :: (ts ++ .word "from" :: (us ++ [.rpar])))
      (.funcCall "substring" [l, n] false false) := by
  refine ⟨_, _, rfl, fun st => ⟨_, _, startOperand_word (by decide), ?_, resting_complete st _⟩⟩
  obtain ⟨s₁, hs₁, hrest₁⟩ := hl.read (.substring [] :: st)
  obtain ⟨s, hs, hrest⟩ := hn.read (.substringFrom l :: st)
  rw [read_substring, read_append hs₁,
    next_operand hrest₁ continues_from rfl rfl, read_append hs]
  exact close_frame hrest rfl rfl

theorem denotes_substringFor {vs : List Token} (hl : Denotes ts l) (hr : Denotes us r)
    (hn : Denotes vs n) :
    Denotes (.word "substring" :: .lpar ::
        (ts ++ .word "from" :: (us ++ .word "for" :: (vs ++ [.rpar]))))
      (.funcCall "substring" [l, r, n] false false) := by
  refine ⟨_, _, rfl, fun st => ⟨_, _, startOperand_word (by decide), ?_, resting_complete st _⟩⟩
  obtain ⟨s₁, hs₁, hrest₁⟩ := hl.read (.substring [] :: st)
  obtain ⟨s₂, hs₂, hrest₂⟩ := hr.read (.substringFrom l :: st)
  obtain ⟨s, hs, hrest⟩ := hn.read (.substringFor l r :: st)
  rw [read_substring, read_append hs₁,
    next_operand hrest₁ continues_from rfl rfl, read_append hs₂, next_operand hrest₂ continues_for rfl rfl, read_append hs]
  exact close_frame hrest rfl rfl

theorem typeOfWord_reserved : ∀ w ∈ reserved, typeOfWord w = none := by decide +kernel

theorem startOperand_type {w type : String} (h : typeOfWord w = some type) :
    startOperand st (.word w) = some ⟨st, .word w⟩ := by
  apply startOperand_word
  intro hres
  rw [typeOfWord_reserved w hres] at h
  cases h

theorem denotes_typed {w type : String} (s : String) (h : typeOfWord w = some type)
    (hw : w ≠ "interval") :
    Denotes [.word w, .string s] (.typeCast type none (.aConst (.string s))) := by
  refine ⟨_, _, rfl, fun st => ⟨_, _, startOperand_type h, ?_, resting_complete st _⟩⟩
  have hstep : step ⟨st, .word w⟩ (.string s) =
      some ⟨st, .complete (.typeCast type none (.aConst (.string s)))⟩ := by
    show typedConstant st w s = _
    rw [typedConstant, h, Option.map_some, if_neg hw]
  rw [read_cons hstep]
  rfl

theorem denotes_interval (s : String) :
    Denotes [.word "interval", .string s] (.typeCast "interval" none (.aConst (.string s))) := by
  refine ⟨_, _, rfl, fun st => ⟨_, ⟨st, .interval s⟩, startOperand_word (by decide), rfl, ?_, rfl⟩⟩
  intro t ht
  cases t with
  | operator o | rpar | comma => rfl
  | word w => rcases ht with rfl | rfl <;> rfl
  | _ => cases ht

theorem denotes_intervalUnit {unit : String} {mask : Int} (s : String)
    (h : intervalMask unit = some mask) :
    Denotes [.word "interval", .string s, .word unit]
      (.typeCast "interval" (some mask) (.aConst (.string s))) := by
  refine ⟨_, _, rfl, fun st => ⟨_, _, startOperand_word (by decide), ?_, resting_complete st _⟩⟩
  have hstep : step ⟨st, .interval s⟩ (.word unit) =
      some ⟨st, .complete (.typeCast "interval" (some mask) (.aConst (.string s)))⟩ := by
    simp [step, h]
  have hopen : step ⟨st, .word "interval"⟩ (.string s) = some ⟨st, .interval s⟩ := rfl
  rw [read_cons hopen, read_cons hstep]
  rfl

/-! ### The text of an operand -/

theorem scan_of_rendering {cs : List Char} {m : Scanner.Mode} (h : Renderings.Rendering cs m ts) :
    Scanner.scan (String.ofList cs) = some ts := by
  obtain ⟨first, last, hlast, rfl, hout⟩ := h.output_eq
  have hend := hout []
  rw [List.append_nil, Logic.Transducers.output, hlast] at hend
  rw [Scanner.scan, String.toList_ofList, hend]
  rfl

/-- The tree of a text that is scanned as one operand. -/
theorem readExpression_of_rendering {cs : List Char} {m : Scanner.Mode}
    (h : Renderings.Rendering cs m ts) (hn : Denotes ts n) :
    readExpression (String.ofList cs) = some n := by
  obtain ⟨s, hs, hrest⟩ := hn.read []
  rw [readExpression, scan_of_rendering h]
  show (ts.foldlM step ⟨[], .operand⟩).bind finish = some n
  rw [hs, Option.bind_some, hrest.finish_eq]
  rfl

end SqlOptimizer.Postgres.Operands
