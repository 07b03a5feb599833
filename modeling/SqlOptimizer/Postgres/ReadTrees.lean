import SqlOptimizer.Logic.Runs
import SqlOptimizer.Postgres.ExpressionGrammar
import SqlOptimizer.Postgres.ScannedTokens

/-!
What the grammar makes of any tokens: every tree it reads has names, operators and constants
that it could be printed from.
-/

set_option autoImplicit false
set_option relaxedAutoImplicit false

namespace SqlOptimizer.Postgres.ReadTrees

open Parse.PgQuery (PgNode)
open Scanner Lexemes ScannedTokens Keywords ExpressionGrammar

/-- The text of a number with a sign, which is not an integer. -/
def isNumeral (s : String) : Bool :=
  match s.toList with
  | '-' :: ds => isFloat (String.ofList ds)
  | _ => isFloat s

def isNumberNode : PgNode → Bool
  | .aConst (.integer _) | .aConst (.float _) => true
  | _ => false

/-- The trees that the rules build. -/
inductive Grammatical : PgNode → Prop
  | column {w : String} (hw : isWord w = true) (hcol : isColId w = true) :
      Grammatical (.columnRef [w])
  | qualified {w x : String} (hw : isWord w = true) (hcol : isColId w = true)
      (hx : isWord x = true) : Grammatical (.columnRef [w, x])
  | star {w : String} (hw : isWord w = true) (hcol : isColId w = true) :
      Grammatical (.columnRef [w, "*"])
  | integer {n : Int} (hn : n.natAbs < 2 ^ 31) : Grammatical (.aConst (.integer n))
  | float {s : String} (hs : isNumeral s = true) : Grammatical (.aConst (.float s))
  | string (s : String) : Grammatical (.aConst (.string s))
  | unary {o : String} {e : PgNode} (ho : isOperator o = true) (hunary : isUnaryOp o = true)
      (hnumber : o = "-" → isNumberNode e = false) (he : Grammatical e) :
      Grammatical (.aExpr .op o .nullptr e)
  | trailing {o : String} {e : PgNode} (ho : isOperator o = true) (hmath : isMathOp o = false)
      (he : Grammatical e) : Grammatical (.aExpr .op o e .nullptr)
  | binary {o : String} {l r : PgNode} (ho : isOperator o = true) (hl : Grammatical l)
      (hr : Grammatical r) : Grammatical (.aExpr .op o l r)
  | call {f : String} {args : List PgNode} (distinct : Bool) (hf : isWord f = true)
      (hname : isFunctionName f = true) (hargs : ∀ a ∈ args, Grammatical a) :
      Grammatical (.funcCall f args false distinct)
  | callStar {f : String} (hf : isWord f = true) (hname : isFunctionName f = true) :
      Grammatical (.funcCall f [] true false)
  | normalize {e : PgNode} (he : Grammatical e) :
      Grammatical (.funcCall "normalize" [e] false false)
  | substring {args : List PgNode} (hargs : ∀ a ∈ args, Grammatical a) :
      Grammatical (.funcCall "substring" args false false)
  | extract (field : String) {e : PgNode} (he : Grammatical e) :
      Grammatical (.funcCall "date_part" [.aConst (.string field), e] false false)
  | typed {w type : String} (s : String) (hw : isWord w = true)
      (htype : typeOfWord w = some type) :
      Grammatical (.typeCast type none (.aConst (.string s)))
  | interval {unit : String} {mask : Int} (s : String) (hmask : intervalMask unit = some mask) :
      Grammatical (.typeCast "interval" (some mask) (.aConst (.string s)))

/-- What an open construct holds is as the rules build it. -/
def FrameOk : Frame → Prop
  | .unary o => isOperator o = true ∧ isUnaryOp o = true
  | .binary l o => Grammatical l ∧ isOperator o = true
  | .call f _ args => isWord f = true ∧ isFunctionName f = true ∧ ∀ a ∈ args, Grammatical a
  | .substring args => ∀ a ∈ args, Grammatical a
  | .substringFrom a => Grammatical a
  | .substringFor a b => Grammatical a ∧ Grammatical b
  | .paren | .normalize | .extract _ => True

def PositionOk : Position → Prop
  | .word w => isWord w = true
  | .qualified w => isWord w = true ∧ isColId w = true
  | .arguments f | .star f => isWord f = true ∧ isFunctionName f = true
  | .operator l o => Grammatical l ∧ isOperator o = true ∧ isMathOp o = false
  | .complete e => Grammatical e
  | .operand | .extractStart | .extractField _ | .interval _ => True

def StateOk (s : State) : Prop := (∀ fr ∈ s.stack, FrameOk fr) ∧ PositionOk s.position

theorem head_of_isFloat {ds : List Char} (h : isFloat (String.ofList ds) = true) :
    ∀ ds', ds ≠ '-' :: ds' := by
  rintro ds' rfl
  rw [isFloat, String.toList_ofList] at h
  exact absurd (Bool.and_eq_true _ _ ▸ h).1 (by simp [startsNumber])

theorem isNumeral_of_isFloat {s : String} (h : isFloat s = true) : isNumeral s = true := by
  unfold isNumeral
  split
  · rename_i ds hs
    exact absurd hs (head_of_isFloat (by rwa [String.ofList_toList]) ds)
  · exact h

theorem isNumeral_doNegateFloat {s : String} (h : isNumeral s = true) :
    isNumeral (doNegateFloat s) = true := by
  unfold isNumeral at h
  split at h
  · rename_i ds hs
    have hneg : doNegateFloat s = String.ofList ds := by simp [doNegateFloat, hs]
    rw [hneg]
    exact isNumeral_of_isFloat h
  · rename_i hs
    have hneg : doNegateFloat s = String.ofList ('-' :: s.toList) := by
      unfold doNegateFloat
      split
      · rename_i ds hds
        exact absurd hds (hs ds)
      · rfl
    rw [hneg, isNumeral, String.toList_ofList]
    simpa using h

theorem doNegate_of_not_number {e : PgNode} (h : isNumberNode e = false) :
    doNegate e = .aExpr .op "-" .nullptr e := by
  cases e with
  | aConst val => cases val <;> first | rfl | cases h
  | _ => rfl

theorem grammatical_makeUnary {o : String} {e : PgNode} (ho : FrameOk (.unary o))
    (he : Grammatical e) : Grammatical (makeUnary o e) := by
  unfold makeUnary
  split
  · rename_i hminus
    by_cases hnumber : isNumberNode e = true
    · cases he with
      | integer hn => exact .integer (by simpa using hn)
      | float hs => exact .float (isNumeral_doNegateFloat hs)
      | _ => cases hnumber
    · rw [Bool.not_eq_true] at hnumber
      rw [doNegate_of_not_number hnumber]
      exact .unary (hminus ▸ ho.1) (hminus ▸ ho.2) (fun _ => hnumber) he
  · rename_i hminus
    exact .unary ho.1 ho.2 (fun h => absurd h hminus) he

/-- An open operator takes its operand. -/
theorem reduce_ok (level : Nat) {st : List Frame} {e : PgNode} (hst : ∀ fr ∈ st, FrameOk fr)
    (he : Grammatical e) :
    (∀ fr ∈ (reduce level st e).1, FrameOk fr) ∧ Grammatical (reduce level st e).2 := by
  induction st generalizing e with
  | nil => exact ⟨hst, he⟩
  | cons fr st ih =>
    obtain ⟨hfr, hst'⟩ := List.forall_mem_cons.mp hst
    cases fr with
    | unary o =>
      rw [reduce]
      split
      · exact ih hst' (grammatical_makeUnary hfr he)
      · exact ⟨hst, he⟩
    | binary l o =>
      rw [reduce]
      split
      · exact ih hst' (.binary hfr.2 hfr.1 he)
      · exact ⟨hst, he⟩
    | _ => exact ⟨hst, he⟩

theorem node_ok {p : Position} (hp : PositionOk p) {e : PgNode} (h : p.node = some e) :
    Grammatical e := by
  cases p with
  | word w =>
    rw [Position.node] at h
    split at h
    · rename_i hcol
      cases h
      exact .column hp hcol
    · cases h
  | interval s =>
    cases h
    exact .typed (w := "interval") s (by decide) (by decide)
  | operator l o =>
    cases h
    exact .trailing hp.2.1 hp.2.2 hp.1
  | complete e =>
    cases h
    exact hp
  | _ => cases h

theorem startOperand_ok {st : List Frame} {t : Token} {s' : State} (ht : Valid t)
    (hst : ∀ fr ∈ st, FrameOk fr) (h : startOperand st t = some s') : StateOk s' := by
  cases t with
  | word w =>
    rw [startOperand] at h
    split at h
    · cases h
    · cases h
      exact ⟨hst, ht⟩
  | integer n =>
    cases h
    exact ⟨hst, .integer ht⟩
  | float s =>
    cases h
    exact ⟨hst, .float (isNumeral_of_isFloat ht)⟩
  | string s =>
    cases h
    exact ⟨hst, .string s⟩
  | operator o =>
    rw [startOperand] at h
    split at h
    · rename_i hunary
      cases h
      exact ⟨List.forall_mem_cons.mpr ⟨⟨ht, hunary⟩, hst⟩, trivial⟩
    · cases h
  | lpar =>
    cases h
    exact ⟨List.forall_mem_cons.mpr ⟨trivial, hst⟩, trivial⟩
  | rpar | comma | dot => cases h

/-- An operator behind an operand puts it on the stack or waits behind it. -/
theorem pushOperator_cases {st : List Frame} {e : PgNode} {o : String} {s' : State}
    (h : pushOperator st e o = some s') :
    ∃ level, s' = ⟨.binary (reduce level st e).2 o :: (reduce level st e).1, .operand⟩ ∨
      isMathOp o = false ∧ s' = ⟨(reduce level st e).1, .operator (reduce level st e).2 o⟩ := by
  unfold pushOperator at h
  split at h
  · unfold pushMathOp at h
    split at h
    · split at h
      · cases h
      · rename_i heq
        cases h
        exact ⟨2, .inl (by rw [heq])⟩
    · cases h
      exact ⟨binaryLevel o, .inl rfl⟩
  · rename_i hmath
    cases h
    exact ⟨2, .inr ⟨by simpa using hmath, rfl⟩⟩

theorem pushOperator_ok {st : List Frame} {e : PgNode} {o : String} {s' : State}
    (hst : ∀ fr ∈ st, FrameOk fr) (he : Grammatical e) (ho : isOperator o = true)
    (h : pushOperator st e o = some s') : StateOk s' := by
  obtain ⟨level, rfl | ⟨hmath, rfl⟩⟩ := pushOperator_cases h
  · obtain ⟨hst', he'⟩ := reduce_ok level hst he
    exact ⟨List.forall_mem_cons.mpr ⟨⟨he', ho⟩, hst'⟩, trivial⟩
  · obtain ⟨hst', he'⟩ := reduce_ok level hst he
    exact ⟨hst', he', ho, hmath⟩

theorem closedBy_ok {fr : Frame} {e n : PgNode} (hfr : FrameOk fr) (he : Grammatical e)
    (h : closedBy e fr = some n) : Grammatical n := by
  have hconcat {args : List PgNode} (hargs : ∀ a ∈ args, Grammatical a) :
      ∀ a ∈ args ++ [e], Grammatical a := by
    intro a ha
    rcases List.mem_append.mp ha with ha | ha
    · exact hargs a ha
    · exact List.mem_singleton.mp ha ▸ he
  cases fr <;> cases h
  case paren => exact he
  case call f distinct args => exact .call distinct hfr.1 hfr.2.1 (hconcat hfr.2.2)
  case normalize => exact .normalize he
  case substring args => exact .substring (hconcat hfr)
  case substringFrom a => exact .substring (by simpa using ⟨hfr, he⟩)
  case substringFor a b => exact .substring (by simpa using ⟨hfr.1, hfr.2, he⟩)
  case extract field => exact .extract field he

theorem nextFrame_ok {fr fr' : Frame} {e : PgNode} {t : Token} (hfr : FrameOk fr)
    (he : Grammatical e) (h : nextFrame e fr t = some fr') : FrameOk fr' := by
  have hconcat {args : List PgNode} (hargs : ∀ a ∈ args, Grammatical a) :
      ∀ a ∈ args ++ [e], Grammatical a := by
    intro a ha
    rcases List.mem_append.mp ha with ha | ha
    · exact hargs a ha
    · exact List.mem_singleton.mp ha ▸ he
  unfold nextFrame at h
  split at h
  · cases h
    exact ⟨hfr.1, hfr.2.1, hconcat hfr.2.2⟩
  · cases h
    exact hconcat hfr
  · split at h <;> cases h
    exact he
  · split at h <;> cases h
    exact ⟨hfr, he⟩
  · cases h

/-- A token behind the last operand closes the construct or goes on with it. -/
theorem endOperand_cases {t : Token} {p : List Frame × PgNode} {s' : State}
    (h : endOperand t p = some s') :
    ∃ fr st e, p = (fr :: st, e) ∧
      ((∃ n, t = .rpar ∧ closedBy e fr = some n ∧ s' = ⟨st, .complete n⟩) ∨
        ∃ fr', t ≠ .rpar ∧ nextFrame e fr t = some fr' ∧ s' = ⟨fr' :: st, .operand⟩) := by
  obtain ⟨st, e⟩ := p
  cases st with
  | nil => cases h
  | cons fr st =>
    rw [endOperand] at h
    refine ⟨fr, st, e, rfl, ?_⟩
    split at h
    · rename_i ht
      obtain ⟨n, hn, rfl⟩ := Option.map_eq_some_iff.mp h
      exact .inl ⟨n, ht, hn, rfl⟩
    · rename_i ht
      obtain ⟨fr', hfr', rfl⟩ := Option.map_eq_some_iff.mp h
      exact .inr ⟨fr', ht, hfr', rfl⟩

theorem afterOperand_cases {st : List Frame} {e : PgNode} {t : Token} {s' : State}
    (h : afterOperand st e t = some s') :
    (∃ o, t = .operator o ∧ pushOperator st e o = some s') ∨
      endOperand t (reduce 0 st e) = some s' := by
  cases t with
  | operator o => exact .inl ⟨o, rfl, h⟩
  | _ => exact .inr h

theorem afterOperand_ok {st : List Frame} {e : PgNode} {t : Token} {s' : State} (ht : Valid t)
    (hst : ∀ fr ∈ st, FrameOk fr) (he : Grammatical e) (h : afterOperand st e t = some s') :
    StateOk s' := by
  rcases afterOperand_cases h with ⟨o, rfl, h⟩ | h
  · exact pushOperator_ok hst he ht h
  · obtain ⟨hst', he'⟩ := reduce_ok 0 hst he
    obtain ⟨fr, st', e', hred, ⟨n, -, hn, rfl⟩ | ⟨fr', -, hfr', rfl⟩⟩ := endOperand_cases h
    all_goals
      rw [hred] at hst' he'
      obtain ⟨hfr, hst'⟩ := List.forall_mem_cons.mp hst'
    · exact ⟨hst', closedBy_ok hfr he' hn⟩
    · exact ⟨List.forall_mem_cons.mpr ⟨nextFrame_ok hfr he' hfr', hst'⟩, trivial⟩

/-! ### The steps -/

/-- The steps that only change the position. -/
inductive Moves : Position → Token → Position → Prop
  | qualified {w : String} (hcol : isColId w = true) : Moves (.word w) .dot (.qualified w)
  | extractStart : Moves (.word "extract") .lpar .extractStart
  | arguments {w : String} (hname : isFunctionName w = true) :
      Moves (.word w) .lpar (.arguments w)
  | interval (s : String) : Moves (.word "interval") (.string s) (.interval s)
  | typed {w type : String} (s : String) (htype : typeOfWord w = some type) :
      Moves (.word w) (.string s) (.complete (.typeCast type none (.aConst (.string s))))
  | column (w x : String) : Moves (.qualified w) (.word x) (.complete (.columnRef [w, x]))
  | columnStar (w : String) :
      Moves (.qualified w) (.operator "*") (.complete (.columnRef [w, "*"]))
  | noArguments (f : String) :
      Moves (.arguments f) .rpar (.complete (.funcCall f [] false false))
  | star (f : String) : Moves (.arguments f) (.operator "*") (.star f)
  | closeStar (f : String) : Moves (.star f) .rpar (.complete (.funcCall f [] true false))
  | wordField {w : String} (hw : isExtractField w = true) :
      Moves .extractStart (.word w) (.extractField w)
  | stringField (s : String) : Moves .extractStart (.string s) (.extractField s)
  | unit {w : String} {mask : Int} (s : String) (hmask : intervalMask w = some mask) :
      Moves (.interval s) (.word w)
        (.complete (.typeCast "interval" (some mask) (.aConst (.string s))))

/-- The steps that open a construct and wait for its operand. -/
inductive Pushes : Position → Token → Frame → Prop
  | substring : Pushes (.word "substring") .lpar (.substring [])
  | normalize : Pushes (.word "normalize") .lpar .normalize
  | distinct (f : String) : Pushes (.arguments f) (.word "distinct") (.call f true [])
  | extract (field : String) : Pushes (.extractField field) (.word "from") (.extract field)

/-- The construct that is open before the first token of an operand. -/
inductive Opens : Position → List Frame → Prop
  | operand : Opens .operand []
  | arguments (f : String) : Opens (.arguments f) [.call f false []]
  | operator (l : PgNode) (o : String) : Opens (.operator l o) [.binary l o]

/-- What a step does: it starts an operand, goes on behind one, opens a construct or moves
on inside one. -/
theorem step_cases {s : State} {t : Token} {s' : State} (h : step s t = some s') :
    (∃ frs, Opens s.position frs ∧ startOperand (frs ++ s.stack) t = some s') ∨
      (∃ e, s.position.node = some e ∧ afterOperand s.stack e t = some s') ∨
      (∃ fr, Pushes s.position t fr ∧ s' = ⟨fr :: s.stack, .operand⟩) ∨
      ∃ p, Moves s.position t p ∧ s' = ⟨s.stack, p⟩ := by
  obtain ⟨st, p⟩ := s
  have hcontinue (h : continueOperand ⟨st, p⟩ t = some s') :
      ∃ e, p.node = some e ∧ afterOperand st e t = some s' := Option.bind_eq_some_iff.mp h
  have hmove {p'} (hp : Moves p t p') (h : some ⟨st, p'⟩ = some s') :
      ∃ p', Moves p t p' ∧ s' = ⟨st, p'⟩ := ⟨p', hp, (Option.some.inj h).symm⟩
  have hpush {fr} (hp : Pushes p t fr) (h : some ⟨fr :: st, .operand⟩ = some s') :
      ∃ fr, Pushes p t fr ∧ s' = ⟨fr :: st, .operand⟩ := ⟨fr, hp, (Option.some.inj h).symm⟩
  cases p with
  | operand => exact .inl ⟨[], .operand, h⟩
  | complete e => exact .inr (.inl (hcontinue h))
  | word w =>
    cases t with
    | lpar =>
      replace h : openCall st w = some s' := h
      unfold openCall at h
      split_ifs at h with hextract hsubstring hnormalize hname
      · subst hextract
        exact .inr (.inr (.inr (hmove .extractStart h)))
      · subst hsubstring
        exact .inr (.inr (.inl (hpush .substring h)))
      · subst hnormalize
        exact .inr (.inr (.inl (hpush .normalize h)))
      · exact .inr (.inr (.inr (hmove (.arguments hname) h)))
    | dot =>
      simp only [ExpressionGrammar.step] at h
      split at h
      · rename_i hcol
        exact .inr (.inr (.inr (hmove (.qualified hcol) h)))
      · cases h
    | string str =>
      obtain ⟨type, htype, heq⟩ := Option.map_eq_some_iff.mp h
      split at heq
      · rename_i hinterval
        subst hinterval
        exact .inr (.inr (.inr (hmove (.interval str) (congrArg some heq))))
      · exact .inr (.inr (.inr (hmove (.typed str htype) (congrArg some heq))))
    | _ => exact .inr (.inl (hcontinue h))
  | qualified w =>
    cases t with
    | word x => exact .inr (.inr (.inr (hmove (.column w x) h)))
    | operator o =>
      simp only [ExpressionGrammar.step] at h
      split at h
      · rename_i hstar
        subst hstar
        exact .inr (.inr (.inr (hmove (.columnStar w) h)))
      · cases h
    | _ => cases h
  | arguments f =>
    by_cases hrpar : t = .rpar
    · subst hrpar
      exact .inr (.inr (.inr (hmove (.noArguments f) h)))
    · have hargs : (if t = .operator "*" then some (State.mk st (.star f))
          else if t = .word "distinct" then some ⟨.call f true [] :: st, .operand⟩
          else startOperand (.call f false [] :: st) t) = some s' := by
        cases t with
        | rpar => exact absurd rfl hrpar
        | _ => exact h
      split_ifs at hargs with hstar hdistinct
      · subst hstar
        exact .inr (.inr (.inr (hmove (.star f) hargs)))
      · subst hdistinct
        exact .inr (.inr (.inl (hpush (.distinct f) hargs)))
      · exact .inl ⟨_, .arguments f, hargs⟩
  | star f =>
    simp only [ExpressionGrammar.step] at h
    split at h
    · rename_i ht
      subst ht
      exact .inr (.inr (.inr (hmove (.closeStar f) h)))
    · cases h
  | extractStart =>
    cases t with
    | word w =>
      simp only [ExpressionGrammar.step] at h
      split at h
      · rename_i hw
        exact .inr (.inr (.inr (hmove (.wordField hw) h)))
      · cases h
    | string str => exact .inr (.inr (.inr (hmove (.stringField str) h)))
    | _ => cases h
  | extractField field =>
    simp only [ExpressionGrammar.step] at h
    split at h
    · rename_i ht
      subst ht
      exact .inr (.inr (.inl (hpush (.extract field) h)))
    · cases h
  | interval str =>
    cases t with
    | word w =>
      simp only [ExpressionGrammar.step] at h
      split at h
      · rename_i mask hmask
        exact .inr (.inr (.inr (hmove (.unit str hmask) h)))
      · exact .inr (.inl (hcontinue h))
    | _ => exact .inr (.inl (hcontinue h))
  | operator l o =>
    simp only [ExpressionGrammar.step] at h
    split at h
    · exact .inl ⟨_, .operator l o, h⟩
    · exact .inr (.inl (hcontinue h))

/-! ### The trees are grammatical -/

theorem moves_ok {p p' : Position} {t : Token} (ht : Valid t) (hp : PositionOk p)
    (h : Moves p t p') : PositionOk p' := by
  cases h with
  | qualified hcol => exact ⟨hp, hcol⟩
  | arguments hname => exact ⟨hp, hname⟩
  | typed s htype => exact .typed s hp htype
  | column w x => exact .qualified hp.1 hp.2 ht
  | columnStar w => exact .star hp.1 hp.2
  | noArguments f => exact .call false hp.1 hp.2 (by simp)
  | star f => exact hp
  | closeStar f => exact .callStar hp.1 hp.2
  | unit s hmask => exact .interval s hmask
  | extractStart | interval s | wordField hw | stringField s => trivial

theorem pushes_ok {p : Position} {t : Token} {fr : Frame} (hp : PositionOk p)
    (h : Pushes p t fr) : FrameOk fr := by
  cases h with
  | substring => simp [FrameOk]
  | distinct f => exact ⟨hp.1, hp.2, by simp⟩
  | normalize | extract field => trivial

theorem opens_ok {p : Position} {frs : List Frame} (hp : PositionOk p) (h : Opens p frs) :
    ∀ fr ∈ frs, FrameOk fr := by
  cases h with
  | operand => simp
  | arguments f => simpa [FrameOk, PositionOk] using hp
  | operator l o => simpa [FrameOk] using ⟨hp.1, hp.2.1⟩

theorem step_ok {s : State} {t : Token} {s' : State} (ht : Valid t) (hs : StateOk s)
    (h : step s t = some s') : StateOk s' := by
  obtain ⟨hst, hp⟩ := hs
  rcases step_cases h with ⟨frs, hopens, h⟩ | ⟨e, he, h⟩ | ⟨fr, hpush, rfl⟩ | ⟨p, hmove, rfl⟩
  · refine startOperand_ok ht (fun fr hfr => ?_) h
    rcases List.mem_append.mp hfr with hfr | hfr
    · exact opens_ok hp hopens fr hfr
    · exact hst fr hfr
  · exact afterOperand_ok ht hst (node_ok hp he) h
  · exact ⟨List.forall_mem_cons.mpr ⟨pushes_ok hp hpush, hst⟩, trivial⟩
  · exact ⟨hst, moves_ok ht hp hmove⟩

/-- What an invariant of the steps gives for the tree that is read. -/
theorem readFrom_cases {I : State → Prop} {s : State} {ts : List Token} {e : PgNode}
    (hI : ∀ t ∈ ts, ∀ s s', I s → step s t = some s' → I s') (hs : I s)
    (h : readFrom s ts = some e) : ∃ s', I s' ∧ finish s' = some e := by
  induction ts generalizing s with
  | nil => exact ⟨s, hs, h⟩
  | cons t ts ih =>
    obtain ⟨s', hfold, hfinish⟩ := Option.bind_eq_some_iff.mp h
    rw [List.foldlM_cons, Option.bind_eq_bind, Option.bind_eq_some_iff] at hfold
    obtain ⟨s₁, hstep, hfold⟩ := hfold
    exact ih (fun u hu => hI u (List.mem_cons_of_mem _ hu))
      (hI t List.mem_cons_self s s₁ hs hstep) (Option.bind_eq_some_iff.mpr ⟨s', hfold, hfinish⟩)

theorem finish_cases {s : State} {e : PgNode} (h : finish s = some e) :
    ∃ e₀, s.position.node = some e₀ ∧ reduce 0 s.stack e₀ = ([], e) := by
  obtain ⟨e₀, he₀, h⟩ := Option.bind_eq_some_iff.mp h
  split at h
  · rename_i heq
    cases h
    exact ⟨e₀, he₀, heq⟩
  · cases h

theorem grammatical_of_readExpression {text : String} {e : PgNode}
    (h : readExpression text = some e) : Grammatical e := by
  obtain ⟨ts, hts, h⟩ := Option.bind_eq_some_iff.mp h
  obtain ⟨s', ⟨hst, hp⟩, hfinish⟩ := readFrom_cases (I := StateOk)
    (fun t ht s s' hs hstep => step_ok (valid_of_scan hts t ht) hs hstep)
    (show StateOk initial from ⟨by simp [initial], trivial⟩) h
  obtain ⟨e₀, he₀, hred⟩ := finish_cases hfinish
  have hok := (reduce_ok 0 hst (node_ok hp he₀)).2
  rwa [hred] at hok

end SqlOptimizer.Postgres.ReadTrees
