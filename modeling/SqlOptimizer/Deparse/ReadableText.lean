import SqlOptimizer.Deparse.ExpressionText
import SqlOptimizer.Postgres.ReadStrings

/-!
Printable expressions are read back: the text of each is an operand of its own, from the
constants and columns up to the calls.
-/

set_option autoImplicit false
set_option relaxedAutoImplicit false

namespace SqlOptimizer.Deparse.ReadableText

open Algebra.RelationalAlgebra
open Parse.PgQuery Parse.Builder Parse.ParseSqlToRa
open DeparseRaToSql ExpressionText
open Logic.Transducers
open Postgres.Scanner (Mode Token digitsValue isSpecial)
open Postgres.Keywords
open Postgres.ExpressionGrammar
open Postgres.Lexemes
open Postgres.ReadTrees (isNumeral isNumberNode head_of_isFloat doNegate_of_not_number)
open Postgres.ReadStrings (stringQuotes fieldQuotes)
open Postgres.Renderings
open Postgres.Operands

mutual

/-- The quotes of a text that is read as the expression. -/
def exprQuotes : Expr → Nat
  | .constant data .string => stringQuotes data
  | .expression lArg rArg _ => exprQuotes lArg + exprQuotes rArg
  | .funcCall funcName args _ _ =>
      if funcName = "extract" then fieldArgQuotes args else argQuotes args
  | .typeCast _ _ e => exprQuotes e
  | _ => 0

/-- The first argument is the field of an extract. -/
def fieldArgQuotes : List Expr → Nat
  | [] => 0
  | .constant field .string :: es => fieldQuotes field + argQuotes es
  | e :: es => exprQuotes e + argQuotes es

def argQuotes : List Expr → Nat
  | [] => 0
  | e :: es => exprQuotes e + argQuotes es

end

/-- How the text of an expression starts and ends. -/
structure Edges (e : Expr) (cs : List Char) (m : Mode) (ts : List Token) : Prop where
  first : if isSigned e = true then StartsMinus cs else StartsPlain cs
  quote : cs.head? = some '\'' ↔ isString e = true
  word : ∀ w, ts.head? = some (.word w) ↔ firstWord e = some w
  star : m = .operator ['*'] ↔ lastName e = some "*"
  unicode : m = .word ['u'] ↔ lastName e = some "u"

/-- The text of an expression and the node that PostgreSQL reads. -/
structure Readable (subs : Nat → Option Subquery) (e : Expr) (text : String) (m : Mode)
    (ts : List Token) (n : PgNode) : Prop where
  deparse_eq : deparseExpression subs e = some text
  rendering : Rendering text.toList m ts
  denotes : Denotes ts n
  yields : Yields n e
  edges : Edges e text.toList m ts
  quotes : text.toList.count '\'' ≤ exprQuotes e

variable {subs : Nat → Option Subquery}

/-- The node that is read makes the expression again. -/
theorem Readable.readsBack {e : Expr} {text : String} {m : Mode} {ts : List Token} {n : PgNode}
    (h : Readable subs e text m ts n) : ReadsBack subs e := by
  have hread := readExpression_of_rendering h.rendering h.denotes
  rw [String.ofList_toList] at hread
  exact ⟨text, n, h.deparse_eq, hread, h.yields.parse⟩

/-! ### Columns -/

/-- A text that starts with a word. -/
theorem Edges.of_word {e : Expr} {w : String} {cs : List Char} {m : Mode} {ts : List Token}
    (hw : isWord w = true) (hsigned : isSigned e = false) (hstring : isString e = false)
    (hword : firstWord e = some w) (hstar : m = .operator ['*'] ↔ lastName e = some "*")
    (hunicode : m = .word ['u'] ↔ lastName e = some "u") :
    Edges e (w.toList ++ cs) m (.word w :: ts) := by
  have hplain := (startsPlain_word hw).append cs
  refine ⟨by rwa [hsigned, if_neg (by simp)], ?_, ?_, hstar, hunicode⟩
  · obtain ⟨c, cs', hcs, -⟩ := isWord_cases hw
    have hquote := head_word_ne_quote hw
    rw [hcs] at hquote ⊢
    rw [hstring]
    exact iff_of_false hquote (by simp)
  · intro x
    rw [hword]
    simp

theorem count_quotes_word {w : String} (hw : isWord w = true) : w.toList.count '\'' = 0 := by
  obtain ⟨c, cs, hcs, hc, hcont, -⟩ := isWord_cases hw
  rw [List.count_eq_zero, hcs]
  intro hmem
  rcases List.mem_cons.mp hmem with rfl | hmem
  · exact absurd hc (by decide)
  · exact absurd (hcont _ hmem) (by decide)

theorem toList_eq_singleton {s : String} {c : Char} : s.toList = [c] ↔ s = String.ofList [c] := by
  constructor
  · intro h
    rw [← h, String.ofList_toList]
  · rintro rfl
    exact String.toList_ofList

/-- A text that ends in a name. -/
theorem lastName_word {name aliasName : String} (hname : isWord name = true) :
    (Mode.word name.toList = .operator ['*'] ↔
        lastName (.attribute name aliasName) = some "*") ∧
      (Mode.word name.toList = .word ['u'] ↔ lastName (.attribute name aliasName) = some "u") := by
  have hstar : name ≠ "*" := by
    rintro rfl
    exact absurd hname (by decide)
  refine ⟨iff_of_false (by rintro ⟨⟩) (by simpa [lastName] using hstar), ?_⟩
  rw [Mode.word.injEq, toList_eq_singleton, lastName, Option.some.injEq]

theorem exists_readable_attribute {name aliasName : String}
    (h : isColumn name aliasName = true) :
    ∃ text m ts n, Readable subs (.attribute name aliasName) text m ts n := by
  unfold isColumn at h
  split at h
  · rename_i halias
    subst halias
    rw [Bool.and_eq_true] at h
    obtain ⟨hname, hcol⟩ := h
    have hedges : Edges (.attribute name "") (name.toList ++ []) (.word name.toList)
        [.word name] :=
      .of_word hname rfl rfl rfl (lastName_word hname).1 (lastName_word hname).2
    rw [List.append_nil] at hedges
    exact ⟨name, .word name.toList, [.word name], .columnRef [name], rfl, rendering_word hname,
      denotes_column hcol, .column rfl, hedges, (count_quotes_word hname).le⟩
  · rename_i halias
    simp only [Bool.and_eq_true, Bool.or_eq_true, decide_eq_true_eq] at h
    obtain ⟨⟨hword, hcol⟩, hname⟩ := h
    have hfirst : firstWord (.attribute name aliasName) = some aliasName :=
      congrArg some (if_neg halias)
    have htext : deparseExpression subs (.attribute name aliasName) =
        some (aliasName ++ "." ++ name) := congrArg some (if_pos halias)
    have hchars : (aliasName ++ "." ++ name).toList = aliasName.toList ++ '.' :: name.toList := by
      simp
    rcases hname with hname | rfl
    · refine ⟨_, .word name.toList, [.word aliasName, .dot, .word name],
        .columnRef [aliasName, name], htext, ?_, denotes_qualified hcol, .column rfl, ?_, ?_⟩
      · rw [hchars]
        exact rendering_qualified hword hname
      · rw [hchars]
        exact .of_word hword rfl rfl hfirst (lastName_word hname).1 (lastName_word hname).2
      · simp [hchars, count_quotes_word hword, count_quotes_word hname]
    · refine ⟨_, .operator ['*'], [.word aliasName, .dot, .operator "*"],
        .columnRef [aliasName, "*"], htext, ?_, denotes_star hcol, .column rfl, ?_, ?_⟩
      · rw [hchars]
        exact rendering_star hword
      · rw [hchars]
        exact .of_word hword rfl rfl hfirst (by simp [lastName]) (by simp [lastName])
      · simp [hchars, count_quotes_word hword]

/-! ### Constants -/

/-- A text that is no word and ends in no name. -/
theorem Edges.of_constant {data : String} {type : DataType} {cs : List Char} {m : Mode}
    {ts : List Token}
    (hfirst : if isSigned (.constant data type) = true then StartsMinus cs else StartsPlain cs)
    (hquote : cs.head? = some '\'' ↔ isString (.constant data type) = true)
    (hword : ∀ w, ts.head? ≠ some (.word w)) (hstar : m ≠ .operator ['*'])
    (hunicode : m ≠ .word ['u']) : Edges (.constant data type) cs m ts :=
  ⟨hfirst, hquote, fun w => iff_of_false (hword w) (by simp [firstWord]),
    iff_of_false hstar (by simp [lastName]), iff_of_false hunicode (by simp [lastName])⟩

theorem isNumberMode_ne {m : Mode} (hm : IsNumberMode m) :
    m ≠ .operator ['*'] ∧ m ≠ .word ['u'] := by
  constructor <;>
    · rintro rfl
      exact hm

theorem head_ne_minus {ds : List Char} (h : startsNumber ds = true) : ds.head? ≠ some '-' := by
  cases ds with
  | nil => cases h
  | cons d ds =>
    rintro ⟨⟩
    exact absurd h (by simp [startsNumber])

/-- A number without a sign. -/
theorem edges_number {data : String} {type : DataType} {m : Mode} {t : Token}
    (hstring : isString (.constant data type) = false)
    (hdata : startsNumber data.toList = true) (hm : IsNumberMode m) (ht : ∀ w, t ≠ .word w) :
    Edges (.constant data type) data.toList m [t] := by
  have hsigned : isSigned (.constant data type) = false := by
    simp [isSigned, head_ne_minus hdata]
  refine .of_constant ?_ ?_ (fun w => by simpa using ht w) (isNumberMode_ne hm).1
    (isNumberMode_ne hm).2
  · rw [if_neg (by simp [hsigned])]
    exact startsPlain_number hdata
  · exact iff_of_false (head_number_ne_quote hdata) (by simp [hstring])

/-- A number with a sign. -/
theorem edges_negated {data : String} {type : DataType} {ds : List Char} {m : Mode} {t : Token}
    (hnumber : isNumber (.constant data type) = true)
    (hstring : isString (.constant data type) = false) (hdata : data.toList = '-' :: ds)
    (hds : startsNumber ds = true) (hm : IsNumberMode m) :
    Edges (.constant data type) data.toList m [.operator "-", t] := by
  have hsigned : isSigned (.constant data type) = true := by
    simp [isSigned, hnumber, hdata]
  refine .of_constant ?_ ?_ (by simp) (isNumberMode_ne hm).1 (isNumberMode_ne hm).2
  · rw [if_pos hsigned, hdata]
    exact (startsPlain_number hds).minus
  · rw [hdata]
    exact iff_of_false (by simp) (by simp [hstring])

theorem startsNumber_digits {ds : List Char} (hne : ds ≠ []) (hds : ∀ c ∈ ds, c.isDigit = true) :
    startsNumber ds = true := by
  cases ds with
  | nil => exact absurd rfl hne
  | cons d ds => simp [startsNumber, hds d List.mem_cons_self]

theorem count_quotes_number {ds : List Char} (hds : ∀ c ∈ ds, isNumberChar c = true) :
    ds.count '\'' = 0 := by
  rw [List.count_eq_zero]
  intro hmem
  exact (isNumberChar_ne (hds _ hmem)).2 rfl

theorem isNumberChar_digits {ds : List Char} (hds : ∀ c ∈ ds, c.isDigit = true) :
    ∀ c ∈ ds, isNumberChar c = true := by
  intro c hc
  simp [isNumberChar, hds c hc]

theorem toDigits_spec (k : Nat) : Nat.toDigits 10 k ≠ [] ∧
    (∀ c ∈ Nat.toDigits 10 k, c.isDigit = true) ∧ digitsValue (Nat.toDigits 10 k) = k := by
  refine ⟨Nat.toDigits_ne_nil, fun c => Nat.isDigit_of_mem_toDigits (by omega) (by omega), ?_⟩
  exact Nat.ofDigitChars_eq_foldl.symm.trans (Nat.ofDigitChars_ten_toDigits)

theorem unsigned_digits {ds : List Char} (hne : ds ≠ []) (hds : ∀ c ∈ ds, c.isDigit = true) :
    unsigned ds = ds := by
  have hminus := head_ne_minus (startsNumber_digits hne hds)
  unfold unsigned
  split
  · exact absurd rfl hminus
  · rfl

theorem toString_negSucc (j : Nat) :
    (toString (Int.negSucc j)).toList = '-' :: Nat.toDigits 10 (j + 1) := by
  show ("-" ++ Nat.repr (j + 1)).toList = _
  rw [String.toList_append, Nat.toList_repr]
  rfl

/-- A negative integer is a sign and the digits of a number. -/
theorem negative_integer {j : Nat}
    (h : digitsValue (unsigned (toString (Int.negSucc j)).toList) < 2 ^ 31) :
    ∃ ds, (toString (Int.negSucc j)).toList = '-' :: ds ∧ startsNumber ds = true ∧
      (∀ c ∈ ds, c.isDigit = true) ∧ Rendering ds (.integer ds) [.integer (j + 1)] := by
  obtain ⟨hne, hdigits, hj⟩ := toDigits_spec (j + 1)
  have hchars := toString_negSucc j
  rw [hchars] at h
  have hrendering := rendering_integer hne hdigits h
  rw [hj] at hrendering
  exact ⟨_, hchars, startsNumber_digits hne hdigits, hdigits, hrendering⟩

theorem exists_readable_integer (k : Int) (h : isConstant (toString k) .int = true) :
    ∃ text m ts n, Readable subs (.constant (toString k) .int) text m ts n := by
  have hvalue : digitsValue (unsigned (toString k).toList) < 2 ^ 31 := of_decide_eq_true h
  cases k with
  | ofNat j =>
    obtain ⟨hne, hdigits, hj⟩ := toDigits_spec j
    have hchars : (toString (Int.ofNat j)).toList = Nat.toDigits 10 j := Nat.toList_repr
    have hstarts := startsNumber_digits hne hdigits
    rw [hchars, unsigned_digits hne hdigits] at hvalue
    have hrendering := rendering_integer hne hdigits hvalue
    rw [hj] at hrendering
    refine ⟨toString (Int.ofNat j), .integer (Nat.toDigits 10 j), [.integer j], .aConst (.integer j), rfl, ?_,
      denotes_integer j, .integer j, ?_, ?_⟩
    · rwa [hchars]
    · exact edges_number rfl (by rwa [hchars]) trivial (by simp)
    · rw [hchars]
      exact (count_quotes_number (isNumberChar_digits hdigits)).le
  | negSucc j =>
    obtain ⟨ds, hchars, hstarts, hdigits, hrendering⟩ := negative_integer hvalue
    refine ⟨toString (Int.negSucc j), .integer ds, [.operator "-", .integer (j + 1)],
      .aConst (.integer (Int.negSucc j)), rfl, ?_, ?_, .integer _, ?_, ?_⟩
    · rw [hchars]
      exact hrendering.negated (startsPlain_number hstarts)
    · exact denotes_negated (e := .aConst (.integer (j + 1 : Nat))) fun st => rfl
    · exact edges_negated rfl rfl hchars hstarts trivial
    · rw [hchars, List.count_cons_of_ne (by decide)]
      exact (count_quotes_number (isNumberChar_digits hdigits)).le

theorem exists_readable_float {data : String} (h : isNumeral data = true) :
    ∃ text m ts n, Readable subs (.constant data .float) text m ts n := by
  unfold isNumeral at h
  split at h
  · rename_i ds hds
    have hstarts : startsNumber ds = true := by
      rw [isFloat, String.toList_ofList, Bool.and_eq_true] at h
      exact h.1
    obtain ⟨m, hm, hrendering⟩ := rendering_float h
    rw [String.toList_ofList] at hrendering
    have hnegated := hrendering.negated (startsPlain_number hstarts)
    have hdata : data = String.ofList ('-' :: ds) := by rw [← hds, String.ofList_toList]
    have hnode : makeUnary "-" (.aConst (.float (String.ofList ds))) = .aConst (.float data) := by
      show PgNode.aConst (.float (doNegateFloat (String.ofList ds))) = _
      unfold doNegateFloat
      rw [String.toList_ofList]
      split
      · exact absurd rfl (head_of_isFloat h _)
      · rw [hdata]
    refine ⟨data, m, [.operator "-", .float (String.ofList ds)], .aConst (.float data), rfl, ?_,
      ?_, .float data, edges_negated rfl rfl hds hstarts hm, ?_⟩
    · rwa [hds]
    · rw [← hnode]
      exact denotes_negated fun st => rfl
    · have hchars := isNumberChar_of_isFloat h
      rw [String.toList_ofList] at hchars
      rw [hds, List.count_cons_of_ne (by decide)]
      exact (count_quotes_number hchars).le
  · have hstarts : startsNumber data.toList = true := by
      rw [isFloat, Bool.and_eq_true] at h
      exact h.1
    obtain ⟨m, hm, hrendering⟩ := rendering_float h
    exact ⟨data, m, _, .aConst (.float data), rfl, hrendering, denotes_float data, .float data,
      edges_number rfl hstarts hm (by simp),
      (count_quotes_number (isNumberChar_of_isFloat h)).le⟩

theorem readable_string (subs : Nat → Option Subquery) {data : String} (h : '\'' ∉ data.toList) :
    Readable subs (.constant data .string) ("'" ++ data ++ "'") (.quote data.toList)
      [.string data] (.aConst (.string data)) := by
  have hchars : ("'" ++ data ++ "'").toList = '\'' :: (data.toList ++ ['\'']) := by simp
  have hrendering := rendering_string h
  rw [String.ofList_toList] at hrendering
  refine ⟨rfl, ?_, denotes_string data, .string data, .of_constant ?_ ?_ ?_ ?_ ?_, ?_⟩
  · rwa [hchars]
  · rw [hchars, if_neg (by simp [isSigned, isNumber])]
    exact ⟨'\'', rfl, by decide, by decide⟩
  · rw [hchars]
    exact iff_of_true rfl rfl
  · simp
  · rintro ⟨⟩
  · rintro ⟨⟩
  · rw [hchars]
    simp [exprQuotes, stringQuotes]
    omega

/-! ### Operators -/

section

variable {l r : Expr} {tl tr o : String} {ml mr : Mode} {tsl tsr : List Token} {nl nr : PgNode}

/-- A text in parentheses. -/
theorem edges_parenthesis (l r : Expr) (o : String) (cs : List Char) (ts : List Token) :
    Edges (.expression l r o) ('(' :: cs) .blank (.lpar :: ts) := by
  refine ⟨?_, ?_, ?_, ?_, ?_⟩
  · rw [if_neg (by simp [isSigned])]
    exact ⟨'(', rfl, by decide, by decide⟩
  · simp [isString]
  · simp [firstWord]
  · simp [lastName]
  · simp [lastName]

/-- The operator ends before its right operand. -/
theorem Readable.ends_operator (hr : Readable subs r tr mr tsr nr) (ho : isOperator o = true)
    (hsign : allowsSign o r = true) (tail : List Char) :
    Ends Postgres.Scanner.step Postgres.Scanner.pending .blank (.operator o.toList)
      (tr.toList ++ tail) := by
  have hfirst := hr.edges.first
  split at hfirst
  · rename_i hsigned
    simp only [allowsSign, hsigned, Bool.not_true, Bool.false_or, Bool.and_eq_true,
      decide_eq_true_eq, Bool.not_eq_true'] at hsign
    exact ends_operator_signed ho hsign.2 hsign.1 hfirst tail
  · exact ends_operator_plain hfirst tail

/-- The left operand ends before the operator. -/
theorem Readable.ends_left (hl : Readable subs l tl ml tsl nl) (hr : Readable subs r tr mr tsr nr)
    (ho : isOperator o = true) (hsign : allowsSign o r = true)
    (hallows : Allows ml o tr.toList) (tail : List Char) :
    Ends Postgres.Scanner.step Postgres.Scanner.pending .blank ml
      (o.toList ++ (tr.toList ++ tail)) := by
  have hclosable := hl.rendering.closable
  have hfirst := hr.edges.first
  split at hfirst
  · rename_i hsigned
    simp only [allowsSign, hsigned, Bool.not_true, Bool.false_or, Bool.and_eq_true,
      decide_eq_true_eq, Bool.not_eq_true'] at hsign
    exact ends_before_operator_signed hclosable ho hallows hsign.2 hsign.1 hfirst tail
  · exact ends_before_operator hclosable ho hallows hfirst tail

theorem count_quotes_operator (ho : isOperator o = true) : o.toList.count '\'' = 0 := by
  obtain ⟨-, hrun, -⟩ := isOperator_iff.mp ho
  rw [List.count_eq_zero]
  intro hmem
  have hop := (isRun_iff.mp hrun).1 _ hmem
  exact absurd hop (by decide)

theorem Readable.allows (hl : Readable subs l tl ml tsl nl) (hr : Readable subs r tr mr tsr nr)
    (hstar : lastName l = some "*" → o = "+" ∨ o = "-")
    (hunicode : lastName l = some "u" → o = "&" → isString r = false) :
    Allows ml o tr.toList := by
  refine ⟨fun hm => hstar (hl.edges.star.mp hm), fun hm ho hquote => ?_⟩
  have hstring := hunicode (hl.edges.unicode.mp hm) ho
  rw [hr.edges.quote.mp hquote] at hstring
  cases hstring

/-- The text of a binary operator. -/
theorem rendering_binary (hl : Readable subs l tl ml tsl nl) (hr : Readable subs r tr mr tsr nr)
    (ho : isOperator o = true) (hallows : Allows ml o tr.toList)
    (hsign : allowsSign o r = true) :
    Rendering ("(" ++ tl ++ o ++ tr ++ ")").toList .blank
      (.lpar :: (tsl ++ .operator o :: (tsr ++ [.rpar]))) := by
  have hchars : ("(" ++ tl ++ o ++ tr ++ ")").toList =
      ['('] ++ (tl.toList ++ (o.toList ++ tr.toList) ++ [')']) := by simp
  have hinner : Rendering (tl.toList ++ (o.toList ++ tr.toList)) mr
      (tsl ++ .operator o :: tsr) := by
    refine hl.rendering.followed
      (hr.rendering.behind_operator ho (hr.ends_operator ho hsign)) fun tail => ?_
    rw [List.append_assoc]
    exact hl.ends_left hr ho hsign hallows tail
  rw [hchars]
  simpa using (reads_lpar.append hinner.append_rpar).rendering

theorem deparse_binary (hl : Readable subs l tl ml tsl nl) (hr : Readable subs r tr mr tsr nr)
    (o : String) : deparseExpression subs (.expression l r o) =
      some ("(" ++ tl ++ o ++ tr ++ ")") := by
  have hdeparse_l := hl.deparse_eq
  have hdeparse_r := hr.deparse_eq
  rw [deparseExpression] at hdeparse_l hdeparse_r ⊢
  simp [print, Printed.ofExpression, hl.yields.isPresent, hr.yields.isPresent, hdeparse_l,
    hdeparse_r]

theorem readable_binary (hl : Readable subs l tl ml tsl nl) (hr : Readable subs r tr mr tsr nr)
    (ho : isOperator o = true) (hstands : standsApart l r o = true) :
    Readable subs (.expression l r o) ("(" ++ tl ++ o ++ tr ++ ")") .blank
      (.lpar :: (tsl ++ .operator o :: (tsr ++ [.rpar]))) (.aExpr .op o nl nr) := by
  simp only [standsApart, hl.yields.isPresent, hr.yields.isPresent, Bool.and_eq_true,
    Bool.or_eq_true, decide_eq_true_eq, Bool.not_eq_true'] at hstands
  obtain ⟨⟨⟨hstar, hunicode⟩, hsign⟩, hword⟩ := hstands
  have hallows : Allows ml o tr.toList := by
    refine hl.allows hr (fun hlast => ?_) (fun hlast ho => ?_)
    · rcases hstar with (hne | hplus) | hminus
      · exact absurd hlast hne
      · exact .inl hplus
      · exact .inr hminus
    · simpa [hlast, ho] using hunicode
  have hfollow : MayFollow o tsr := by
    intro hmath w hw
    have hfirst := (hr.edges.word w).mp hw
    simpa [hmath, hfirst] using hword
  have hchars : ("(" ++ tl ++ o ++ tr ++ ")").toList =
      '(' :: (tl.toList ++ (o.toList ++ tr.toList) ++ [')']) := by simp
  refine ⟨deparse_binary hl hr o, rendering_binary hl hr ho hallows hsign,
    denotes_binary hl.denotes hr.denotes hfollow, .binary hl.yields hr.yields, ?_, ?_⟩
  · rw [hchars]
    exact edges_parenthesis l r o _ _
  · have hql := hl.quotes
    have hqr := hr.quotes
    rw [hchars, exprQuotes]
    simp only [List.count_cons, List.count_append, count_quotes_operator ho]
    simp
    omega

theorem isNumberNode_of_yields {n : PgNode} {e : Expr} (h : Yields n e) :
    isNumberNode n = isNumber e := by
  cases h <;> rfl

theorem makeUnary_of_yields (h : Yields nr r) (hnumber : o = "-" → isNumber r = false) :
    makeUnary o nr = .aExpr .op o .nullptr nr := by
  unfold makeUnary
  split
  · rename_i hminus
    subst hminus
    have hnot : isNumberNode nr = false := by
      rw [isNumberNode_of_yields h]
      exact hnumber rfl
    exact doNegate_of_not_number hnot
  · rfl

theorem deparse_unary (hr : Readable subs r tr mr tsr nr) (o : String) :
    deparseExpression subs (.expression .nullptr r o) = some ("(" ++ o ++ tr ++ ")") := by
  have hlp : Expr.isPresent .nullptr = false := rfl
  have hdeparse := hr.deparse_eq
  rw [deparseExpression] at hdeparse ⊢
  simp [print, Printed.ofExpression, hlp, hr.yields.isPresent, hdeparse]

theorem readable_unary (hr : Readable subs r tr mr tsr nr) (ho : isOperator o = true)
    (hstands : standsApart .nullptr r o = true) :
    Readable subs (.expression .nullptr r o) ("(" ++ o ++ tr ++ ")") .blank
      (.lpar :: .operator o :: (tsr ++ [.rpar])) (.aExpr .op o .nullptr nr) := by
  have hlp : Expr.isPresent .nullptr = false := rfl
  have hrp := hr.yields.isPresent
  simp only [standsApart, hlp, hrp, Bool.and_eq_true] at hstands
  obtain ⟨⟨hunary, hnumber⟩, hsign⟩ := hstands
  have hchars : ("(" ++ o ++ tr ++ ")").toList = ['('] ++ (o.toList ++ tr.toList ++ [')']) := by
    simp
  have hinner := (hr.rendering.behind_operator ho (hr.ends_operator ho hsign)).append_rpar
  have hnode := makeUnary_of_yields (o := o) hr.yields
    (by simpa [imp_iff_not_or] using hnumber)
  refine ⟨deparse_unary hr o, ?_, ?_, .unary hr.yields, ?_, ?_⟩
  · rw [hchars]
    simpa using (reads_lpar.append hinner).rendering
  · rw [← hnode]
    exact denotes_unary hr.denotes hunary
  · rw [hchars]
    exact edges_parenthesis .nullptr r o _ _
  · have hqr := hr.quotes
    rw [hchars, exprQuotes]
    simp only [List.count_append, count_quotes_operator ho]
    simp
    omega

theorem deparse_trailing (hl : Readable subs l tl ml tsl nl) (o : String) :
    deparseExpression subs (.expression l .nullptr o) = some ("(" ++ tl ++ o ++ ")") := by
  have hrp : Expr.isPresent .nullptr = false := rfl
  have hdeparse := hl.deparse_eq
  rw [deparseExpression] at hdeparse ⊢
  simp [print, Printed.ofExpression, hrp, hl.yields.isPresent, hdeparse]

theorem readable_trailing (hl : Readable subs l tl ml tsl nl) (ho : isOperator o = true)
    (hstands : standsApart l .nullptr o = true) :
    Readable subs (.expression l .nullptr o) ("(" ++ tl ++ o ++ ")") .blank
      (.lpar :: (tsl ++ [.operator o, .rpar])) (.aExpr .op o nl .nullptr) := by
  have hrp : Expr.isPresent .nullptr = false := rfl
  have hlp := hl.yields.isPresent
  simp only [standsApart, hlp, hrp, Bool.and_eq_true, Bool.not_eq_true', decide_eq_true_eq]
    at hstands
  obtain ⟨hmath, hstar⟩ := hstands
  have hchars : ("(" ++ tl ++ o ++ ")").toList = ['('] ++ (tl.toList ++ (o.toList ++ [')'])) := by
    simp
  have hinner := hl.rendering.append_operator_rpar ho fun hm => hstar (hl.edges.star.mp hm)
  refine ⟨deparse_trailing hl o, ?_, denotes_trailing hl.denotes hmath, .trailing hl.yields, ?_,
    ?_⟩
  · rw [hchars]
    exact (reads_lpar.append hinner).rendering
  · rw [hchars]
    exact edges_parenthesis l .nullptr o _ _
  · have hql := hl.quotes
    rw [hchars, exprQuotes]
    simp only [List.count_append, count_quotes_operator ho]
    simp
    omega

end

/-! ### Calls -/

/-- The texts of some expressions, with their tokens and nodes. -/
inductive ReadableAll (subs : Nat → Option Subquery) :
    List Expr → List String → List (List Token) → List PgNode → Prop
  | nil : ReadableAll subs [] [] [] []
  | cons {e : Expr} {text : String} {m : Mode} {ts : List Token} {n : PgNode} {es : List Expr}
      {texts : List String} {tss : List (List Token)} {ns : List PgNode}
      (h : Readable subs e text m ts n) (hs : ReadableAll subs es texts tss ns) :
      ReadableAll subs (e :: es) (text :: texts) (ts :: tss) (n :: ns)

section

variable {e : Expr} {text : String} {m : Mode} {ts : List Token} {n : PgNode} {es : List Expr}
  {texts : List String} {tss : List (List Token)} {ns : List PgNode} {f : String}

theorem ReadableAll.print_eq (h : ReadableAll subs es texts tss ns) :
    printExpressions subs es = some texts := by
  induction h with
  | nil => rfl
  | cons h _ ih =>
    have hdeparse := h.deparse_eq
    rw [deparseExpression] at hdeparse
    simp [printExpressions, hdeparse, ih]

theorem ReadableAll.denotes (h : ReadableAll subs es texts tss ns) :
    List.Forall₂ Denotes tss ns := by
  induction h with
  | nil => exact .nil
  | cons h _ ih => exact .cons h.denotes ih

theorem ReadableAll.yields (h : ReadableAll subs es texts tss ns) :
    List.Forall₂ Yields ns es := by
  induction h with
  | nil => exact .nil
  | cons h _ ih => exact .cons h.yields ih

/-- The arguments with their separators and the parenthesis behind them. -/
theorem ReadableAll.reads (hs : ReadableAll subs es texts tss ns)
    (h : Readable subs e text m ts n) :
    Reads ((", ".intercalate (text :: texts)).toList ++ [')']) (ts ++ argumentTokens tss) := by
  induction hs generalizing e text m ts n with
  | nil =>
    rw [String.intercalate_singleton]
    exact h.rendering.append_rpar
  | @cons e' text' m' ts' n' es texts tss ns h' _ ih =>
    have hrest := h.rendering.append_separator.append (ih h')
    rw [String.intercalate_cons_cons]
    simpa [argumentTokens] using hrest

theorem ReadableAll.quotes (h : ReadableAll subs es texts tss ns) :
    (", ".intercalate texts).toList.count '\'' ≤ argQuotes es := by
  induction h with
  | nil => exact Nat.zero_le _
  | @cons e text m ts n es texts tss ns h _ ih =>
    have hfirst := h.quotes
    rw [argQuotes]
    cases texts with
    | nil =>
      rw [String.intercalate_singleton]
      omega
    | cons text' texts =>
      rw [String.intercalate_cons_cons]
      simp only [String.toList_append, List.count_append]
      have hseparator : ", ".toList.count '\'' = 0 := by decide
      omega

theorem exprQuotes_call {args : List Expr} {agg distinct : Bool} (hf : f ≠ "extract") :
    exprQuotes (.funcCall f args agg distinct) = argQuotes args := by
  rw [exprQuotes, if_neg hf]

theorem edges_call {args : List Expr} {agg distinct : Bool} {cs : List Char} {ts : List Token}
    (hf : isWord f = true) :
    Edges (.funcCall f args agg distinct) (f.toList ++ cs) .blank (.word f :: ts) :=
  .of_word hf rfl rfl rfl (by simp [lastName]) (by simp [lastName])

theorem deparse_call {args : List Expr} {strs : List String} {agg distinct : Bool}
    (h : printExpressions subs args = some strs) :
    deparseExpression subs (.funcCall f args agg distinct) =
      deparseFuncCall f strs agg distinct := by
  simp [deparseExpression, print, Printed.ofExpression, h]

theorem ne_of_isFunctionName {w : String} (hw : isFunctionName w = false)
    (hf : isFunctionName f = true) : f ≠ w := by
  rintro rfl
  rw [hw] at hf
  cases hf

/-- A call without rules of its own. -/
theorem deparseFuncCall_of_name (hname : isFunctionName f = true) (agg distinct : Bool) :
    deparseFuncCall f (text :: texts) agg distinct =
      if (agg && distinct) = true then
        some (f ++ "(distinct " ++ ", ".intercalate (text :: texts) ++ ")")
      else some (f ++ "(" ++ ", ".intercalate (text :: texts) ++ ")") := by
  have hsubstring := ne_of_isFunctionName (w := "substring") (by decide) hname
  have hextract := ne_of_isFunctionName (w := "extract") (by decide) hname
  unfold deparseFuncCall
  rw [if_neg hsubstring, if_neg hextract, if_neg (by simp)]

theorem raFuncName_of_ne (hf : f ≠ "date_part") : raFuncName f = f := if_neg hf

/-- A call as `parse_expression` makes it. -/
theorem yields_call (hf : f ≠ "date_part") (distinct : Bool) (h : List.Forall₂ Yields ns es) :
    Yields (.funcCall f ns false distinct)
      (.funcCall f es (isAggregateName f) (isAggregateName f && distinct)) := by
  have hcall := Yields.call (f := f) false distinct h
  rwa [raFuncName_of_ne hf, if_neg (by simp)] at hcall

theorem exists_readable_call (hf : isWord f = true) (hname : isFunctionName f = true)
    (hdate : f ≠ "date_part") (distinct : Bool) (h : Readable subs e text m ts n)
    (hs : ReadableAll subs es texts tss ns) :
    ∃ text m ts n, Readable subs
      (.funcCall f (e :: es) (isAggregateName f) (isAggregateName f && distinct)) text m ts n := by
  have hprint := (ReadableAll.cons h hs).print_eq
  have hyields := (ReadableAll.cons h hs).yields
  have hquotes := (ReadableAll.cons h hs).quotes
  have hargs := hs.reads h
  have hextract := ne_of_isFunctionName (w := "extract") (by decide) hname
  have hword := count_quotes_word hf
  by_cases hdistinct : (isAggregateName f && distinct) = true
  · obtain ⟨hagg, rfl⟩ := Bool.and_eq_true_iff.mp hdistinct
    have hchars : (f ++ "(distinct " ++ ", ".intercalate (text :: texts) ++ ")").toList =
        f.toList ++ ['('] ++ ("distinct".toList ++ [' ']) ++
          ((", ".intercalate (text :: texts)).toList ++ [')']) := by simp
    refine ⟨f ++ "(distinct " ++ ", ".intercalate (text :: texts) ++ ")", .blank,
      .word f :: .lpar :: .word "distinct" :: (ts ++ argumentTokens tss),
      .funcCall f (n :: ns) false true, ?_, ?_, denotes_distinctCall hname h.denotes hs.denotes,
      yields_call hdate true hyields, ?_, ?_⟩
    · rw [deparse_call hprint, deparseFuncCall_of_name hname, if_pos (by simp [hagg])]
    · rw [hchars]
      exact (((reads_word_lpar hf).append (reads_word_blank (by decide))).append hargs).rendering
    · rw [hchars, List.append_assoc, List.append_assoc]
      exact edges_call hf
    · rw [hchars, exprQuotes_call hextract]
      simpa [List.count_append, hword] using hquotes
  · rw [Bool.not_eq_true] at hdistinct
    rw [hdistinct]
    have hchars : (f ++ "(" ++ ", ".intercalate (text :: texts) ++ ")").toList =
        f.toList ++ ['('] ++ ((", ".intercalate (text :: texts)).toList ++ [')']) := by simp
    refine ⟨f ++ "(" ++ ", ".intercalate (text :: texts) ++ ")", .blank,
      .word f :: .lpar :: (ts ++ argumentTokens tss),
      .funcCall f (n :: ns) false false, ?_, ?_, denotes_call hname h.denotes hs.denotes, ?_, ?_,
      ?_⟩
    · rw [deparse_call hprint, deparseFuncCall_of_name hname, if_neg (by simp)]
    · rw [hchars]
      exact ((reads_word_lpar hf).append hargs).rendering
    · have hcall := yields_call hdate false hyields
      rwa [Bool.and_false] at hcall
    · rw [hchars, List.append_assoc]
      exact edges_call hf
    · rw [hchars, exprQuotes_call hextract]
      simpa [List.count_append, hword] using hquotes

/-- `count(*)`. -/
theorem exists_readable_starCall (hf : isWord f = true) (hname : isFunctionName f = true)
    (hdate : f ≠ "date_part") :
    ∃ text m ts n, Readable subs
      (.funcCall f [.attribute "*" ""] (isAggregateName f) false) text m ts n := by
  have hprint : printExpressions subs [.attribute "*" ""] = some ["*"] := rfl
  have hstar : Reads ['*', ')'] [.operator "*", .rpar] := reads_operator_rpar (o := "*") (by decide)
  have hchars : (f ++ "(" ++ ", ".intercalate ["*"] ++ ")").toList =
      f.toList ++ ['('] ++ ['*', ')'] := by simp
  refine ⟨f ++ "(" ++ ", ".intercalate ["*"] ++ ")", .blank,
    [.word f, .lpar, .operator "*", .rpar], .funcCall f [] true false, ?_, ?_,
    denotes_starCall hname, ?_, ?_, ?_⟩
  · rw [deparse_call hprint, deparseFuncCall_of_name hname, if_neg (by simp)]
  · rw [hchars]
    exact ((reads_word_lpar hf).append hstar).rendering
  · have hcall := Yields.call (f := f) true false .nil
    rwa [raFuncName_of_ne hdate, if_pos rfl, Bool.and_false] at hcall
  · rw [hchars, List.append_assoc]
    exact edges_call hf
  · rw [hchars]
    simp [List.count_append, count_quotes_word hf]

end

/-! ### Calls with rules of their own -/

section

variable {e e₁ e₂ e₃ : Expr} {t t₁ t₂ t₃ : String} {m m₁ m₂ m₃ : Mode}
  {ts ts₁ ts₂ ts₃ : List Token} {n n₁ n₂ n₃ : PgNode}

/-- A call with one argument. -/
theorem exists_readable_single {f : String} (hf : isWord f = true) (hdate : f ≠ "date_part")
    (hextract : f ≠ "extract") (hagg : isAggregateName f = false)
    (hprint : ∀ t, deparseFuncCall f [t] false false = some (f ++ "(" ++ t ++ ")"))
    (hdenotes : Denotes (.word f :: .lpar :: (ts ++ [.rpar])) (.funcCall f [n] false false))
    (h : Readable subs e t m ts n) :
    ∃ text m ts n, Readable subs (.funcCall f [e] false false) text m ts n := by
  have hargs := (ReadableAll.cons h .nil).print_eq
  have hchars : (f ++ "(" ++ t ++ ")").toList = f.toList ++ ['('] ++ (t.toList ++ [')']) := by simp
  refine ⟨f ++ "(" ++ t ++ ")", .blank, .word f :: .lpar :: (ts ++ [.rpar]),
    .funcCall f [n] false false, ?_, ?_, hdenotes, ?_, ?_, ?_⟩
  · rw [deparse_call hargs, hprint]
  · rw [hchars]
    exact ((reads_word_lpar hf).append h.rendering.append_rpar).rendering
  · have hcall := yields_call hdate false (.cons h.yields .nil)
    rwa [hagg] at hcall
  · rw [hchars, List.append_assoc]
    exact edges_call hf
  · rw [hchars, exprQuotes_call hextract]
    simpa [List.count_append, count_quotes_word hf, argQuotes] using h.quotes

theorem exists_readable_substringFrom (h₁ : Readable subs e₁ t₁ m₁ ts₁ n₁)
    (h₂ : Readable subs e₂ t₂ m₂ ts₂ n₂) :
    ∃ text m ts n, Readable subs (.funcCall "substring" [e₁, e₂] false false) text m ts n := by
  have hprint := (ReadableAll.cons h₁ (.cons h₂ .nil)).print_eq
  have hname : isWord "substring" = true := by decide
  have hchars : ("substring" ++ "(" ++ t₁ ++ " from " ++ t₂ ++ ")").toList =
      "substring".toList ++ ['('] ++ (t₁.toList ++ ' ' :: ("from".toList ++ [' ']) ++
        (t₂.toList ++ [')'])) := by simp
  have hfrom := h₁.rendering.append_word_blank (w := "from") (by decide)
  refine ⟨"substring" ++ "(" ++ t₁ ++ " from " ++ t₂ ++ ")", .blank,
    .word "substring" :: .lpar :: (ts₁ ++ .word "from" :: (ts₂ ++ [.rpar])),
    .funcCall "substring" [n₁, n₂] false false, ?_, ?_,
    denotes_substringFrom h₁.denotes h₂.denotes,
    yields_call (f := "substring") (by decide) false (.cons h₁.yields (.cons h₂.yields .nil)), ?_,
    ?_⟩
  · rw [deparse_call hprint]
    rfl
  · rw [hchars]
    simpa using
      ((reads_word_lpar hname).append (hfrom.append h₂.rendering.append_rpar)).rendering
  · rw [hchars, List.append_assoc]
    exact edges_call hname
  · have hq₁ := h₁.quotes
    have hq₂ := h₂.quotes
    rw [hchars, exprQuotes_call (by decide)]
    simp only [List.count_append, count_quotes_word hname, argQuotes]
    simp
    omega

theorem exists_readable_substringFor (h₁ : Readable subs e₁ t₁ m₁ ts₁ n₁)
    (h₂ : Readable subs e₂ t₂ m₂ ts₂ n₂) (h₃ : Readable subs e₃ t₃ m₃ ts₃ n₃) :
    ∃ text m ts n, Readable subs (.funcCall "substring" [e₁, e₂, e₃] false false) text m ts n := by
  have hprint := (ReadableAll.cons h₁ (.cons h₂ (.cons h₃ .nil))).print_eq
  have hname : isWord "substring" = true := by decide
  have hchars : ("substring" ++ "(" ++ t₁ ++ " from " ++ t₂ ++ " for " ++ t₃ ++ ")").toList =
      "substring".toList ++ ['('] ++ (t₁.toList ++ ' ' :: ("from".toList ++ [' ']) ++
        (t₂.toList ++ ' ' :: ("for".toList ++ [' ']) ++ (t₃.toList ++ [')']))) := by simp
  have hfrom := h₁.rendering.append_word_blank (w := "from") (by decide)
  have hfor := h₂.rendering.append_word_blank (w := "for") (by decide)
  refine ⟨"substring" ++ "(" ++ t₁ ++ " from " ++ t₂ ++ " for " ++ t₃ ++ ")", .blank,
    .word "substring" :: .lpar ::
      (ts₁ ++ .word "from" :: (ts₂ ++ .word "for" :: (ts₃ ++ [.rpar]))),
    .funcCall "substring" [n₁, n₂, n₃] false false, ?_, ?_,
    denotes_substringFor h₁.denotes h₂.denotes h₃.denotes,
    yields_call (f := "substring") (by decide) false
      (.cons h₁.yields (.cons h₂.yields (.cons h₃.yields .nil))), ?_, ?_⟩
  · rw [deparse_call hprint]
    rfl
  · rw [hchars]
    simpa using ((reads_word_lpar hname).append
      (hfrom.append (hfor.append h₃.rendering.append_rpar))).rendering
  · rw [hchars, List.append_assoc]
    exact edges_call hname
  · have hq₁ := h₁.quotes
    have hq₂ := h₂.quotes
    have hq₃ := h₃.quotes
    rw [hchars, exprQuotes_call (by decide)]
    simp only [List.count_append, count_quotes_word hname, argQuotes]
    simp
    omega

/-- The field of an extract is printed without its quotes. -/
theorem filter_quotes {field : String} (hfield : isWord field = true) :
    String.ofList (("'" ++ field ++ "'").toList.filter (· ≠ '\'')) = field := by
  obtain ⟨c, cs, hcs, hc, hcont, -⟩ := isWord_cases hfield
  have hchars : field.toList.filter (· ≠ '\'') = field.toList := by
    rw [List.filter_eq_self, hcs]
    intro d hd
    rw [decide_eq_true_eq]
    rintro rfl
    rcases List.mem_cons.mp hd with rfl | hd
    · exact absurd hc (by decide)
    · exact absurd (hcont _ hd) (by decide)
  have hquote : ("'" ++ field ++ "'").toList = '\'' :: (field.toList ++ ['\'']) := by simp
  rw [hquote, List.filter_cons_of_neg (by simp), List.filter_append, hchars,
    List.filter_cons_of_neg (by simp), List.filter_nil, List.append_nil, String.ofList_toList]

theorem exists_readable_extract {field : String} (hfield : isWord field = true)
    (hextract : isExtractField field = true) (h : Readable subs e t m ts n) :
    ∃ text m ts n, Readable subs
      (.funcCall "extract" [.constant field .string, e] false false) text m ts n := by
  have hdeparse := h.deparse_eq
  rw [deparseExpression] at hdeparse
  have hprint : printExpressions subs [.constant field .string, e] =
      some ["'" ++ field ++ "'", t] := by
    simp [printExpressions, print, Printed.ofExpression, constantToString, hdeparse]
  have hname : isWord "extract" = true := by decide
  have hchars : ("extract" ++ "(" ++ field ++ " from " ++ t ++ ")").toList =
      "extract".toList ++ ['('] ++ (field.toList ++ ' ' :: ("from".toList ++ [' ']) ++
        (t.toList ++ [')'])) := by simp
  have hfrom := (rendering_word hfield).append_word_blank (w := "from") (by decide)
  refine ⟨"extract" ++ "(" ++ field ++ " from " ++ t ++ ")", .blank,
    .word "extract" :: .lpar :: .word field :: .word "from" :: (ts ++ [.rpar]),
    .funcCall "date_part" [.aConst (.string field), n] false false, ?_, ?_,
    denotes_extract hextract h.denotes, ?_, ?_, ?_⟩
  · rw [deparse_call hprint]
    show some ("extract" ++ "(" ++ String.ofList _ ++ " from " ++ t ++ ")") = _
    rw [filter_quotes hfield]
  · rw [hchars]
    simpa using
      ((reads_word_lpar hname).append (hfrom.append h.rendering.append_rpar)).rendering
  · exact .call (f := "date_part") false false (.cons (.string field) (.cons h.yields .nil))
  · rw [hchars, List.append_assoc]
    exact edges_call hname
  · have hquotes := h.quotes
    have hword : (isWord field && isExtractField field) = true :=
      Bool.and_eq_true_iff.mpr ⟨hfield, hextract⟩
    rw [hchars, exprQuotes, if_pos rfl, fieldArgQuotes, fieldQuotes, if_pos hword]
    simp only [List.count_append, count_quotes_word hname, argQuotes]
    simp [count_quotes_word hfield]
    omega

end

/-! ### Typed constants -/

theorem edges_typed {type mod : String} {e : Expr} {cs : List Char} {m : Mode} {ts : List Token}
    (htype : isWord type = true) (hstar : m ≠ .operator ['*']) (hunicode : m ≠ .word ['u']) :
    Edges (.typeCast type mod e) (type.toList ++ cs) m (.word type :: ts) :=
  .of_word htype rfl rfl rfl (by simp [lastName, hstar]) (by simp [lastName, hunicode])

theorem denotes_typeName {type : String} (s : String) (h : typeOfWord type = some type) :
    Denotes [.word type, .string s] (.typeCast type none (.aConst (.string s))) := by
  by_cases hinterval : type = "interval"
  · rw [hinterval]
    exact denotes_interval s
  · exact denotes_typed s h hinterval

theorem exists_readable_typed {type data : String} (htype : isWord type = true)
    (hself : typeOfWord type = some type) (hdata : '\'' ∉ data.toList) :
    ∃ text m ts n, Readable subs (.typeCast type "" (.constant data .string)) text m ts n := by
  have hrendering := (readable_string subs hdata).rendering
  have hquotes := (readable_string subs hdata).quotes
  have hchars : (type ++ " " ++ ("'" ++ data ++ "'")).toList =
      type.toList ++ [' '] ++ ("'" ++ data ++ "'").toList := by simp
  refine ⟨type ++ " " ++ ("'" ++ data ++ "'"), .quote data.toList, [.word type, .string data],
    .typeCast type none (.aConst (.string data)), rfl, ?_, denotes_typeName data hself,
    .cast rfl (.string data), ?_, ?_⟩
  · rw [hchars]
    exact (reads_word_blank htype).rendering_append hrendering
  · rw [hchars, List.append_assoc]
    exact edges_typed htype (by simp) (by simp)
  · rw [hchars, List.append_assoc, List.count_append, count_quotes_word htype, exprQuotes]
    simpa using hquotes

/-- The fields of an interval that `parse_expression` knows. -/
theorem intervalMask_of_typModText {mod : String} {typmod : Option Int}
    (h : typModText typmod = some mod) (hmod : mod ≠ "") :
    ∃ mask, typmod = some mask ∧ intervalMask mod = some mask ∧ isWord mod = true ∧
      mod ≠ "u" := by
  unfold typModText at h
  split at h
  · cases h
    exact absurd rfl hmod
  · cases h
    exact ⟨4, rfl, rfl, by decide, by decide⟩
  · cases h
    exact ⟨2, rfl, rfl, by decide, by decide⟩
  · cases h
    exact ⟨8, rfl, rfl, by decide, by decide⟩
  · cases h

theorem exists_readable_interval {mod data : String} {typmod : Option Int}
    (htypmod : typModText typmod = some mod) (hmod : mod ≠ "") (hdata : '\'' ∉ data.toList) :
    ∃ text m ts n, Readable subs (.typeCast "interval" mod (.constant data .string))
      text m ts n := by
  obtain ⟨mask, rfl, hmask, hword, hu⟩ := intervalMask_of_typModText htypmod hmod
  have hrendering := (readable_string subs hdata).rendering.append_word hword
  have hquotes := (readable_string subs hdata).quotes
  have htype : isWord "interval" = true := by decide
  have hchars : ("interval" ++ " " ++ ("'" ++ data ++ "'") ++ " " ++ mod).toList =
      "interval".toList ++ [' '] ++ (("'" ++ data ++ "'").toList ++ ' ' :: mod.toList) := by simp
  refine ⟨"interval" ++ " " ++ ("'" ++ data ++ "'") ++ " " ++ mod, .word mod.toList,
    [.word "interval", .string data, .word mod],
    .typeCast "interval" (some mask) (.aConst (.string data)), ?_, ?_,
    denotes_intervalUnit data hmask, .cast htypmod (.string data), ?_, ?_⟩
  · simp [deparseExpression, print, Printed.ofExpression, constantToString, hmod]
  · rw [hchars]
    exact (reads_word_blank htype).rendering_append hrendering
  · rw [hchars, List.append_assoc]
    refine edges_typed htype (by simp) ?_
    rw [ne_eq, Mode.word.injEq, toList_eq_singleton]
    exact hu
  · rw [hchars, List.append_assoc, List.count_append, count_quotes_word htype, exprQuotes]
    simpa [count_quotes_word hword] using hquotes

/-! ### All printable expressions -/

/-- What `parse_expression` makes of a call. -/
theorem Yields.call_cases {n : PgNode} {f : String} {args : List Expr} {agg distinct : Bool}
    (h : Yields n (.funcCall f args agg distinct)) :
    ∃ g ns star d, n = .funcCall g ns star d ∧ f ≠ "date_part" ∧ agg = isAggregateName f ∧
      distinct = (isAggregateName f && d) ∧
      ∃ es, List.Forall₂ Yields ns es ∧
        args = if star = true then es ++ [.attribute "*" ""] else es := by
  cases h with
  | @call g ns es star d h =>
    refine ⟨g, ns, star, d, rfl, ?_, rfl, rfl, es, h, rfl⟩
    unfold raFuncName
    split
    · decide
    · rename_i hdate
      exact hdate

theorem allPrintable_forall {es : List Expr} (h : allPrintable es = true) :
    ∀ e ∈ es, printable e = true := by
  induction es with
  | nil => simp
  | cons e es ih =>
    rw [allPrintable, Bool.and_eq_true] at h
    exact List.forall_mem_cons.mpr ⟨h.1, ih h.2⟩

/-- A star is no argument among others. -/
theorem printable_star : printable (.attribute "*" "") = false := by decide

theorem exists_readableAll {ns : List PgNode} {es : List Expr} (h : List.Forall₂ Yields ns es)
    (ih : ∀ n ∈ ns, ∀ {e}, Yields n e → printable e = true →
      ∃ text m ts n, Readable subs e text m ts n)
    (hes : ∀ e ∈ es, printable e = true) : ∃ texts tss ns, ReadableAll subs es texts tss ns := by
  induction h with
  | nil => exact ⟨[], [], [], .nil⟩
  | cons hn _ ihs =>
    obtain ⟨he, hes⟩ := List.forall_mem_cons.mp hes
    obtain ⟨text, m, ts, n', hreadable⟩ := ih _ List.mem_cons_self hn he
    obtain ⟨texts, tss, ns', hall⟩ := ihs (fun n hn => ih n (List.mem_cons_of_mem _ hn)) hes
    exact ⟨_, _, _, .cons hreadable hall⟩

/-- A call whose arguments are readable. -/
theorem exists_readable_funcCall {f : String} {args : List Expr} (hdate : f ≠ "date_part")
    (d : Bool) (htakes : takesArguments f args = true) {texts : List String}
    {tss : List (List Token)} {ns : List PgNode} (hargs : ReadableAll subs args texts tss ns) :
    ∃ text m ts n, Readable subs
      (.funcCall f args (isAggregateName f) (isAggregateName f && d)) text m ts n := by
  unfold takesArguments at htakes
  split_ifs at htakes with hsubstring hextract hnormalize
  · subst hsubstring
    have hagg : isAggregateName "substring" = false := by decide
    rw [hagg, Bool.false_and]
    cases hargs with
    | nil => simp at htakes
    | cons h₁ hargs =>
      cases hargs with
      | nil =>
        exact exists_readable_single (by decide) (by decide) (by decide) hagg (fun t => rfl)
          (denotes_substring h₁.denotes) h₁
      | cons h₂ hargs =>
        cases hargs with
        | nil => exact exists_readable_substringFrom h₁ h₂
        | cons h₃ hargs =>
          cases hargs with
          | nil => exact exists_readable_substringFor h₁ h₂ h₃
          | cons h₄ hargs => simp at htakes
  · subst hextract
    have hagg : isAggregateName "extract" = false := by decide
    rw [hagg, Bool.false_and]
    split at htakes
    · rw [Bool.and_eq_true] at htakes
      cases hargs with
      | cons _ hargs =>
        cases hargs with
        | cons h _ => exact exists_readable_extract htakes.1 htakes.2 h
    · cases htakes
  · subst hnormalize
    have hagg : isAggregateName "normalize" = false := by decide
    rw [hagg, Bool.false_and]
    cases hargs with
    | nil => simp at htakes
    | cons h hargs =>
      cases hargs with
      | nil =>
        exact exists_readable_single (by decide) (by decide) (by decide) hagg (fun t => rfl)
          (denotes_normalize h.denotes) h
      | cons h' hargs => simp at htakes
  · simp only [Bool.and_eq_true, Bool.not_eq_true'] at htakes
    cases hargs with
    | nil => simp at htakes
    | cons h hargs => exact exists_readable_call htakes.1.1 htakes.1.2 hdate d h hargs

theorem exists_readable_typeCast {type mod : String} {typmod : Option Int} {e : Expr}
    (htypmod : typModText typmod = some mod) (htyped : isTypedConstant type mod e = true)
    (he : printable e = true) :
    ∃ text m ts n, Readable subs (.typeCast type mod e) text m ts n := by
  unfold isTypedConstant at htyped
  split at htyped
  · rename_i data
    have hdata : '\'' ∉ data.toList := by simpa [printable, isConstant] using he
    rw [Bool.and_eq_true] at htyped
    obtain ⟨htype, hself⟩ := htyped
    split at hself
    · rename_i hmod
      subst hmod
      exact exists_readable_typed htype (of_decide_eq_true hself) hdata
    · rename_i hmod
      obtain rfl := of_decide_eq_true hself
      exact exists_readable_interval htypmod hmod hdata
  · cases htyped

theorem exists_readable (subs : Nat → Option Subquery) {n : PgNode} {e : Expr} (h : Yields n e) (he : printable e = true) :
    ∃ text m ts n, Readable subs e text m ts n := by
  induction n using PgNode.ind generalizing e with
  | columnRef fields =>
    cases h
    exact exists_readable_attribute (by simpa [printable] using he)
  | aConst val =>
    cases h with
    | integer k => exact exists_readable_integer k (by simpa [printable] using he)
    | float s => exact exists_readable_float (by simpa [printable, isConstant] using he)
    | string s => exact ⟨_, _, _, _, readable_string subs (by simpa [printable, isConstant] using he)⟩
  | aExpr kind o lexpr rexpr ihl ihr =>
    have hleft : Expr.isPresent .nullptr = false := rfl
    cases h with
    | binary hl hr =>
      simp only [printable, hl.isPresent, hr.isPresent, Bool.not_true, Bool.false_or,
        Bool.and_eq_true] at he
      obtain ⟨⟨⟨ho, hstands⟩, hel⟩, her⟩ := he
      obtain ⟨tl, ml, tsl, nl, hl⟩ := ihl hl hel
      obtain ⟨tr, mr, tsr, nr, hr⟩ := ihr hr her
      exact ⟨_, _, _, _, readable_binary hl hr ho hstands⟩
    | unary hr =>
      simp only [printable, hleft, hr.isPresent, Bool.not_true, Bool.not_false, Bool.false_or,
        Bool.true_or, Bool.and_eq_true] at he
      obtain ⟨⟨⟨ho, hstands⟩, -⟩, her⟩ := he
      obtain ⟨tr, mr, tsr, nr, hr⟩ := ihr hr her
      exact ⟨_, _, _, _, readable_unary hr ho hstands⟩
    | trailing hl =>
      simp only [printable, hleft, hl.isPresent, Bool.not_true, Bool.not_false, Bool.false_or,
        Bool.true_or, Bool.and_eq_true] at he
      obtain ⟨⟨⟨ho, hstands⟩, hel⟩, -⟩ := he
      obtain ⟨tl, ml, tsl, nl, hl⟩ := ihl hl hel
      exact ⟨_, _, _, _, readable_trailing hl ho hstands⟩
  | funcCall g ns star d ih =>
    obtain ⟨f, args, agg, distinct, rfl⟩ : ∃ f args agg distinct,
        e = .funcCall f args agg distinct := by
      cases h
      exact ⟨_, _, _, _, rfl⟩
    obtain ⟨g', ns', star', d', heq, hdate, rfl, rfl, es, hes, hargs⟩ := Yields.call_cases h
    cases heq
    rw [printable] at he
    split at he
    · rename_i hstar
      have harg : args = [.attribute "*" ""] := by
        unfold isStarArgument at hstar
        split at hstar
        · simp only [Bool.and_eq_true, decide_eq_true_eq] at hstar
          rw [hstar.1, hstar.2]
        · cases hstar
      simp only [Bool.and_eq_true, Bool.not_eq_true'] at he
      obtain ⟨⟨hword, hname⟩, hdistinct⟩ := he
      rw [hdistinct, harg]
      exact exists_readable_starCall hword hname hdate
    · rw [Bool.and_eq_true] at he
      obtain ⟨htakes, hall⟩ := he
      have hprintable := allPrintable_forall hall
      have hsame : args = es := by
        rw [hargs]
        split
        · rename_i hstar
          rw [hargs, if_pos hstar] at hprintable
          have hnot := hprintable (.attribute "*" "") (by simp)
          rw [printable_star] at hnot
          cases hnot
        · rfl
      rw [← hsame] at hes
      obtain ⟨texts, tss, ns, hreadable⟩ := exists_readableAll hes ih hprintable
      exact exists_readable_funcCall hdate d htakes hreadable
  | typeCast type typmod arg ih =>
    cases h with
    | cast hmod h =>
      rw [printable, Bool.and_eq_true] at he
      exact exists_readable_typeCast hmod he.1 he.2
  | _ => cases h

/-- Printable expressions are read back. -/
theorem readsBack_of_printable {n : PgNode} {e : Expr} (h : Yields n e)
    (he : printable e = true) : ReadsBack subs e := by
  obtain ⟨text, m, ts, n', hreadable⟩ := exists_readable subs h he
  exact hreadable.readsBack

end SqlOptimizer.Deparse.ReadableText
