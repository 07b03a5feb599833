import SqlOptimizer.Deparse.ReadableText
import SqlOptimizer.Postgres.GluedOperands

/-!
Expressions that are read back are printable: what the text is glued to otherwise is read as
something else.
-/

set_option autoImplicit false
set_option relaxedAutoImplicit false

namespace SqlOptimizer.Deparse.ExpressionRoundTrip

open Algebra.RelationalAlgebra
open Parse.PgQuery Parse.Builder Parse.ParseSqlToRa
open DeparseRaToSql ExpressionText ReadableText
open Postgres.Scanner (Mode Token digitsValue isSpecial)
open Postgres.Keywords
open Postgres.ExpressionGrammar
open Postgres.Lexemes
open Postgres.ReadTrees
open Postgres.ReadStrings (stringQuotes fieldQuotes nodeQuotes fieldQuotes_le
  nodeQuotes_le_of_readExpression isExtract
  startsExtract startsExtract_of_readFrom)
open Postgres.Renderings
open Postgres.Operands
open Postgres.GluedOperands

variable {subs : Nat → Option Subquery}

/-! ### What is read -/

theorem areScalars_forall {ns : List PgNode} (h : ∀ n ∈ ns, isScalar n = true) :
    areScalars ns = true := by
  induction ns with
  | nil => rfl
  | cons n ns ih =>
    obtain ⟨hn, hns⟩ := List.forall_mem_cons.mp h
    rw [areScalars, hn, ih hns]
    rfl

theorem isNull_of_grammatical {n : PgNode} (h : Grammatical n) : n.isNull = false := by
  cases h <;> rfl

theorem isScalar_of_grammatical {n : PgNode} (h : Grammatical n) : isScalar n = true := by
  have hnull : PgNode.isNull .nullptr = true := rfl
  induction h with
  | column hw hcol | qualified hw hcol hx | star hw hcol => rfl
  | integer hn | float hs | string s => rfl
  | unary ho hunary hnumber he ih =>
    simp [isScalar, hnull, isNull_of_grammatical he, ih]
  | trailing ho hmath he ih => simp [isScalar, hnull, isNull_of_grammatical he, ih]
  | binary ho hl hr ihl ihr =>
    simp [isScalar, isNull_of_grammatical hl, isNull_of_grammatical hr, ihl, ihr]
  | call distinct hf hname hargs ih => exact areScalars_forall ih
  | substring hargs ih => exact areScalars_forall ih
  | callStar hf hname => rfl
  | normalize he ih => simp [isScalar, areScalars, ih]
  | extract field he ih => simp [isScalar, areScalars, ih]
  | typed s hw htype | interval s hmask => rfl

/-- What a text that is read back gives. -/
structure Reading (subs : Nat → Option Subquery) (e : Expr) (text : String) (n : PgNode) :
    Prop where
  deparse_eq : deparseExpression subs e = some text
  read_eq : readExpression text = some n
  grammatical : Grammatical n
  yields : Yields n e
  quotes : nodeQuotes n ≤ text.toList.count '\''

theorem exists_reading {e : Expr} (h : ReadsBack subs e) :
    ∃ text n, Reading subs e text n := by
  obtain ⟨text, n, hdeparse, hread, hparse⟩ := h
  have hgrammatical := grammatical_of_readExpression hread
  have hyields := yields_of_parse (s := { }) (isScalar_of_grammatical hgrammatical)
    (congrFun hparse _)
  exact ⟨text, n, hdeparse, hread, hgrammatical, hyields, nodeQuotes_le_of_readExpression hread⟩

/-! ### Quotes -/

theorem argQuotes_append (es es' : List Expr) :
    argQuotes (es ++ es') = argQuotes es + argQuotes es' := by
  induction es with
  | nil => simp [argQuotes]
  | cons e es ih =>
    rw [List.cons_append, argQuotes, argQuotes, ih]
    omega

theorem argQuotes_le {ns : List PgNode} {es : List Expr} (h : List.Forall₂ Yields ns es)
    (ih : ∀ n ∈ ns, ∀ {e}, Yields n e → exprQuotes e ≤ nodeQuotes n) :
    argQuotes es ≤ Postgres.ReadStrings.argQuotes ns := by
  induction h with
  | nil => exact le_rfl
  | cons hn _ ihs =>
    have hfirst := ih _ List.mem_cons_self hn
    have hrest := ihs fun m hm => ih m (List.mem_cons_of_mem _ hm)
    rw [argQuotes, Postgres.ReadStrings.argQuotes]
    omega

theorem fieldArgQuotes_le_argQuotes (es : List Expr) : fieldArgQuotes es ≤ argQuotes es := by
  unfold fieldArgQuotes
  split
  · exact Nat.zero_le _
  · rename_i field es
    have hfield := fieldQuotes_le field
    rw [argQuotes, exprQuotes]
    omega
  · rw [argQuotes]

/-- A star behind the arguments has no quotes. -/
theorem fieldArgQuotes_star (es : List Expr) :
    fieldArgQuotes (es ++ [.attribute "*" ""]) = fieldArgQuotes es := by
  have hstar : argQuotes [.attribute "*" ""] = 0 := rfl
  cases es with
  | nil => rfl
  | cons e es =>
    rw [List.cons_append]
    unfold fieldArgQuotes
    split
    · rename_i heq
      cases heq
    · rename_i field es' heq
      cases heq
      rw [argQuotes_append, hstar, Nat.add_zero]
    · rename_i e' es' hne heq
      cases heq
      split
      · rename_i heq
        cases heq
      · rename_i field es' heq
        cases heq
        exact absurd rfl (hne field)
      · rename_i heq
        cases heq
        rw [argQuotes_append, hstar, Nat.add_zero]

theorem fieldArgQuotes_le {ns : List PgNode} {es : List Expr} (h : List.Forall₂ Yields ns es)
    (ih : ∀ n ∈ ns, ∀ {e}, Yields n e → exprQuotes e ≤ nodeQuotes n) :
    fieldArgQuotes es ≤ Postgres.ReadStrings.fieldArgQuotes ns := by
  cases h with
  | nil => exact le_rfl
  | @cons n e ns es hn hns =>
    have hfirst := ih _ List.mem_cons_self hn
    have hrest := argQuotes_le hns fun m hm => ih m (List.mem_cons_of_mem _ hm)
    cases hn with
    | string s => exact Nat.add_le_add_left hrest _
    | _ => exact Nat.add_le_add hfirst hrest

theorem exprQuotes_le {n : PgNode} {e : Expr} (h : Yields n e) :
    exprQuotes e ≤ nodeQuotes n := by
  induction n using PgNode.ind generalizing e with
  | aExpr kind o lexpr rexpr ihl ihr =>
    cases h with
    | binary hl hr => exact Nat.add_le_add (ihl hl) (ihr hr)
    | unary hr => exact Nat.add_le_add (Nat.zero_le _) (ihr hr)
    | trailing hl => exact Nat.add_le_add (ihl hl) (Nat.zero_le _)
  | funcCall f ns star d ih =>
    cases h with
    | @call _ _ es _ _ h =>
      have hall := argQuotes_le h ih
      have hfield := fieldArgQuotes_le h ih
      have hstar : argQuotes (if star = true then es ++ [.attribute "*" ""] else es) =
          argQuotes es := by
        split
        · rw [argQuotes_append]
          rfl
        · rfl
      have hfieldStar : fieldArgQuotes (if star = true then es ++ [.attribute "*" ""] else es) =
          fieldArgQuotes es := by
        split
        · exact fieldArgQuotes_star es
        · rfl
      have hle := fieldArgQuotes_le_argQuotes es
      rw [exprQuotes, nodeQuotes, hstar, hfieldStar]
      by_cases hdate : f = "date_part"
      · have hname : raFuncName f = "extract" := if_pos hdate
        rw [if_pos hname, if_pos hdate]
        exact hfield
      · rw [if_neg hdate]
        split <;> omega
  | typeCast type typmod arg ih =>
    cases h with
    | cast hmod h =>
      rw [exprQuotes, nodeQuotes]
      exact ih h
  | columnRef fields =>
    cases h
    exact Nat.zero_le _
  | aConst val =>
    cases h with
    | integer k | float s => exact Nat.zero_le _
    | string s => exact le_rfl
  | _ => cases h

/-! ### Columns and constants -/

theorem isColumn_of_grammatical {name aliasName : String} {n : PgNode} (hn : Grammatical n)
    (h : Yields n (.attribute name aliasName)) : isColumn name aliasName = true := by
  have hne {w : String} (hw : isWord w = true) : w ≠ "" := by
    rintro rfl
    exact absurd hw (by decide)
  cases h with
  | column hcolumn =>
    cases hn with
    | column hw hcol =>
      cases hcolumn
      simp [isColumn, hw, hcol]
    | qualified hw hcol hx =>
      cases hcolumn
      simp [isColumn, hne hw, hw, hcol, hx]
    | star hw hcol =>
      cases hcolumn
      simp [isColumn, hne hw, hw, hcol]

theorem digitsValue_unsigned (k : Int) :
    digitsValue (unsigned (toString k).toList) = k.natAbs := by
  cases k with
  | ofNat j =>
    obtain ⟨hne, hdigits, hj⟩ := toDigits_spec j
    have hchars : (toString (Int.ofNat j)).toList = Nat.toDigits 10 j := Nat.toList_repr
    rw [hchars, unsigned_digits hne hdigits, hj]
    rfl
  | negSucc j =>
    obtain ⟨-, -, hj⟩ := toDigits_spec (j + 1)
    rw [toString_negSucc]
    exact hj

theorem isConstant_of_reading {data text : String} {type : DataType} {n : PgNode}
    (h : Reading subs (.constant data type) text n) : isConstant data type = true := by
  have hgrammatical := h.grammatical
  have hquotes := (exprQuotes_le h.yields).trans h.quotes
  have hdeparse := h.deparse_eq
  cases h.yields with
  | integer k =>
    cases hgrammatical with
    | integer hk =>
      rw [isConstant, digitsValue_unsigned]
      exact decide_eq_true hk
  | float s =>
    cases hgrammatical with
    | float hs => exact hs
  | string s =>
    have htext : ("'" ++ data ++ "'") = text := Option.some.inj hdeparse
    rw [← htext] at hquotes
    simp only [exprQuotes, stringQuotes, String.toList_append, List.count_append] at hquotes
    have hquote : "'".toList.count '\'' = 1 := by decide
    have hzero : data.toList.count '\'' = 0 := by omega
    exact decide_eq_true (List.count_eq_zero.mp hzero)

/-! ### Operators -/

/-- A number with a sign, without it. -/
structure Unsigned (subs : Nat → Option Subquery) (e : Expr) (ds : List Char) (m : Mode)
    (t : Token) (n : PgNode) : Prop where
  deparse_eq : deparseExpression subs e = some (String.ofList ('-' :: ds))
  startsPlain : StartsPlain ds
  isLine : IsLine ds
  rendering : Rendering ds m [t]
  denotes : Denotes [t] n
  ne_word : ∀ w, t ≠ .word w

theorem exists_unsigned {n : PgNode} {e : Expr} (h : Yields n e) (he : printable e = true)
    (hsigned : isSigned e = true) : ∃ ds m t n, Unsigned subs e ds m t n := by
  cases h with
  | integer k =>
    have hvalue : digitsValue (unsigned (toString k).toList) < 2 ^ 31 := by
      simpa [printable, isConstant] using he
    cases k with
    | ofNat j =>
      obtain ⟨hne, hdigits, -⟩ := toDigits_spec j
      have hchars : (toString (Int.ofNat j)).toList = Nat.toDigits 10 j := Nat.toList_repr
      have hminus := head_ne_minus (startsNumber_digits hne hdigits)
      simp only [isSigned, hchars, Bool.and_eq_true, decide_eq_true_eq] at hsigned
      exact absurd hsigned.2 hminus
    | negSucc j =>
      obtain ⟨ds, hchars, hstarts, hdigits, hrendering⟩ := negative_integer hvalue
      have htext : toString (Int.negSucc j) = String.ofList ('-' :: ds) := by
        rw [← hchars, String.ofList_toList]
      exact ⟨ds, _, _, _, congrArg some htext, startsPlain_number hstarts,
        isLine_of_number (isNumberChar_digits hdigits), hrendering, denotes_integer _, by simp⟩
  | float data =>
    have hnumeral : isNumeral data = true := by simpa [printable, isConstant] using he
    simp only [isSigned, Bool.and_eq_true, decide_eq_true_eq] at hsigned
    unfold isNumeral at hnumeral
    split at hnumeral
    · rename_i ds hds
      obtain ⟨m, -, hrendering⟩ := rendering_float hnumeral
      have hchars := isNumberChar_of_isFloat hnumeral
      have hstarts : startsNumber ds = true := by
        rw [isFloat, String.toList_ofList, Bool.and_eq_true] at hnumeral
        exact hnumeral.1
      have htext : data = String.ofList ('-' :: ds) := by rw [← hds, String.ofList_toList]
      rw [String.toList_ofList] at hrendering hchars
      exact ⟨ds, m, _, _, congrArg some htext, startsPlain_number hstarts,
        isLine_of_number hchars, hrendering, denotes_float _, by simp⟩
    · have hstarts : startsNumber data.toList = true := by
        rw [isFloat, Bool.and_eq_true] at hnumeral
        exact hnumeral.1
      exact absurd hsigned.2 (head_ne_minus hstarts)
  | _ => simp [isSigned, isNumber] at hsigned

theorem isOperator_of_grammatical {kind : AExprKind} {o : String} {m n : PgNode}
    (h : Grammatical (.aExpr kind o m n)) : isOperator o = true := by
  cases h <;> assumption

/-- The columns whose text ends in a star. -/
theorem lastName_star {n : PgNode} {e : Expr} (h : Yields n e) (he : printable e = true)
    (hlast : lastName e = some "*") :
    ∃ w, isWord w = true ∧ ∀ subs, deparseExpression subs e = some (w ++ "." ++ "*") := by
  cases h with
  | @column fields name aliasName hfields =>
    cases hlast
    have hcolumn : isColumn "*" aliasName = true := by simpa [printable] using he
    unfold isColumn at hcolumn
    split at hcolumn
    · exact absurd hcolumn (by decide)
    · rename_i halias
      simp only [Bool.and_eq_true] at hcolumn
      exact ⟨aliasName, hcolumn.1.1, fun subs => congrArg some (if_pos halias)⟩
  | _ => cases hlast

section

variable {l r : Expr} {tl tr o text : String} {ml mr : Mode} {tsl tsr : List Token}
  {nl nr n : PgNode}

/-- The text that is read. -/
theorem Reading.read_text (h : Reading subs l text n) {cs : List Char}
    (htext : deparseExpression subs l = some (String.ofList cs)) :
    readExpression (String.ofList cs) = some n := by
  have hsame := h.deparse_eq
  rw [htext] at hsame
  cases hsame
  exact h.read_eq

/-- What stands behind the operator in front of an operand. -/
theorem tail_cases (hr : Readable subs r tr mr tsr nr) (her : printable r = true) :
    StartsPlain (tr.toList ++ [')']) ∨
      StartsMinus (tr.toList ++ [')']) ∧ IsLine (tr.toList ++ [')']) := by
  by_cases hsigned : isSigned r = true
  · obtain ⟨ds, m, t, k, hu⟩ := exists_unsigned hr.yields her hsigned
    have htext : tr = String.ofList ('-' :: ds) := by
      have hdeparse := hr.deparse_eq
      rw [hu.deparse_eq] at hdeparse
      exact (Option.some.inj hdeparse).symm
    refine .inr ⟨?_, ?_⟩
    · rw [htext, String.toList_ofList]
      exact hu.startsPlain.minus.append _
    · rw [htext, String.toList_ofList]
      intro c hc
      rcases List.mem_append.mp hc with hc | hc
      · rcases List.mem_cons.mp hc with rfl | hc
        · rfl
        · exact hu.isLine c hc
      · rw [List.mem_singleton.mp hc]
        rfl
  · have hfirst := hr.edges.first
    rw [if_neg hsigned] at hfirst
    exact .inl (hfirst.append _)

/-- An operator behind a star is a sign. -/
theorem sign_of_star (hl : Readable subs l tl ml tsl nl) (hel : printable l = true)
    (ho : isOperator o = true) {cs : List Char} (hcs : StartsPlain cs ∨ StartsMinus cs ∧ IsLine cs)
    (hread : readExpression (String.ofList ('(' :: (tl.toList ++ (o.toList ++ cs)))) = some n)
    (hlast : lastName l = some "*") : o = "+" ∨ o = "-" := by
  by_contra hsign
  rw [not_or] at hsign
  obtain ⟨w, hw, hdeparse⟩ := lastName_star hl.yields hel hlast
  have htext : tl = w ++ "." ++ "*" := by
    have hsame := hl.deparse_eq
    rw [hdeparse subs] at hsame
    exact (Option.some.inj hsame).symm
  have hchars : tl.toList ++ (o.toList ++ cs) = w.toList ++ '.' :: '*' :: (o.toList ++ cs) := by
    rw [htext]
    simp
  rw [hchars, not_read_star hw ho hsign hcs] at hread
  cases hread

/-- The string behind `u&` belongs to it. -/
theorem not_string_of_unicode (hl : Readable subs l tl ml tsl nl)
    (hr : Readable subs r tr mr tsr nr)
    (hread : readExpression (String.ofList ('(' :: (tl.toList ++ ("&".toList ++
      (tr.toList ++ [')']))))) = some n)
    (hlast : lastName l = some "u") : isString r = false := by
  rw [Bool.eq_false_iff]
  intro hstring
  have hquote := hr.edges.quote.mpr hstring
  have hmode := hl.edges.unicode.mpr hlast
  have hrendering := hl.rendering
  rw [hmode] at hrendering
  cases hcs : tr.toList with
  | nil =>
    rw [hcs] at hquote
    cases hquote
  | cons c cs =>
    rw [hcs] at hquote hread
    cases hquote
    have hchars : tl.toList ++ ("&".toList ++ ('\'' :: cs ++ [')'])) =
        tl.toList ++ '&' :: '\'' :: (cs ++ [')']) := rfl
    rw [hchars, not_read_unicode hrendering] at hread
    cases hread

/-- The text of a signed number behind an operator. -/
theorem signed_text {ds cs : List Char} {m : Mode} {t : Token} {k : PgNode}
    (hr : Readable subs r tr mr tsr nr) (hu : Unsigned subs r ds m t k) :
    tr.toList ++ cs = '-' :: (ds ++ cs) := by
  have hdeparse := hr.deparse_eq
  rw [hu.deparse_eq] at hdeparse
  cases hdeparse
  rw [String.toList_ofList]
  rfl

theorem isLine_concat {ds : List Char} (h : IsLine ds) : IsLine (ds ++ [')']) := by
  intro c hc
  rcases List.mem_append.mp hc with hc | hc
  · exact h c hc
  · rw [List.mem_singleton.mp hc]
    rfl

/-- A special operator that ends in a minus sign. -/
theorem special_dropLast (hspecial : o.toList.any isSpecial = true)
    (hlast : o.toList.getLast? = some '-') :
    ∃ os, o.toList = os ++ ['-'] ∧ os.any isSpecial = true := by
  obtain ⟨os, hos⟩ := List.getLast?_eq_some_iff.mp hlast
  refine ⟨os, hos, ?_⟩
  have hminus : ['-'].any isSpecial = false := by decide
  rwa [hos, List.any_append, hminus, Bool.or_false] at hspecial

theorem yields_operator {kind : AExprKind} {o' : String} {m n : PgNode}
    (h : Yields (.aExpr kind o' m n) (.expression l r o)) : o' = o := by
  cases h <;> rfl

theorem append_minus_ne (o : String) : o ++ "-" ≠ o := by
  intro h
  have hlength := congrArg (fun s => s.toList.length) h
  simp at hlength

/-- The operator takes the sign of the number behind it. -/
theorem read_longer {ds : List Char} {m : Mode} {t : Token} {k : PgNode}
    (hl : Readable subs l tl ml tsl nl) (hu : Unsigned subs r ds m t k)
    (hmode : ml ≠ .operator ['*']) (ho : isOperator (o ++ "-") = true) :
    readExpression (String.ofList ('(' :: (tl.toList ++ (o.toList ++ '-' :: (ds ++ [')']))))) =
      some (.aExpr .op (o ++ "-") nl k) := by
  have hallows : Allows ml (o ++ "-") ds := by
    refine ⟨fun h => absurd h hmode, fun _ h => ?_⟩
    have hlast := congrArg (fun s => s.toList.getLast?) h
    simp at hlast
  have hfollow : MayFollow (o ++ "-") [t] := by
    intro _ w hw
    exact absurd (Option.some.inj hw) (hu.ne_word w)
  have hinner := hl.rendering.followed
    (hu.rendering.behind_operator ho (ends_operator_plain hu.startsPlain)) fun tail => by
      rw [List.append_assoc]
      exact ends_before_operator hl.rendering.closable ho hallows hu.startsPlain tail
  have hrendering := (reads_lpar.append hinner.append_rpar).rendering
  have hdenotes := denotes_binary hl.denotes hu.denotes hfollow
  have hread := readExpression_of_rendering hrendering (by simpa using hdenotes)
  have hchars : ['('] ++ (tl.toList ++ ((o ++ "-").toList ++ ds) ++ [')']) =
      '(' :: (tl.toList ++ (o.toList ++ '-' :: (ds ++ [')']))) := by simp
  rwa [hchars] at hread

/-- A signed number behind an operand and a special operator. -/
theorem allowsSign_binary (hl : Readable subs l tl ml tsl nl) (hr : Readable subs r tr mr tsr nr)
    (her : printable r = true) (ho : isOperator o = true)
    (hstar : lastName l = some "*" → o = "+" ∨ o = "-") (hn : Yields n (.expression l r o))
    (hread : readExpression
      (String.ofList ('(' :: (tl.toList ++ (o.toList ++ (tr.toList ++ [')']))))) = some n) :
    allowsSign o r = true := by
  unfold allowsSign
  by_contra hnot
  simp only [Bool.or_eq_true, Bool.not_eq_true', Bool.and_eq_true, decide_eq_true_eq, not_or,
    not_and_or, Bool.not_eq_false, not_not] at hnot
  obtain ⟨hsigned, hnot⟩ := hnot
  obtain ⟨ds, m, t, k, hu⟩ : ∃ ds m t k, Unsigned subs r ds m t k :=
    exists_unsigned hr.yields her hsigned
  have hline := isLine_concat hu.isLine
  rw [signed_text hr hu] at hread
  by_cases hminus : o = "-"
  · subst hminus
    have hcomment := not_read_comment hl.rendering hl.denotes hline
    have hchars : "-".toList ++ '-' :: (ds ++ [')']) = '-' :: '-' :: (ds ++ [')']) := rfl
    rw [hchars, hcomment] at hread
    cases hread
  · have hspecial : o.toList.any isSpecial = true := by
      rcases hnot with hnot | hnot
      · exact absurd hnot hminus
      · exact hnot
    have hmode : ml ≠ .operator ['*'] := by
      intro hml
      rcases hstar (hl.edges.star.mp hml) with rfl | rfl
      · exact absurd hspecial (by decide)
      · exact absurd rfl hminus
    by_cases hlast : o.toList.getLast? = some '-'
    · obtain ⟨os, hos, hspecial⟩ := special_dropLast hspecial hlast
      have hrun := (isOperator_iff.mp ho).2.1
      rw [hos] at hrun hread
      have hcomment :=
        not_read_operator_comment hl.rendering hl.denotes hmode hspecial hrun hline
      have hchars : os ++ '-' :: '-' :: (ds ++ [')']) = os ++ ['-'] ++ '-' :: (ds ++ [')']) := by
        simp
      rw [hchars, hread] at hcomment
      cases hcomment
    · have ho' := isOperator_append_minus ho hspecial hlast
      have hlonger := read_longer hl hu hmode ho'
      rw [hread] at hlonger
      cases hlonger
      exact append_minus_ne o (yields_operator hn)

/-- A word behind a generic operator. -/
theorem firstWord_binary (hl : Readable subs l tl ml tsl nl) (hr : Readable subs r tr mr tsr nr)
    (ho : isOperator o = true) (hallows : Allows ml o tr.toList) (hsign : allowsSign o r = true)
    (hread : readExpression ("(" ++ tl ++ o ++ tr ++ ")") = some n) :
    (isMathOp o || (firstWord r).all (· ∉ afterPostfix)) = true := by
  by_contra hnot
  rw [Bool.or_eq_true, not_or, Bool.not_eq_true, Bool.not_eq_true] at hnot
  obtain ⟨hmath, hword⟩ := hnot
  obtain ⟨w, hfirst, hw⟩ : ∃ w, firstWord r = some w ∧ w ∈ afterPostfix := by
    cases hfirst : firstWord r with
    | none =>
      rw [hfirst] at hword
      cases hword
    | some w => exact ⟨w, rfl, by simpa [hfirst] using hword⟩
  have hhead := (hr.edges.word w).mpr hfirst
  obtain ⟨us, htokens⟩ : ∃ us, tsr = .word w :: us := List.head?_eq_some_iff.mp hhead
  have hscan := scan_of_rendering (rendering_binary hl hr ho hallows hsign)
  have hnone := readFrom_postfix hl.denotes hmath hw (us ++ [.rpar])
  rw [String.ofList_toList] at hscan
  rw [readExpression, hscan, Option.bind_some, htokens, List.cons_append, hnone] at hread
  cases hread

theorem standsApart_binary (hl : Readable subs l tl ml tsl nl) (hr : Readable subs r tr mr tsr nr)
    (hel : printable l = true) (her : printable r = true)
    (h : Reading subs (.expression l r o) text n) (ho : isOperator o = true) :
    standsApart l r o = true := by
  have hchars : ("(" ++ tl ++ o ++ tr ++ ")") =
      String.ofList ('(' :: (tl.toList ++ (o.toList ++ (tr.toList ++ [')'])))) := by
    apply String.toList_inj.mp
    simp
  have htext := deparse_binary hl hr o
  rw [hchars] at htext
  have hread := h.read_text htext
  have hstar := sign_of_star hl hel ho (tail_cases hr her) hread
  have hsign := allowsSign_binary hl hr her ho hstar h.yields hread
  have hunicode : lastName l = some "u" → o = "&" → isString r = false := by
    rintro hlast rfl
    exact not_string_of_unicode hl hr hread hlast
  have hallows := hl.allows hr hstar hunicode
  rw [← hchars] at hread
  have hword := firstWord_binary hl hr ho hallows hsign hread
  simp only [standsApart, hl.yields.isPresent, hr.yields.isPresent, hsign, hword, Bool.and_true,
    Bool.and_eq_true, Bool.or_eq_true, decide_eq_true_eq, Bool.not_eq_true']
  refine ⟨?_, ?_⟩
  · by_cases hlast : lastName l = some "*"
    · rcases hstar hlast with hplus | hminus
      · exact .inl (.inr hplus)
      · exact .inr hminus
    · exact .inl (.inl hlast)
  · rw [Bool.eq_false_iff]
    intro hall
    simp only [Bool.and_eq_true, decide_eq_true_eq] at hall
    have hnot := hunicode hall.1.1 hall.1.2
    rw [hall.2] at hnot
    cases hnot

/-- The operators that end in a minus sign are generic ones. -/
theorem isUnaryOp_of_last (hne : o ≠ "-") (hlast : o.toList.getLast? = some '-') :
    isUnaryOp o = true := by
  have hmath : isMathOp o = false := by
    rw [Bool.eq_false_iff]
    intro hmath
    simp only [isMathOp, isComparison, Bool.or_eq_true, decide_eq_true_eq, List.mem_cons,
      List.not_mem_nil, or_false] at hmath
    rcases hmath with (rfl | rfl | rfl | rfl | rfl | rfl) | rfl | rfl | rfl | rfl | rfl | rfl <;>
      first
        | exact absurd rfl hne
        | exact absurd hlast (by decide)
  simp [isUnaryOp, hmath]

/-- A signed number behind a special operator. -/
theorem allowsSign_unary (hr : Readable subs r tr mr tsr nr) (her : printable r = true)
    (ho : isOperator o = true) (hnumber : o = "-" → isNumber r = false)
    (hn : Yields n (.expression .nullptr r o))
    (hread : readExpression (String.ofList ('(' :: (o.toList ++ (tr.toList ++ [')'])))) = some n) :
    allowsSign o r = true := by
  unfold allowsSign
  by_contra hnot
  simp only [Bool.or_eq_true, Bool.not_eq_true', Bool.and_eq_true, decide_eq_true_eq, not_or,
    not_and_or, Bool.not_eq_false, not_not] at hnot
  obtain ⟨hsigned, hnot⟩ := hnot
  obtain ⟨ds, m, t, k, hu⟩ : ∃ ds m t k, Unsigned subs r ds m t k :=
    exists_unsigned hr.yields her hsigned
  have hisNumber : isNumber r = true := by
    cases r with
    | constant data type =>
      rw [isSigned, Bool.and_eq_true] at hsigned
      exact hsigned.1
    | _ => cases hsigned
  have hspecial : o.toList.any isSpecial = true := by
    rcases hnot with hnot | hnot
    · rw [hnumber hnot] at hisNumber
      cases hisNumber
    · exact hnot
  rw [signed_text hr hu] at hread
  by_cases hlast : o.toList.getLast? = some '-'
  · obtain ⟨os, hos, hspecial⟩ := special_dropLast hspecial hlast
    have hrun := (isOperator_iff.mp ho).2.1
    rw [hos] at hrun hread
    have hcomment := not_read_unary_comment hspecial hrun (isLine_concat hu.isLine)
    have hchars : os ++ '-' :: '-' :: (ds ++ [')']) = os ++ ['-'] ++ '-' :: (ds ++ [')']) := by
      simp
    rw [hchars, hread] at hcomment
    cases hcomment
  · have ho' := isOperator_append_minus ho hspecial hlast
    have hne : o ++ "-" ≠ "-" := by
      intro h
      have hnil : o.toList = [] := by simpa using congrArg String.toList h
      rw [hnil] at hspecial
      cases hspecial
    have hunary : isUnaryOp (o ++ "-") = true := isUnaryOp_of_last hne (by simp)
    have hinner := (hu.rendering.behind_operator ho'
      (ends_operator_plain hu.startsPlain)).append_rpar
    have hlonger := readExpression_of_rendering (reads_lpar.append hinner).rendering
      (denotes_unary hu.denotes hunary)
    have hchars : ['('] ++ ((o ++ "-").toList ++ ds ++ [')']) =
        '(' :: (o.toList ++ '-' :: (ds ++ [')'])) := by simp
    have hnode : makeUnary (o ++ "-") k = .aExpr .op (o ++ "-") .nullptr k := if_neg hne
    rw [hchars, hread, hnode] at hlonger
    cases hlonger
    exact append_minus_ne o (yields_operator hn)

theorem standsApart_unary (hr : Readable subs r tr mr tsr nr) (her : printable r = true)
    (h : Reading subs (.expression .nullptr r o) text n) (ho : isOperator o = true) :
    standsApart .nullptr r o = true := by
  have hlp : Expr.isPresent .nullptr = false := rfl
  have hchars : ("(" ++ o ++ tr ++ ")") =
      String.ofList ('(' :: (o.toList ++ (tr.toList ++ [')']))) := by
    apply String.toList_inj.mp
    simp
  have htext := deparse_unary hr o
  rw [hchars] at htext
  have hread := h.read_text htext
  obtain ⟨hunary, hnumber⟩ : isUnaryOp o = true ∧ (o = "-" → isNumber r = false) := by
    have hgrammatical := h.grammatical
    cases h.yields with
    | binary hl _ => exact absurd hl.isPresent (by decide)
    | trailing hl => exact absurd hl.isPresent (by decide)
    | unary hr' =>
      cases hgrammatical with
      | unary _ hunary hnumber _ =>
        exact ⟨hunary, fun hminus => (isNumberNode_of_yields hr').symm.trans (hnumber hminus)⟩
      | trailing _ _ he => exact absurd (isNull_of_grammatical he) (by decide)
      | binary _ hl _ => exact absurd (isNull_of_grammatical hl) (by decide)
  have hsign := allowsSign_unary hr her ho hnumber h.yields hread
  simp only [standsApart, hlp, hr.yields.isPresent, hunary, hsign, Bool.true_and, Bool.and_true]
  rw [Bool.not_eq_true', Bool.eq_false_iff]
  intro hall
  rw [Bool.and_eq_true, decide_eq_true_eq] at hall
  rw [hnumber hall.1] at hall
  cases hall.2

theorem standsApart_trailing (hl : Readable subs l tl ml tsl nl) (hel : printable l = true)
    (h : Reading subs (.expression l .nullptr o) text n) (ho : isOperator o = true) :
    standsApart l .nullptr o = true := by
  have hrp : Expr.isPresent .nullptr = false := rfl
  have hchars : ("(" ++ tl ++ o ++ ")") =
      String.ofList ('(' :: (tl.toList ++ (o.toList ++ [')']))) := by
    apply String.toList_inj.mp
    simp
  have htext := deparse_trailing hl o
  rw [hchars] at htext
  have hread := h.read_text htext
  have hplain : StartsPlain [')'] := ⟨')', rfl, by decide, by decide⟩
  have hmath : isMathOp o = false := by
    have hgrammatical := h.grammatical
    cases h.yields with
    | binary _ hr => exact absurd hr.isPresent (by decide)
    | unary hr => exact absurd hr.isPresent (by decide)
    | trailing _ =>
      cases hgrammatical with
      | trailing _ hmath _ => exact hmath
      | unary _ _ _ he => exact absurd (isNull_of_grammatical he) (by decide)
      | binary _ _ hr => exact absurd (isNull_of_grammatical hr) (by decide)
  have hstar : lastName l ≠ some "*" := by
    intro hlast
    rcases sign_of_star hl hel ho (.inl hplain) hread hlast with rfl | rfl
    · exact absurd hmath (by decide)
    · exact absurd hmath (by decide)
  simp [standsApart, hrp, hl.yields.isPresent, hmath, hstar]

end

/-! ### Calls -/

section

variable {f text : String} {args es : List Expr} {agg distinct : Bool} {n : PgNode}
  {ns : List PgNode}

/-- No argument of a call is a star on its own. -/
theorem not_isStarArgument (h : List.Forall₂ Yields ns es) (hns : ∀ n ∈ ns, Grammatical n) :
    isStarArgument es = false := by
  rw [Bool.eq_false_iff]
  intro hstar
  unfold isStarArgument at hstar
  split at hstar
  · rename_i name aliasName
    simp only [Bool.and_eq_true, decide_eq_true_eq] at hstar
    obtain ⟨rfl, rfl⟩ := hstar
    cases h with
    | cons hn _ =>
      have hcolumn := isColumn_of_grammatical (hns _ List.mem_cons_self) hn
      exact absurd hcolumn (by decide)
  · cases hstar

theorem exists_yields (h : List.Forall₂ Yields ns es) {a : Expr} (ha : a ∈ es) :
    ∃ n ∈ ns, Yields n a := by
  induction h with
  | nil => cases ha
  | cons hn _ ih =>
    rcases List.mem_cons.mp ha with rfl | ha
    · exact ⟨_, List.mem_cons_self, hn⟩
    · obtain ⟨n, hmem, hyields⟩ := ih ha
      exact ⟨n, List.mem_cons_of_mem _ hmem, hyields⟩

/-- A star is read as the only argument. -/
theorem star_not_mem (h : Reading subs (.funcCall f args agg distinct) text n)
    (hstar : isStarArgument args = false) : .attribute "*" "" ∉ args := by
  intro hmem
  have hgrammatical := h.grammatical
  obtain ⟨g, ns, star, d, rfl, -, -, -, es, hes, rfl⟩ := Yields.call_cases h.yields
  cases star with
  | true =>
    cases hgrammatical
    cases hes
    cases hstar
  | false =>
    rw [if_neg (by simp)] at hmem
    have hns : ∀ n ∈ ns, Grammatical n := by
      cases hgrammatical with
      | call _ _ _ hns | substring hns => exact hns
      | normalize he => simpa using he
      | extract field he => simpa using ⟨.string field, he⟩
    obtain ⟨n, hn, hyields⟩ := exists_yields hes hmem
    exact absurd (isColumn_of_grammatical (hns n hn) hyields) (by decide)

theorem allPrintable_of_forall (h : ∀ a ∈ args, printable a = true) :
    allPrintable args = true := by
  induction args with
  | nil => rfl
  | cons a args ih =>
    obtain ⟨ha, hargs⟩ := List.forall_mem_cons.mp h
    rw [allPrintable, ha, ih hargs]
    rfl

theorem printable_of_takesArguments (hstar : isStarArgument args = false)
    (htakes : takesArguments f args = true) (hargs : ∀ a ∈ args, printable a = true) :
    printable (.funcCall f args agg distinct) = true := by
  rw [printable, hstar, if_neg (by simp), htakes, allPrintable_of_forall hargs]
  rfl

/-- The printed arguments of a call. -/
theorem Reading.strings (h : Reading subs (.funcCall f args agg distinct) text n) :
    ∃ strs, printExpressions subs args = some strs ∧
      deparseFuncCall f strs agg distinct = some text := by
  have hdeparse := h.deparse_eq
  rw [deparseExpression, print, Printed.ofExpression] at hdeparse
  exact Option.bind_eq_some_iff.mp hdeparse

theorem length_printExpressions {strs : List String}
    (h : printExpressions subs args = some strs) : strs.length = args.length := by
  induction args generalizing strs with
  | nil =>
    cases h
    rfl
  | cons a args ih =>
    rw [printExpressions] at h
    obtain ⟨s, -, h⟩ := Option.bind_eq_some_iff.mp h
    obtain ⟨ss, hss, rfl⟩ := Option.map_eq_some_iff.mp h
    rw [List.length_cons, List.length_cons, ih hss]

theorem takesArguments_call (h : Reading subs (.funcCall f args agg distinct) text n)
    (hf : isWord f = true) (hname : isFunctionName f = true) : takesArguments f args = true := by
  have hsubstring := ne_of_isFunctionName (w := "substring") (by decide) hname
  have hextract := ne_of_isFunctionName (w := "extract") (by decide) hname
  have hnormalize := ne_of_isFunctionName (w := "normalize") (by decide) hname
  obtain ⟨strs, hstrs, hdeparse⟩ := h.strings
  have hne : args.isEmpty = false := by
    cases args with
    | nil =>
      cases hstrs
      simp [deparseFuncCall, hsubstring, hextract] at hdeparse
    | cons a args => rfl
  simp [takesArguments, hsubstring, hextract, hnormalize, hf, hname, hne]

/-- A substring without arguments, or with too many, is printed as nothing. -/
theorem takesArguments_substring
    (h : Reading subs (.funcCall "substring" args agg distinct) text n) :
    takesArguments "substring" args = true := by
  obtain ⟨strs, hstrs, hdeparse⟩ := h.strings
  have hlength := length_printExpressions hstrs
  have hread := h.read_eq
  have hempty : readExpression "" = none := rfl
  unfold takesArguments
  rw [if_pos rfl, ← hlength]
  unfold deparseFuncCall at hdeparse
  rw [if_pos rfl] at hdeparse
  split at hdeparse
  · rfl
  · rfl
  · rfl
  · cases hdeparse
    rw [hempty] at hread
    cases hread

/-- The text of an extract. -/
theorem extract_text (h : Reading subs (.funcCall "extract" args agg distinct) text n) :
    ∃ a b ta tb, args = [a, b] ∧ deparseExpression subs a = some ta ∧
      deparseExpression subs b = some tb ∧ text.toList = "extract".toList ++ ['('] ++
        (ta.toList.filter (· ≠ '\'') ++ (" from ".toList ++ (tb.toList ++ [')']))) := by
  obtain ⟨strs, hstrs, hdeparse⟩ := h.strings
  unfold deparseFuncCall at hdeparse
  rw [if_neg (by decide), if_pos rfl] at hdeparse
  split at hdeparse
  · rename_i ta tb
    have hlength := length_printExpressions hstrs
    cases args with
    | nil => cases hlength
    | cons a args =>
      cases args with
      | nil => cases hlength
      | cons b args =>
        cases args with
        | cons c args => simp at hlength
        | nil =>
          simp only [printExpressions, Option.bind_eq_some_iff, Option.map_eq_some_iff] at hstrs
          obtain ⟨sa, ha, ss, ⟨sb, hb, ss', hss', rfl⟩, heq⟩ := hstrs
          cases hss'
          cases heq
          cases hdeparse
          refine ⟨a, b, ta, tb, rfl, ha, hb, ?_⟩
          simp
  · cases hdeparse

/-- The arguments of an extract at the left end of a call. -/
theorem field_of_startsExtract {a b : Expr} (h : Yields n (.funcCall f [a, b] agg distinct))
    (hstarts : startsExtract n = true) :
    ∃ field, a = .constant field .string ∧ ∃ m, Yields m b := by
  obtain ⟨g, ns, star, d, rfl, -, -, -, es, hes, hargs⟩ := Yields.call_cases h
  rw [startsExtract] at hstarts
  unfold isExtract at hstarts
  split at hstarts
  · rename_i field m
    cases hes with
    | cons hfield hes =>
      cases hfield
      cases hes with
      | cons hm hes =>
        cases hes
        split at hargs
        · have hlength := congrArg List.length hargs
          simp at hlength
        · cases hargs
          exact ⟨field, rfl, m, hm⟩
  · cases hstarts

/-- A tree that is read from an extract has a field. -/
theorem takesArguments_extract (h : Reading subs (.funcCall "extract" args agg distinct) text n)
    (hargs : ∀ a ∈ args, printable a = true) :
    isStarArgument args = false ∧ takesArguments "extract" args = true := by
  obtain ⟨a, b, ta, tb, rfl, hta, htb, hchars⟩ := extract_text h
  have hread := h.read_eq
  have hstarts : startsExtract n = true := by
    obtain ⟨tokens, htokens, hfrom⟩ := Option.bind_eq_some_iff.mp hread
    have hword : isWord "extract" = true := by decide
    rw [Postgres.Scanner.scan, hchars, reads_word_lpar hword] at htokens
    obtain ⟨us, -, rfl⟩ := Option.map_eq_some_iff.mp htokens
    exact startsExtract_of_readFrom hfrom
  have hquotes := (exprQuotes_le h.yields).trans h.quotes
  obtain ⟨field, rfl, m, hm⟩ : ∃ field, a = .constant field .string ∧ ∃ m, Yields m b :=
    field_of_startsExtract h.yields hstarts
  obtain ⟨tb', mb, tsb, nb, hb⟩ : ∃ text m ts n, Readable subs b text m ts n :=
    exists_readable subs hm (hargs b (by simp))
  have hcount := hb.quotes
  have hsame : tb' = tb := by
    have hdeparse := hb.deparse_eq
    rw [htb] at hdeparse
    exact (Option.some.inj hdeparse).symm
  have hfilter : (ta.toList.filter (· ≠ '\'')).count '\'' = 0 := by
    rw [List.count_eq_zero]
    intro hmem
    simpa using (List.mem_filter.mp hmem).2
  have hextract : "extract".toList.count '\'' = 0 := by decide
  have hfrom : " from ".toList.count '\'' = 0 := by decide
  rw [hchars, exprQuotes, if_pos rfl, fieldArgQuotes, argQuotes, argQuotes] at hquotes
  simp only [List.count_append, hfilter, hextract, hfrom] at hquotes
  rw [hsame] at hcount
  have hzero : fieldQuotes field = 0 := by
    have hrpar : [')'].count '\'' = 0 := by decide
    have hlpar : ['('].count '\'' = 0 := by decide
    omega
  have hword : (isWord field && isExtractField field) = true := by
    by_contra hnot
    rw [fieldQuotes, if_neg hnot, stringQuotes] at hzero
    omega
  exact ⟨rfl, by simpa [takesArguments] using hword⟩

/-- A call that is read back takes its arguments. -/
theorem printable_call (h : Reading subs (.funcCall f args agg distinct) text n)
    (hargs : isStarArgument args = false → ∀ a ∈ args, printable a = true) :
    printable (.funcCall f args agg distinct) = true := by
  have hgrammatical := h.grammatical
  obtain ⟨g, ns, star, d, rfl, -, -, hdistinct, es, hes, hall⟩ := Yields.call_cases h.yields
  have hname : f = raFuncName g := by
    cases h.yields
    rfl
  cases hgrammatical with
  | callStar hg hgname =>
    cases hes
    rw [if_pos rfl, List.nil_append] at hall
    rw [Bool.and_false] at hdistinct
    subst hall hdistinct
    have hdate : g ≠ "date_part" := by
      rintro rfl
      rw [show raFuncName "date_part" = "extract" from rfl] at hname
      subst hname
      obtain ⟨a, b, ta, tb, heq, -⟩ := extract_text h
      cases heq
    rw [raFuncName_of_ne hdate] at hname
    subst hname
    rw [printable, if_pos (by rfl), hg, hgname]
    rfl
  | call distinct' hg hgname hns =>
    rw [if_neg (by simp)] at hall
    subst hall
    have hstar := not_isStarArgument hes hns
    by_cases hdate : g = "date_part"
    · rw [hdate, show raFuncName "date_part" = "extract" from rfl] at hname
      subst hname
      exact printable_of_takesArguments hstar (takesArguments_extract h (hargs hstar)).2
        (hargs hstar)
    · rw [raFuncName_of_ne hdate] at hname
      subst hname
      exact printable_of_takesArguments hstar (takesArguments_call h hg hgname) (hargs hstar)
  | normalize he =>
    rw [if_neg (by simp)] at hall
    rw [show raFuncName "normalize" = "normalize" from rfl] at hname
    subst hall hname
    have hstar := not_isStarArgument hes (by simpa using he)
    have hlength := hes.length_eq
    refine printable_of_takesArguments hstar ?_ (hargs hstar)
    simpa [takesArguments] using hlength.symm
  | substring hns =>
    rw [if_neg (by simp)] at hall
    rw [show raFuncName "substring" = "substring" from rfl] at hname
    subst hall hname
    have hstar := not_isStarArgument hes hns
    exact printable_of_takesArguments hstar (takesArguments_substring h) (hargs hstar)
  | extract field he =>
    rw [if_neg (by simp)] at hall
    rw [show raFuncName "date_part" = "extract" from rfl] at hname
    subst hall hname
    have hstar : isStarArgument args = false := by
      cases hes with
      | cons hfield _ =>
        cases hfield
        rfl
    exact printable_of_takesArguments hstar (takesArguments_extract h (hargs hstar)).2 (hargs hstar)

end

/-! ### Casts -/

/-- The type that a name stands for stands for itself. -/
theorem typeOfWord_self {w type : String} (hw : isWord w = true)
    (h : typeOfWord w = some type) : isWord type = true ∧ typeOfWord type = some type := by
  have hcopy := h
  unfold typeOfWord at h
  split_ifs at h with h₁ h₂ h₃ h₄ h₅ h₆ h₇ h₈ h₉ <;> cases h
  · exact ⟨by decide, by decide⟩
  · exact ⟨by decide, by decide⟩
  · exact ⟨by decide, by decide⟩
  · exact ⟨by decide, by decide⟩
  · exact ⟨by decide, by decide⟩
  · exact ⟨by decide, by decide⟩
  · exact ⟨by decide, by decide⟩
  · exact ⟨by decide, by decide⟩
  · exact ⟨hw, hcopy⟩
  · exact ⟨hw, hcopy⟩

theorem isTypedConstant_of_reading {type mod text : String} {e : Expr} {n : PgNode}
    (h : Reading subs (.typeCast type mod e) text n) : isTypedConstant type mod e = true := by
  have hgrammatical := h.grammatical
  cases h.yields with
  | cast hmod he =>
    cases hgrammatical with
    | typed s hw htype =>
      cases he
      cases hmod
      obtain ⟨hword, hself⟩ := typeOfWord_self hw htype
      simp [isTypedConstant, hword, hself]
    | interval s hmask =>
      cases he
      have hword : isWord "interval" = true := by decide
      have hself : typeOfWord "interval" = some "interval" := by decide
      simp [isTypedConstant, hword, hself]

/-! ### All expressions -/

theorem mem_subexpressions_self (e : Expr) : e ∈ subexpressions e := by
  cases e <;> simp [subexpressions]

theorem mem_allSubexpressions_iff {a : Expr} {es : List Expr} :
    a ∈ allSubexpressions es ↔ ∃ e ∈ es, a ∈ subexpressions e := by
  induction es with
  | nil => simp [allSubexpressions]
  | cons e es ih => simp [allSubexpressions, ih]

theorem printable_of_readsBack {n : PgNode} {e : Expr} (h : Yields n e)
    (hreads : ∀ a ∈ subexpressions e, ReadsBack subs a) : printable e = true := by
  induction n using PgNode.ind generalizing e with
  | columnRef fields =>
    obtain ⟨text, m, hreading⟩ := exists_reading (hreads e (mem_subexpressions_self e))
    cases h
    rw [printable]
    exact isColumn_of_grammatical hreading.grammatical hreading.yields
  | aConst val =>
    obtain ⟨text, m, hreading⟩ := exists_reading (hreads e (mem_subexpressions_self e))
    cases h <;>
      · rw [printable]
        exact isConstant_of_reading hreading
  | aExpr kind o lexpr rexpr ihl ihr =>
    obtain ⟨text, m, hreading⟩ := exists_reading (hreads e (mem_subexpressions_self e))
    have hnull : Expr.isPresent .nullptr = false := rfl
    have ho : isOperator o = true := by
      have hgrammatical := hreading.grammatical
      cases h <;>
        · cases hreading.yields <;> exact isOperator_of_grammatical hgrammatical
    cases h with
    | binary hl hr =>
      have hel := ihl hl fun a ha => hreads a (by simp [subexpressions, hl.isPresent, ha])
      have her := ihr hr fun a ha => hreads a (by simp [subexpressions, hr.isPresent, ha])
      obtain ⟨tl, ml, tsl, nl, hl'⟩ := exists_readable subs hl hel
      obtain ⟨tr, mr, tsr, nr, hr'⟩ := exists_readable subs hr her
      have hstands := standsApart_binary hl' hr' hel her hreading ho
      simp [printable, ho, hstands, hel, her]
    | unary hr =>
      have her := ihr hr fun a ha => hreads a (by simp [subexpressions, hr.isPresent, ha])
      obtain ⟨tr, mr, tsr, nr, hr'⟩ := exists_readable subs hr her
      have hstands := standsApart_unary hr' her hreading ho
      simp [printable, ho, hstands, her, hnull]
    | trailing hl =>
      have hel := ihl hl fun a ha => hreads a (by simp [subexpressions, hl.isPresent, ha])
      obtain ⟨tl, ml, tsl, nl, hl'⟩ := exists_readable subs hl hel
      have hstands := standsApart_trailing hl' hel hreading ho
      simp [printable, ho, hstands, hel, hnull]
  | funcCall f ns star d ih =>
    obtain ⟨text, m, hreading⟩ := exists_reading (hreads e (mem_subexpressions_self e))
    cases h with
    | @call _ _ es _ _ hes =>
      refine printable_call hreading fun hstar a ha => ?_
      have hne := star_not_mem hreading hstar
      have hmem : a ∈ es := by
        cases star with
        | false => exact ha
        | true =>
          rcases List.mem_append.mp ha with hes | hlast
          · exact hes
          · rw [List.mem_singleton.mp hlast] at ha
            exact absurd ha hne
      obtain ⟨n, hn, hyields⟩ := exists_yields hes hmem
      refine ih n hn hyields fun b hb => hreads b ?_
      simp only [subexpressions, hstar]
      exact List.mem_cons_of_mem _ (mem_allSubexpressions_iff.mpr ⟨a, ha, hb⟩)
  | typeCast type typmod arg ih =>
    obtain ⟨text, m, hreading⟩ := exists_reading (hreads e (mem_subexpressions_self e))
    cases h with
    | cast hmod h =>
      have he := ih h fun a ha => hreads a (by simp [subexpressions, ha])
      rw [printable, isTypedConstant_of_reading hreading, he]
      rfl
  | _ => cases h

/-- The parts of a printable expression are printable. -/
theorem printable_subexpressions {n : PgNode} {e : Expr} (h : Yields n e)
    (he : printable e = true) : ∀ a ∈ subexpressions e, printable a = true ∧ ∃ m, Yields m a := by
  induction n using PgNode.ind generalizing e with
  | columnRef fields | aConst val =>
    intro a ha
    have hsame : a = e := by
      cases h <;> exact List.mem_singleton.mp ha
    exact hsame ▸ ⟨he, _, h⟩
  | aExpr kind o lexpr rexpr ihl ihr =>
    intro a ha
    have hwhole := h
    cases h with
    | binary hl hr =>
      have hparts := he
      simp only [printable, hl.isPresent, hr.isPresent, Bool.not_true, Bool.false_or,
        Bool.and_eq_true] at hparts
      simp only [subexpressions, hl.isPresent, hr.isPresent, if_true, List.mem_cons,
        List.mem_append] at ha
      rcases ha with rfl | ha | ha
      · exact ⟨he, _, hwhole⟩
      · exact ihl hl hparts.1.2 a ha
      · exact ihr hr hparts.2 a ha
    | unary hr =>
      have hnull : Expr.isPresent .nullptr = false := rfl
      have hparts := he
      simp only [printable, hnull, hr.isPresent, Bool.not_true, Bool.not_false, Bool.false_or,
        Bool.true_or, Bool.and_eq_true] at hparts
      simp only [subexpressions, hnull, hr.isPresent, if_true, List.mem_cons, List.mem_append] at ha
      rcases ha with rfl | ha | ha
      · exact ⟨he, _, hwhole⟩
      · cases ha
      · exact ihr hr hparts.2 a ha
    | trailing hl =>
      have hnull : Expr.isPresent .nullptr = false := rfl
      have hparts := he
      simp only [printable, hnull, hl.isPresent, Bool.not_true, Bool.not_false, Bool.false_or,
        Bool.true_or, Bool.and_eq_true] at hparts
      simp only [subexpressions, hnull, hl.isPresent, if_true, List.mem_cons, List.mem_append] at ha
      rcases ha with rfl | ha | ha
      · exact ⟨he, _, hwhole⟩
      · exact ihl hl hparts.1.2 a ha
      · cases ha
  | funcCall f ns star d ih =>
    intro a ha
    have hcall := h
    cases h with
    | @call _ _ es _ _ hes =>
      rw [subexpressions, List.mem_cons] at ha
      rcases ha with rfl | ha
      · exact ⟨he, _, hcall⟩
      · by_cases hstar :
            isStarArgument (if star = true then es ++ [.attribute "*" ""] else es) = true
        · rw [if_pos hstar] at ha
          cases ha
        · rw [if_neg hstar] at ha
          obtain ⟨b, hb, ha⟩ := mem_allSubexpressions_iff.mp ha
          rw [printable, if_neg hstar, Bool.and_eq_true] at he
          have hprintable := allPrintable_forall he.2 b hb
          have hmem : b ∈ es := by
            cases star with
            | false => exact hb
            | true =>
              rcases List.mem_append.mp hb with hes | hlast
              · exact hes
              · rw [List.mem_singleton.mp hlast, printable_star] at hprintable
                cases hprintable
          obtain ⟨n, hn, hyields⟩ := exists_yields hes hmem
          exact ih n hn hyields hprintable a ha
  | typeCast type typmod arg ih =>
    intro a ha
    cases h with
    | cast hmod h =>
      rw [subexpressions, List.mem_cons] at ha
      rcases ha with rfl | ha
      · exact ⟨he, _, .cast hmod h⟩
      · rw [printable, Bool.and_eq_true] at he
        exact ih h he.2 a ha
  | _ => cases h

/-- An expression and all that its text is made of are read back exactly when they are
printable. -/
theorem deparseExpression_readsBack_iff (subs : Nat → Option Subquery) {n : PgNode}
    (hn : isScalar n = true) {s s' : ParserState} {e : Expr}
    (h : parseExpression n s = some (e, s')) :
    (∀ a ∈ subexpressions e, ReadsBack subs a) ↔ printable e = true := by
  have hyields := yields_of_parse hn h
  constructor
  · exact printable_of_readsBack hyields
  · intro he a ha
    obtain ⟨hprintable, m, hm⟩ := printable_subexpressions hyields he a ha
    exact readsBack_of_printable hm hprintable

/-- `a.x + count(b)`. -/
theorem deparseExpression_readsBack_sum :
    (∀ a ∈ subexpressions (.expression (.attribute "x" "a")
        (.funcCall "count" [.attribute "b" ""] true false) "+"),
      ReadsBack (fun _ => none) a) ↔
      printable (.expression (.attribute "x" "a")
        (.funcCall "count" [.attribute "b" ""] true false) "+") = true :=
  deparseExpression_readsBack_iff (fun _ => none)
    (n := .aExpr .op "+" (.columnRef ["a", "x"]) (.funcCall "count" [.columnRef ["b"]] false false))
    (by decide) (s := { }) rfl

/-- The string `a'||'b` is read as a concatenation. -/
theorem deparseExpression_not_readsBack :
    isScalar (.aConst (.string "a'||'b")) = true ∧
      parseExpression (.aConst (.string "a'||'b")) { } =
        some (.constant "a'||'b" .string, { }) ∧
      ¬ ReadsBack (fun _ => none) (.constant "a'||'b" .string) := by
  refine ⟨by decide, rfl, ?_⟩
  rintro ⟨text, n, htext, hread, hparse⟩
  have hconcat : readExpression "'a'||'b'" = some (.aExpr .op "||" (.aConst (.string "a"))
      (.aConst (.string "b"))) := by rfl
  cases htext
  have hn := hread.symm.trans hconcat
  cases hn
  have hresult := congrFun hparse { }
  cases hresult

end SqlOptimizer.Deparse.ExpressionRoundTrip
