import SqlOptimizer.Postgres.Operands
import SqlOptimizer.Postgres.Renderings

/-!
Operators that are glued to their operands and become something else: the start of a comment,
a longer operator, or a prefix of a string.
-/

set_option autoImplicit false
set_option relaxedAutoImplicit false

namespace SqlOptimizer.Postgres.GluedOperands

open Logic.Transducers
open Parse.PgQuery (PgNode)
open Scanner (Token Mode pending isSpecial isSign isNewline operatorTokens operatorToken
  operatorStep wordStep)
open Keywords Lexemes ScannedTokens Renderings
open ExpressionGrammar Operands

/-! ### Comments -/

/-- No line ends in the text. -/
def IsLine (cs : List Char) : Prop := ∀ c ∈ cs, isNewline c = false

variable {cs os : List Char} {m : Mode} {ts us : List Token} {n : PgNode} {o x : String}

theorem output_lineComment (hcs : IsLine cs) :
    output Scanner.step pending .lineComment cs = some [] := by
  induction cs with
  | nil => rfl
  | cons c cs ih =>
    obtain ⟨hc, hcs⟩ := List.forall_mem_cons.mp hcs
    have hstep : Scanner.step .lineComment c = some ([], .lineComment) := if_neg (by simp [hc])
    rw [output_cons_silent hstep, ih hcs]

theorem output_quoteComment (s : List Char) (newline : Bool) (hcs : IsLine cs) :
    output Scanner.step pending (.quoteComment s newline) cs =
      some [.string (String.ofList s)] := by
  induction cs with
  | nil => rfl
  | cons c cs ih =>
    obtain ⟨hc, hcs⟩ := List.forall_mem_cons.mp hcs
    have hstep : Scanner.step (.quoteComment s newline) c = some ([], .quoteComment s newline) :=
      if_neg (by simp [hc])
    rw [output_cons_silent hstep, ih hcs]

theorem isLine_of_number {ds : List Char} (h : ∀ c ∈ ds, isNumberChar c = true) : IsLine ds :=
  fun c hc => (isNumberChar_ne (h c hc)).1

/-- A comment behind an operator. -/
theorem output_operator_comment (hrun : isRun (os ++ ['-']) = true) (hcs : IsLine cs) :
    output Scanner.step pending .blank (os ++ '-' :: '-' :: cs) = operatorTokens os := by
  have hafter := after_operator hrun (by simp)
  have happend : os ++ '-' :: '-' :: cs = (os ++ ['-']) ++ '-' :: cs := by simp
  have hstep : Scanner.step (.operator (os ++ ['-'])) '-' =
      (operatorTokens os).map fun ts => (ts, .lineComment) := by
    show operatorStep (os ++ ['-']) '-' = _
    rw [operatorStep, if_neg (by decide), if_pos (by simp), List.dropLast_concat]
  rw [happend, output_append hafter, output, hstep]
  cases operatorTokens os with
  | none => rfl
  | some ts => simp [output_lineComment hcs]

/-- A comment behind an operand. -/
theorem output_comment (hm : Closable m) (hcs : IsLine cs) :
    output Scanner.step pending m ('-' :: '-' :: cs) = pending m := by
  have hblank : output Scanner.step pending .blank ('-' :: '-' :: cs) = some [] :=
    output_operator_comment (show isRun ([] ++ ['-']) = true by decide) hcs
  have hends (h : Ends Scanner.step pending .blank m ('-' :: '-' :: cs)) :
      output Scanner.step pending m ('-' :: '-' :: cs) = pending m := by
    rw [h, hblank]
    cases pending m with
    | none => rfl
    | some ts => simp
  cases hm with
  | blank => exact hblank
  | @word w hw =>
    apply hends
    apply ends_of_close
    show wordStep w.toList '-' = _
    rw [wordStep, if_neg (by decide), if_neg (by simp), if_neg (by simp)]
  | integer ds | decimal ds | real ds => exact hends (ends_of_close rfl _)
  | quote s =>
    have hdash : Scanner.step (.quote s) '-' = some ([], .quoteDash s false) := rfl
    have hcomment : Scanner.step (.quoteDash s false) '-' = some ([], .quoteComment s false) := rfl
    rw [output_cons_silent hdash, output_cons_silent hcomment, output_quoteComment s false hcs]
    rfl
  | star =>
    have hdash : Scanner.step (.operator ['*']) '-' = some ([], .operator ['*', '-']) := rfl
    have hcomment : Scanner.step (.operator ['*', '-']) '-' =
        some ([.operator "*"], .lineComment) := rfl
    rw [output_cons_silent hdash, output, hcomment]
    show (output Scanner.step pending .lineComment cs).map _ = _
    rw [output_lineComment hcs]
    rfl

/-! ### Longer operators -/

/-- An operator other than a sign has a character that is no sign. -/
theorem exists_not_sign (ho : isOperator o = true) (hsign : o ≠ "+" ∧ o ≠ "-") :
    ∃ c ∈ o.toList, isSign c = false := by
  obtain ⟨hne, -, htokens⟩ := isOperator_iff.mp ho
  by_contra hnone
  have hall : ∀ c ∈ o.toList, isSign c = true := by
    intro c hc
    by_contra hsign
    exact hnone ⟨c, hc, by simpa using hsign⟩
  have hname {cs : List Char} (h : o.toList = cs) : o = String.ofList cs := by
    rw [← h, String.ofList_toList]
  cases h : o.toList with
  | nil => exact hne (hname h)
  | cons c cs =>
    rw [h] at hall htokens
    obtain ⟨hc, hcs⟩ := List.forall_mem_cons.mp hall
    have hspecial : (c :: cs).any isSpecial = false := by
      rw [List.any_eq_false]
      intro d hd
      simp [isSpecial_of_isSign (hall d hd)]
    rw [operatorTokens, if_neg (by simp [hspecial]),
      List.rdropWhile_eq_nil_iff.mpr hcs] at htokens
    obtain ⟨t, -, heq⟩ := Option.map_eq_some_iff.mp htokens
    have hnil : cs = [] := by
      have hlength := congrArg List.length heq
      have htake : cs.rtakeWhile isSign = cs := List.rtakeWhile_eq_self_iff.mpr hcs
      rw [htake] at hlength
      simpa using hlength
    rw [hnil] at h
    rcases Bool.or_eq_true _ _ ▸ hc with hplus | hminus
    · exact hsign.1 (hname (by rw [h, of_decide_eq_true hplus]))
    · exact hsign.2 (hname (by rw [h, of_decide_eq_true hminus]))

/-- The operator that a run behind a star starts with. -/
theorem operatorTokens_star (h : operatorTokens ('*' :: os) = some ts)
    (hos : ∃ c ∈ os, isSign c = false) : ∃ x us, ts = .operator x :: us ∧ x ≠ "*" := by
  have hlonger {v : List Char} (hv : v ≠ []) {t : Token}
      (ht : operatorToken ('*' :: v) = some t) : ∃ x, t = .operator x ∧ x ≠ "*" := by
    have hplain : operatorToken ('*' :: v) = some (.operator (String.ofList ('*' :: v))) := by
      simp [operatorToken]
    rw [hplain] at ht
    cases ht
    refine ⟨_, rfl, fun heq => hv ?_⟩
    have hlist := congrArg String.toList heq
    rw [String.toList_ofList] at hlist
    exact (List.cons.inj hlist).2
  obtain ⟨c, hc, hsign⟩ := hos
  rw [operatorTokens] at h
  split at h
  · obtain ⟨t, ht, rfl⟩ := Option.map_eq_some_iff.mp h
    obtain ⟨x, rfl, hx⟩ := hlonger (List.ne_nil_of_mem hc) ht
    exact ⟨x, [], rfl, hx⟩
  · obtain ⟨t, ht, rfl⟩ := Option.map_eq_some_iff.mp h
    have hcore : os.rdropWhile isSign ≠ [] := by
      rw [ne_eq, List.rdropWhile_eq_nil_iff]
      intro hall
      rw [hall c hc] at hsign
      cases hsign
    obtain ⟨x, rfl, hx⟩ := hlonger hcore ht
    exact ⟨x, _, rfl, hx⟩

theorem isRun_star (h : isRun os = true) : isRun ('*' :: os) = true := by
  obtain ⟨hall, hdash, hslash⟩ := isRun_iff.mp h
  refine isRun_iff.mpr ⟨List.forall_mem_cons.mpr ⟨by decide, hall⟩, ?_, ?_⟩
  · rw [List.infix_cons_iff]
    rintro (hstart | hinside)
    · simp [List.cons_prefix_cons] at hstart
    · exact hdash hinside
  · rw [List.infix_cons_iff]
    rintro (hstart | hinside)
    · simp [List.cons_prefix_cons] at hstart
    · exact hslash hinside

/-- A run behind a star that ends at a plain character. -/
theorem output_star_run (hrun : isRun os = true) (hos : ∃ c ∈ os, isSign c = false)
    (hcs : ∀ c, cs.head? = some c → Scanner.isOpChar c = false)
    (h : output Scanner.step pending .blank ('*' :: (os ++ cs)) = some ts) :
    ∃ x us, ts = .operator x :: us ∧ x ≠ "*" := by
  have hafter := after_operator (isRun_star hrun) (by simp)
  have hends : Ends Scanner.step pending .blank (.operator ('*' :: os)) cs := ends_operator hcs
  rw [← List.cons_append, output_append hafter, hends] at h
  obtain ⟨us, hus, rfl⟩ := Option.map_eq_some_iff.mp h
  obtain ⟨tokens, htokens, hus⟩ := Option.bind_eq_some_iff.mp hus
  obtain ⟨vs, -, rfl⟩ := Option.map_eq_some_iff.mp hus
  obtain ⟨x, rest, rfl, hx⟩ := operatorTokens_star htokens hos
  exact ⟨x, _, rfl, hx⟩

/-- An operator behind the star of a column reference. -/
theorem output_star_operator (ho : isOperator o = true) (hsign : o ≠ "+" ∧ o ≠ "-")
    (hcs : StartsPlain cs ∨ StartsMinus cs ∧ IsLine cs)
    (h : output Scanner.step pending .blank ('*' :: (o.toList ++ cs)) = some ts) :
    ∃ x us, ts = .operator x :: us ∧ x ≠ "*" := by
  obtain ⟨-, hrun, -⟩ := isOperator_iff.mp ho
  obtain ⟨c, hc, hnot⟩ := exists_not_sign ho hsign
  rcases hcs with hplain | ⟨⟨d, ds, rfl, hd⟩, hline⟩
  · refine output_star_run hrun ⟨c, hc, hnot⟩ (fun e he => ?_) h
    obtain ⟨d, hd, hop, -⟩ := hplain
    rw [hd, Option.some.injEq] at he
    exact he ▸ hop
  · by_cases hlast : o.toList.getLast? = some '-'
    · obtain ⟨os, hos⟩ := List.getLast?_eq_some_iff.mp hlast
      have hstar : isRun (('*' :: os) ++ ['-']) = true := by
        rw [List.cons_append, ← hos]
        exact isRun_star hrun
      have hline' : IsLine (d :: ds) := (List.forall_mem_cons.mp hline).2
      have hcomment := output_operator_comment hstar hline'
      rw [hos, List.append_assoc] at h
      have htokens : operatorTokens ('*' :: os) = some ts := hcomment.symm.trans h
      refine operatorTokens_star htokens ⟨c, ?_, hnot⟩
      rw [hos, List.mem_append, List.mem_singleton] at hc
      rcases hc with hc | rfl
      · exact hc
      · cases hnot
    · have hrun' : isRun (o.toList ++ ['-']) = true :=
        isRun_concat hrun (by decide) (fun h => hlast h.2) (by simp)
      have happend : o.toList ++ '-' :: d :: ds = (o.toList ++ ['-']) ++ d :: ds := by simp
      rw [happend] at h
      refine output_star_run hrun' ⟨c, List.mem_append_left _ hc, hnot⟩ (fun e he => ?_) h
      obtain rfl : d = e := by simpa using he
      exact hd

/-- An operator that takes the sign of the number behind it. -/
theorem isOperator_append_minus (ho : isOperator o = true)
    (hspecial : o.toList.any isSpecial = true) (hlast : o.toList.getLast? ≠ some '-') :
    isOperator (o ++ "-") = true := by
  obtain ⟨-, hrun, -⟩ := isOperator_iff.mp ho
  have hchars : (o ++ "-").toList = o.toList ++ ['-'] := by simp
  refine isOperator_iff.mpr ⟨?_, ?_, ?_⟩
  · intro hempty
    rw [hempty] at hchars
    simp at hchars
  · rw [hchars]
    exact isRun_concat hrun (by decide) (fun h => hlast h.2) (by simp)
  · rw [hchars]
    cases hcs : o.toList with
    | nil =>
      rw [hcs] at hspecial
      cases hspecial
    | cons c cs =>
      have hlonger : (c :: (cs ++ ['-'])).any isSpecial = true := by
        rw [hcs] at hspecial
        rw [← List.cons_append, List.any_append, hspecial, Bool.true_or]
      have htoken : operatorToken (c :: (cs ++ ['-'])) =
          some (.operator (String.ofList (c :: (cs ++ ['-'])))) := by
        have hend : (c :: (cs ++ ['-'])).getLast? = some '-' := by
          rw [← List.cons_append, List.getLast?_concat]
        have hne {v : List Char} (hv : v.getLast? ≠ some '-') : c :: (cs ++ ['-']) ≠ v := by
          rintro rfl
          exact hv hend
        rw [operatorToken, if_neg (hne (by decide)), if_neg (hne (by decide))]
      rw [List.cons_append, operatorTokens, if_pos hlonger, htoken, Option.map_some,
        ← List.cons_append, ← hcs, ← hchars, String.ofList_toList]

/-! ### What the grammar makes of them -/

/-- An operand in a parenthesis that does not close. -/
theorem readFrom_open (h : Denotes ts n) : readFrom initial (.lpar :: ts) = none := by
  obtain ⟨s, hs, hrest⟩ := h.read [.paren]
  have hopen : step initial .lpar = some ⟨[.paren], .operand⟩ := rfl
  rw [readFrom, read_cons hopen, hs, Option.bind_some, hrest.finish_eq]
  rfl

/-- An operator at the end of the text. -/
theorem readFrom_open_operator (h : Denotes ts n) (x : String) :
    readFrom initial (.lpar :: (ts ++ [.operator x])) = none := by
  obtain ⟨s, hs, hrest⟩ := h.read [.paren]
  have hopen : step initial .lpar = some ⟨[.paren], .operand⟩ := rfl
  rw [readFrom, read_cons hopen, read_append hs, hrest.foldlM_cons (continues_operator x),
    afterOperand, pushOperator_paren, Option.bind_some]
  split <;> rfl

theorem readFrom_open_unary (x : String) : readFrom initial [.lpar, .operator x] = none := by
  have hopen : step initial .lpar = some ⟨[.paren], .operand⟩ := rfl
  have hunary : step ⟨[.paren], .operand⟩ (.operator x) =
      if isUnaryOp x = true then some ⟨[.unary x, .paren], .operand⟩ else none := rfl
  rw [readFrom, read_cons hopen, List.foldlM_cons, hunary]
  split <;> rfl

/-- The star of a column reference must be one. -/
theorem readFrom_star (w : String) (hx : x ≠ "*") (us : List Token) :
    readFrom initial (.lpar :: .word w :: .dot :: .operator x :: us) = none := by
  have hopen : step initial .lpar = some ⟨[.paren], .operand⟩ := rfl
  have hword : step ⟨[.paren], .operand⟩ (.word w) =
      if w ∈ reserved then none else some ⟨[.paren], .word w⟩ := rfl
  have hdot : step ⟨[.paren], .word w⟩ .dot =
      if isColId w = true then some ⟨[.paren], .qualified w⟩ else none := rfl
  have hstar : step ⟨[.paren], .qualified w⟩ (.operator x) = none := if_neg hx
  rw [readFrom, read_cons hopen, List.foldlM_cons, hword]
  split
  · rfl
  · show (List.foldlM step ⟨[.paren], .word w⟩ (.dot :: .operator x :: us)).bind finish = none
    rw [List.foldlM_cons, hdot]
    split
    · show (List.foldlM step ⟨[.paren], .qualified w⟩ (.operator x :: us)).bind finish = none
      rw [List.foldlM_cons, hstar]
      rfl
    · rfl

/-- A word that binds weaker than a postfix operator. -/
theorem readFrom_postfix (h : Denotes ts n) (hmath : isMathOp o = false) {w : String}
    (hw : w ∈ afterPostfix) (us : List Token) :
    readFrom initial (.lpar :: (ts ++ .operator o :: .word w :: us)) = none := by
  obtain ⟨s, hs, hrest⟩ := h.read [.paren]
  have hopen : step initial .lpar = some ⟨[.paren], .operand⟩ := rfl
  have hword : step ⟨[.paren], .operator n o⟩ (.word w) = none := by
    have hstarts : startsOperand (.word w) = false := by simp [startsOperand, hw]
    show (if startsOperand (.word w) = true then _ else _) = none
    rw [hstarts, if_neg (by simp)]
    rfl
  rw [readFrom, read_cons hopen, read_append hs, hrest.foldlM_cons (continues_operator o),
    afterOperand, pushOperator_paren, if_neg (by simp [hmath]), Option.bind_some,
    List.foldlM_cons, hword]
  rfl

/-! ### The texts -/

theorem readExpression_eq_none {tokens : List Token}
    (hout : output Scanner.step pending .blank cs = some tokens)
    (h : readFrom initial tokens = none) : readExpression (String.ofList cs) = none := by
  rw [readExpression, Scanner.scan, String.toList_ofList, hout, Option.bind_some, h]

/-- The text is scanned up to the part that goes wrong. -/
theorem readExpression_lpar (h : ∀ us, output Scanner.step pending .blank cs = some us →
    readFrom initial (.lpar :: us) = none) : readExpression (String.ofList ('(' :: cs)) = none := by
  have hlpar := reads_lpar cs
  cases hout : output Scanner.step pending .blank cs with
  | none =>
    rw [hout] at hlpar
    rw [readExpression, Scanner.scan, String.toList_ofList]
    exact congrArg (fun r => r.bind (readFrom initial)) hlpar
  | some us =>
    rw [hout] at hlpar
    exact readExpression_eq_none hlpar (h us hout)

/-- An operator behind a star. -/
theorem not_read_star {w : String} (hw : isWord w = true) (ho : isOperator o = true)
    (hsign : o ≠ "+" ∧ o ≠ "-") (hcs : StartsPlain cs ∨ StartsMinus cs ∧ IsLine cs) :
    readExpression (String.ofList ('(' :: (w.toList ++ '.' :: '*' :: (o.toList ++ cs)))) =
      none := by
  apply readExpression_lpar
  intro us hus
  rw [reads_word_dot hw (.inr rfl)] at hus
  obtain ⟨vs, hvs, rfl⟩ := Option.map_eq_some_iff.mp hus
  obtain ⟨x, rest, rfl, hx⟩ := output_star_operator ho hsign hcs hvs
  exact readFrom_star w hx rest

/-- A string behind `u&`. -/
theorem not_read_unicode (h : Rendering cs (.word ['u']) ts) (tail : List Char) :
    readExpression (String.ofList ('(' :: (cs ++ '&' :: '\'' :: tail))) = none := by
  apply readExpression_lpar
  intro us hus
  obtain ⟨first, last, -, -, hout⟩ := h.output_eq
  have hunicode : Scanner.step (.word ['u']) '&' = some ([], .unicode ['u']) := rfl
  have hquote : Scanner.step (.unicode ['u']) '\'' = none := rfl
  rw [hout, output_cons_silent hunicode, output, hquote] at hus
  cases hus

/-- A negative number behind a minus sign. -/
theorem not_read_comment (h : Rendering cs m ts) (hn : Denotes ts n) {tail : List Char}
    (htail : IsLine tail) :
    readExpression (String.ofList ('(' :: (cs ++ '-' :: '-' :: tail))) = none := by
  apply readExpression_lpar
  intro us hus
  obtain ⟨first, last, hlast, rfl, hout⟩ := h.output_eq
  rw [hout, output_comment h.closable htail, hlast] at hus
  cases hus
  exact readFrom_open hn

theorem operatorTokens_special (hspecial : os.any isSpecial = true)
    (h : operatorTokens os = some ts) : ∃ x, ts = [.operator x] := by
  obtain ⟨t, ht, rfl⟩ : ∃ t, operatorToken os = some t ∧ ts = [t] := by
    cases os with
    | nil => cases hspecial
    | cons c cs =>
      rw [operatorTokens, if_pos hspecial] at h
      obtain ⟨t, ht, rfl⟩ := Option.map_eq_some_iff.mp h
      exact ⟨t, ht, rfl⟩
  unfold operatorToken at ht
  split_ifs at ht
  · cases ht
    exact ⟨_, rfl⟩
  · cases ht
    exact ⟨_, rfl⟩

/-- A negative number behind an operator that ends in a minus sign. -/
theorem not_read_operator_comment (h : Rendering cs m ts) (hn : Denotes ts n)
    (hstar : m ≠ .operator ['*']) (hspecial : os.any isSpecial = true)
    (hrun : isRun (os ++ ['-']) = true) {tail : List Char} (htail : IsLine tail) :
    readExpression (String.ofList ('(' :: (cs ++ (os ++ '-' :: '-' :: tail)))) = none := by
  apply readExpression_lpar
  intro us hus
  have hne : os ≠ [] := by
    rintro rfl
    cases hspecial
  have hfollow : mayFollow m os ('-' :: '-' :: tail) := by
    cases h.closable with
    | word hw => simp [mayFollow]
    | quote s =>
      rintro rfl
      exact absurd hspecial (by decide)
    | star => exact absurd rfl hstar
    | blank | integer ds | decimal ds | real ds => trivial
  have hends := h.closable.ends_operator (isRun_part hrun ⟨[], ['-'], rfl⟩) hne hfollow (by simp)
  rw [h.output_ends hends, output_operator_comment hrun htail] at hus
  obtain ⟨vs, hvs, rfl⟩ := Option.map_eq_some_iff.mp hus
  obtain ⟨x, rfl⟩ := operatorTokens_special hspecial hvs
  exact readFrom_open_operator hn x

theorem not_read_unary_comment (hspecial : os.any isSpecial = true)
    (hrun : isRun (os ++ ['-']) = true) {tail : List Char} (htail : IsLine tail) :
    readExpression (String.ofList ('(' :: (os ++ '-' :: '-' :: tail))) = none := by
  apply readExpression_lpar
  intro us hus
  rw [output_operator_comment hrun htail] at hus
  obtain ⟨x, rfl⟩ := operatorTokens_special hspecial hus
  exact readFrom_open_unary x

end SqlOptimizer.Postgres.GluedOperands
