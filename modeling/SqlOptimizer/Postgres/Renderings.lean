import SqlOptimizer.Postgres.Lexemes

/-!
Texts that are scanned on their own: the tokens of an operand, of a parenthesis around one and
of the words between two, whatever the text is a part of.
-/

set_option autoImplicit false
set_option relaxedAutoImplicit false

namespace SqlOptimizer.Postgres.Renderings

open Logic.Transducers
open Scanner Lexemes

/-- The text has these tokens, and the scanner is at the start of a token after them. -/
def Reads (cs : List Char) (ts : List Token) : Prop :=
  ∀ tail, output step pending .blank (cs ++ tail) =
    (output step pending .blank tail).map (ts ++ ·)

/-- The text of an operand has these tokens, and `m` is the last one as it is under way. -/
structure Rendering (cs : List Char) (m : Mode) (ts : List Token) : Prop where
  closable : Closable m
  output_eq : ∃ first last, pending m = some last ∧ ts = first ++ last ∧
    ∀ tail, output step pending .blank (cs ++ tail) =
      (output step pending m tail).map (first ++ ·)

variable {cs cs' os : List Char} {m m' : Mode} {ts ts' : List Token} {o : String}

theorem Reads.append (h : Reads cs ts) (h' : Reads cs' ts') :
    Reads (cs ++ cs') (ts ++ ts') := by
  intro tail
  rw [List.append_assoc, h, h', Option.map_map]
  congr 1
  funext us
  exact (List.append_assoc _ _ _).symm

theorem reads_of_after (h : after step .blank cs = some (ts, .blank)) : Reads cs ts :=
  output_append h

theorem Reads.rendering (h : Reads cs ts) : Rendering cs .blank ts :=
  ⟨.blank, ts, [], rfl, (List.append_nil ts).symm, h⟩

theorem Rendering.of_after {last : List Token} (h : after step .blank cs = some (ts, m))
    (hm : Closable m) (hlast : pending m = some last) : Rendering cs m (ts ++ last) :=
  ⟨hm, ts, last, hlast, rfl, output_append h⟩

/-- The last token of an operand ends. -/
theorem Rendering.output_ends (h : Rendering cs m ts) {tail : List Char}
    (hends : Ends step pending .blank m tail) :
    output step pending .blank (cs ++ tail) =
      (output step pending .blank tail).map (ts ++ ·) := by
  obtain ⟨first, last, hlast, rfl, hout⟩ := h.output_eq
  rw [hout, hends, hlast, Option.bind_some, Option.map_map]
  congr 1
  funext us
  exact (List.append_assoc _ _ _).symm

/-- An operand and a text behind it. -/
theorem Rendering.append (h : Rendering cs m ts) (h' : Reads cs' ts')
    (hends : ∀ tail, Ends step pending .blank m (cs' ++ tail)) : Reads (cs ++ cs') (ts ++ ts') := by
  intro tail
  rw [List.append_assoc, h.output_ends (hends tail), h', Option.map_map]
  congr 1
  funext us
  exact (List.append_assoc _ _ _).symm

theorem Rendering.followed (h : Rendering cs m ts) (h' : Rendering cs' m' ts')
    (hends : ∀ tail, Ends step pending .blank m (cs' ++ tail)) :
    Rendering (cs ++ cs') m' (ts ++ ts') := by
  obtain ⟨first, last, hlast, rfl, hout⟩ := h'.output_eq
  refine ⟨h'.closable, ts ++ first, last, hlast, (List.append_assoc _ _ _).symm, fun tail => ?_⟩
  rw [List.append_assoc, h.output_ends (hends tail), hout, Option.map_map]
  congr 1
  funext us
  exact (List.append_assoc _ _ _).symm

/-- A text in front of an operand. -/
theorem Reads.rendering_append (h : Reads cs ts) (h' : Rendering cs' m ts') :
    Rendering (cs ++ cs') m (ts ++ ts') := by
  obtain ⟨first, last, hlast, rfl, hout⟩ := h'.output_eq
  refine ⟨h'.closable, ts ++ first, last, hlast, (List.append_assoc _ _ _).symm, fun tail => ?_⟩
  rw [List.append_assoc, h, hout, Option.map_map]
  congr 1
  funext us
  exact (List.append_assoc _ _ _).symm

/-! ### Leaves -/

theorem rendering_word {w : String} (hw : isWord w = true) :
    Rendering w.toList (.word w.toList) [.word w] :=
  Rendering.of_after (after_word hw) (.word hw) (congrArg (fun t => some [t]) (wordToken_toList hw))

/-- A word ends at a character that goes on with no word. -/
theorem ends_word {w : String} {c : Char} (hcont : isIdentCont c = false) (hquote : c ≠ '\'')
    (hand : c ≠ '&') (tail : List Char) : Ends step pending .blank (.word w.toList) (c :: tail) := by
  apply ends_of_close
  show wordStep w.toList c = _
  rw [wordStep, hcont, if_neg (by simp), if_neg (by simp [hquote]), if_neg (by simp [hand])]

theorem reads_blank : Reads [' '] [] := reads_of_after rfl

theorem reads_lpar : Reads ['('] [.lpar] := reads_of_after rfl

theorem reads_rpar : Reads [')'] [.rpar] := reads_of_after rfl

theorem reads_separator : Reads [',', ' '] [.comma] := reads_of_after rfl

/-- A word and a blank. -/
theorem reads_word_blank {w : String} (hw : isWord w = true) :
    Reads (w.toList ++ [' ']) [.word w] :=
  (rendering_word hw).append reads_blank (ends_word (by decide) (by decide) (by decide))

/-- A word and the parenthesis of a call. -/
theorem reads_word_lpar {w : String} (hw : isWord w = true) :
    Reads (w.toList ++ ['(']) [.word w, .lpar] :=
  (rendering_word hw).append reads_lpar (ends_word (by decide) (by decide) (by decide))

/-- A qualifier and its dot. -/
theorem reads_word_dot {w : String} (hw : isWord w = true) {c : Char}
    (hc : isIdentStart c = true ∨ c = '*') (tail : List Char) :
    output step pending .blank (w.toList ++ '.' :: c :: tail) =
      (output step pending .blank (c :: tail)).map ([.word w, .dot] ++ ·) := by
  have hdigit : c.isDigit = false ∧ c ≠ '.' := by
    rcases hc with hc | rfl
    · have hstart := isIdentStart_iff.mp hc
      constructor
      · rw [Bool.eq_false_iff]
        intro h
        have := isDigit_iff.mp h
        omega
      · rintro rfl
        exact absurd hc (by decide)
    · decide
  have hends := ends_word (w := w) (c := '.') (by decide) (by decide) (by decide) (c :: tail)
  have hdot : step .dot c = close .dot c := by simp [step, hdigit.1, hdigit.2]
  have hsilent : step .blank '.' = some ([], .dot) := by decide
  have hrest : output step pending .blank ('.' :: c :: tail) =
      (output step pending .blank (c :: tail)).map ([.dot] ++ ·) := by
    rw [output_cons_silent hsilent, ends_of_close hdot tail]
    rfl
  rw [(rendering_word hw).output_ends hends, hrest, Option.map_map]
  rfl

theorem rendering_qualified {w x : String} (hw : isWord w = true) (hx : isWord x = true) :
    Rendering (w.toList ++ '.' :: x.toList) (.word x.toList) [.word w, .dot, .word x] := by
  obtain ⟨first, last, hlast, htokens, hout⟩ := (rendering_word hx).output_eq
  obtain ⟨c, cs, hcs, hc, -⟩ := isWord_cases hx
  refine ⟨.word hx, [.word w, .dot] ++ first, last, hlast, ?_, fun tail => ?_⟩
  · rw [List.append_assoc, ← htokens]
    rfl
  · rw [List.append_assoc, List.cons_append, hcs, List.cons_append, reads_word_dot hw (.inl hc),
      ← List.cons_append, ← hcs, hout, Option.map_map]
    congr 1

theorem rendering_star {w : String} (hw : isWord w = true) :
    Rendering (w.toList ++ ['.', '*']) (.operator ['*']) [.word w, .dot, .operator "*"] := by
  refine ⟨.star, [.word w, .dot], [.operator "*"], rfl, rfl, fun tail => ?_⟩
  have hstar : step .blank '*' = some ([], .operator ['*']) := by decide
  rw [List.append_assoc, List.cons_append, List.cons_append, reads_word_dot hw (.inr rfl),
    output_cons_silent hstar]
  rfl

/-! ### Numbers and strings -/

theorem after_integerMode (ds : List Char) {cs : List Char} (h : ∀ c ∈ cs, c.isDigit = true) :
    after step (.integer ds) cs = some ([], .integer (ds ++ cs)) := by
  induction cs generalizing ds with
  | nil => simp [after]
  | cons c cs ih =>
    have hstep : step (.integer ds) c = some ([], .integer (ds ++ [c])) := by
      rw [step, if_pos (h c List.mem_cons_self)]
    have hrest := ih (ds ++ [c]) fun d hd => h d (List.mem_cons_of_mem _ hd)
    simp [after, hstep, hrest]

theorem rendering_integer {ds : List Char} (hne : ds ≠ []) (hds : ∀ c ∈ ds, c.isDigit = true)
    (hvalue : digitsValue ds < 2 ^ 31) :
    Rendering ds (.integer ds) [.integer (digitsValue ds)] := by
  have hafter : after step .blank ds = some ([], .integer ds) := by
    cases ds with
    | nil => exact absurd rfl hne
    | cons d ds =>
      obtain ⟨hd, hds⟩ := List.forall_mem_cons.mp hds
      have hstart : step .blank d = some ([], .integer [d]) := start_digit hd
      have hrest := after_integerMode [d] hds
      simp [after, hstart, hrest]
  have hsmall : (ds.all Char.isDigit && digitsValue ds < 2 ^ 31) = true := by
    rw [Bool.and_eq_true]
    exact ⟨List.all_eq_true.mpr hds, decide_eq_true hvalue⟩
  have htoken : numberToken ds = .integer (digitsValue ds) := by rw [numberToken, if_pos hsmall]
  exact .of_after hafter (.integer ds) (congrArg (fun t => some [t]) htoken)

/-- A number as it is under way. -/
def IsNumberMode : Mode → Prop
  | .integer _ | .decimal _ | .real _ => True
  | _ => False

theorem rendering_float {s : String} (h : isFloat s = true) :
    ∃ m, IsNumberMode m ∧ Rendering s.toList m [.float s] := by
  simp only [isFloat, Bool.and_eq_true] at h
  obtain ⟨-, h⟩ := h
  split at h
  · rename_i ds hafter
    exact ⟨.integer ds, trivial, .of_after hafter (.integer ds)
      (congrArg (fun t => some [t]) (of_decide_eq_true h))⟩
  · rename_i ds hafter
    exact ⟨.decimal ds, trivial, .of_after hafter (.decimal ds)
      (congrArg (fun t => some [t]) (of_decide_eq_true h))⟩
  · rename_i ds hafter
    exact ⟨.real ds, trivial, .of_after hafter (.real ds)
      (congrArg (fun t => some [t]) (of_decide_eq_true h))⟩
  · cases h

theorem rendering_string {s : List Char} (h : '\'' ∉ s) :
    Rendering ('\'' :: (s ++ ['\''])) (.quote s) [.string (String.ofList s)] :=
  .of_after (after_string h) (.quote s) rfl

/-! ### Operators -/

/-- The text starts with a character that ends any operator. -/
def StartsPlain (cs : List Char) : Prop :=
  ∃ c, cs.head? = some c ∧ isOpChar c = false ∧ c ≠ '"'

/-- The text starts with a minus sign, which is an operator. -/
def StartsMinus (cs : List Char) : Prop :=
  ∃ d ds, cs = '-' :: d :: ds ∧ isOpChar d = false

theorem StartsPlain.append (h : StartsPlain cs) (cs' : List Char) : StartsPlain (cs ++ cs') := by
  obtain ⟨c, hc, hplain, hquote⟩ := h
  exact ⟨c, by rw [List.head?_append, hc, Option.some_or], hplain, hquote⟩

theorem isOpChar_identStart {c : Char} (hc : isIdentStart c = true) : isOpChar c = false := by
  rw [Bool.eq_false_iff]
  intro h
  have hident : isIdentStart c = false :=
    opChar_of (p := fun c => isIdentStart c = false) (by decide) h
  rw [hident] at hc
  cases hc

theorem startsPlain_word {w : String} (hw : isWord w = true) : StartsPlain w.toList := by
  obtain ⟨c, cs, hcs, hc, -⟩ := isWord_cases hw
  refine ⟨c, by rw [hcs]; rfl, isOpChar_identStart hc, ?_⟩
  rintro rfl
  exact absurd hc (by decide)

theorem head_word_ne_quote {w : String} (hw : isWord w = true) : w.toList.head? ≠ some '\'' := by
  obtain ⟨c, cs, hcs, hc, -⟩ := isWord_cases hw
  rw [hcs]
  rintro ⟨⟩
  exact absurd hc (by decide)

theorem startsPlain_number {ds : List Char} (h : startsNumber ds = true) : StartsPlain ds := by
  cases ds with
  | nil => cases h
  | cons d ds =>
    have hd : d.isDigit = true ∨ d = '.' := by simpa [startsNumber] using h
    refine ⟨d, rfl, ?_, ?_⟩
    · rw [Bool.eq_false_iff]
      intro hop
      have hnot : d.isDigit = false ∧ d ≠ '.' :=
        opChar_of (p := fun c => c.isDigit = false ∧ c ≠ '.') (by decide) hop
      rcases hd with hd | hd
      · rw [hnot.1] at hd
        cases hd
      · exact hnot.2 hd
    · rintro rfl
      rcases hd with hd | hd
      · exact absurd hd (by decide)
      · exact absurd hd (by decide)

theorem head_number_ne_quote {ds : List Char} (h : startsNumber ds = true) :
    ds.head? ≠ some '\'' := by
  cases ds with
  | nil => cases h
  | cons d ds =>
    rintro ⟨⟩
    exact absurd h (by simp [startsNumber])

theorem StartsPlain.minus (h : StartsPlain cs) : StartsMinus ('-' :: cs) := by
  obtain ⟨c, hc, hplain, -⟩ := h
  cases cs with
  | nil => cases hc
  | cons d ds =>
    obtain rfl : d = c := by simpa using hc
    exact ⟨d, ds, rfl, hplain⟩

theorem StartsMinus.append (h : StartsMinus cs) (cs' : List Char) : StartsMinus (cs ++ cs') := by
  obtain ⟨d, ds, rfl, hd⟩ := h
  exact ⟨d, ds ++ cs', rfl, hd⟩

theorem isOperator_iff : isOperator o = true ↔
    o ≠ "" ∧ isRun o.toList = true ∧ operatorTokens o.toList = some [.operator o] := by
  simp [isOperator, and_assoc]

theorem isOperator_ne_nil (ho : isOperator o = true) : o.toList ≠ [] := by
  simpa using (isOperator_iff.mp ho).1

/-- An operator in front of an operand. -/
theorem output_operator (ho : isOperator o = true)
    (hends : Ends step pending .blank (.operator o.toList) cs) :
    output step pending .blank (o.toList ++ cs) =
      (output step pending .blank cs).map ([.operator o] ++ ·) := by
  obtain ⟨-, hrun, htokens⟩ := isOperator_iff.mp ho
  have hpending : pending (.operator o.toList) = some [.operator o] := htokens
  have hout : output step pending .blank (o.toList ++ cs) =
      (output step pending (.operator o.toList) cs).map ([] ++ ·) :=
    output_append (after_operator hrun (isOperator_ne_nil ho)) cs
  rw [hout, hends, hpending, Option.bind_some, Option.map_map]
  congr 1

theorem Rendering.behind_operator (h : Rendering cs m ts) (ho : isOperator o = true)
    (hends : ∀ tail, Ends step pending .blank (.operator o.toList) (cs ++ tail)) :
    Rendering (o.toList ++ cs) m (.operator o :: ts) := by
  obtain ⟨first, last, hlast, rfl, hout⟩ := h.output_eq
  refine ⟨h.closable, .operator o :: first, last, hlast, rfl, fun tail => ?_⟩
  rw [List.append_assoc, output_operator ho (hends tail), hout, Option.map_map]
  congr 1

/-- Nothing stands behind the operator. -/
theorem reads_operator_rpar (ho : isOperator o = true) :
    Reads (o.toList ++ [')']) [.operator o, .rpar] := by
  intro tail
  have hends : Ends step pending .blank (.operator o.toList) ([')'] ++ tail) :=
    ends_operator fun c hc => by
      obtain rfl : ')' = c := by simpa using hc
      decide
  rw [List.append_assoc, output_operator ho hends, reads_rpar, Option.map_map]
  rfl

theorem ends_operator_plain (h : StartsPlain cs) (tail : List Char) :
    Ends step pending .blank (.operator os) (cs ++ tail) := by
  obtain ⟨c, hc, hplain, -⟩ := h
  refine ends_operator fun d hd => ?_
  rw [List.head?_append, hc, Option.some_or, Option.some.injEq] at hd
  exact hd ▸ hplain

theorem ends_operator_signed (ho : isOperator o = true) (hspecial : o.toList.any isSpecial = false)
    (hminus : o ≠ "-") (h : StartsMinus cs) (tail : List Char) :
    Ends step pending .blank (.operator o.toList) (cs ++ tail) := by
  obtain ⟨d, ds, rfl, hd⟩ := h
  refine ends_operator_minus _ (isOperator_iff.mp ho).2.2 hspecial (fun heq => hminus ?_) hd
  rw [← String.ofList_toList (s := o), heq]

/-- A negative number. -/
theorem Rendering.negated (h : Rendering cs m ts) (hcs : StartsPlain cs) :
    Rendering ('-' :: cs) m (.operator "-" :: ts) :=
  h.behind_operator (o := "-") (by decide) (ends_operator_plain hcs)

/-! ### Between two operands -/

theorem Rendering.append_rpar (h : Rendering cs m ts) : Reads (cs ++ [')']) (ts ++ [.rpar]) :=
  h.append reads_rpar (h.closable.ends_break (.inl rfl))

theorem Rendering.append_separator (h : Rendering cs m ts) :
    Reads (cs ++ [',', ' ']) (ts ++ [.comma]) :=
  h.append reads_separator fun tail => h.closable.ends_break (.inr rfl) (' ' :: tail)

/-- A word behind an operand. -/
theorem Rendering.append_word (h : Rendering cs m ts) {w : String} (hw : isWord w = true) :
    Rendering (cs ++ ' ' :: w.toList) (.word w.toList) (ts ++ [.word w]) := by
  obtain ⟨c, ds, hcs, hc, -⟩ := isWord_cases hw
  refine h.followed (reads_blank.rendering_append (rendering_word hw)) fun tail => ?_
  rw [hcs]
  exact h.closable.ends_space hc (ds ++ tail)

/-- A word between two operands. -/
theorem Rendering.append_word_blank (h : Rendering cs m ts) {w : String} (hw : isWord w = true) :
    Reads (cs ++ ' ' :: (w.toList ++ [' '])) (ts ++ [.word w]) := by
  have hblank := (h.append_word hw).append reads_blank
    (ends_word (by decide) (by decide) (by decide))
  simpa using hblank

/-- The last token of an operand allows the operator behind it: a star goes on with any
operator but a sign, and `u&` opens a string. -/
structure Allows (m : Mode) (o : String) (cs : List Char) : Prop where
  sign : m = .operator ['*'] → o = "+" ∨ o = "-"
  unicode : m = .word ['u'] → o = "&" → cs.head? ≠ some '\''

theorem ends_before_operator (hm : Closable m) (ho : isOperator o = true)
    (hallows : Allows m o cs) (hcs : StartsPlain cs) (tail : List Char) :
    Ends step pending .blank m (o.toList ++ (cs ++ tail)) := by
  obtain ⟨-, hrun, -⟩ := isOperator_iff.mp ho
  obtain ⟨c, hc, hplain, hquote⟩ := hcs
  have hhead : (cs ++ tail).head? = some c := by rw [List.head?_append, hc, Option.some_or]
  have hends (h : mayFollow m o.toList (cs ++ tail)) :
      Ends step pending .blank m (o.toList ++ (cs ++ tail)) :=
    hm.ends_operator hrun (isOperator_ne_nil ho) h (by simpa [hhead] using hquote)
  cases hm with
  | word hw =>
    refine hends fun hu hand => ?_
    rw [hhead, ← hc]
    refine hallows.unicode (congrArg Mode.word hu) ?_
    rw [← String.ofList_toList (s := o), hand]
  | quote s =>
    refine hends fun hdash => ?_
    rw [hhead]
    rintro ⟨⟩
    exact absurd hplain (by decide)
  | star =>
    obtain ⟨c', cs', rfl⟩ : ∃ c' cs', cs = c' :: cs' := by
      cases cs with
      | nil => cases hc
      | cons c' cs' => exact ⟨c', cs', rfl⟩
    obtain rfl : c' = c := by simpa using hc
    rcases hallows.sign rfl with rfl | rfl
    · exact ends_star_sign (c := '+') _ (by decide) hplain
    · exact ends_star_sign (c := '-') _ (by decide) hplain
  | blank | integer ds | decimal ds | real ds => exact hends trivial

theorem ends_before_operator_signed (hm : Closable m) (ho : isOperator o = true)
    (hallows : Allows m o cs) (hspecial : o.toList.any isSpecial = false) (hminus : o ≠ "-")
    (hcs : StartsMinus cs) (tail : List Char) :
    Ends step pending .blank m (o.toList ++ (cs ++ tail)) := by
  obtain ⟨-, hrun, -⟩ := isOperator_iff.mp ho
  obtain ⟨d, ds, rfl, hd⟩ := hcs
  have hends (h : mayFollow m o.toList ('-' :: d :: ds ++ tail)) :
      Ends step pending .blank m (o.toList ++ ('-' :: d :: ds ++ tail)) :=
    hm.ends_operator hrun (isOperator_ne_nil ho) h (by simp)
  have hne {os : List Char} (h : o.toList = os) : o = String.ofList os := by
    rw [← h, String.ofList_toList]
  cases hm with
  | word hw =>
    refine hends fun hu hand => ?_
    rw [hand] at hspecial
    cases hspecial
  | quote s => exact hends fun hdash => absurd (hne hdash) hminus
  | star =>
    rcases hallows.sign rfl with rfl | rfl
    · exact ends_star_plus_minus _ hd
    · exact absurd rfl hminus
  | blank | integer ds' | decimal ds' | real ds' => exact hends trivial

/-- An operand and an operator behind which nothing stands. -/
theorem Rendering.append_operator_rpar (h : Rendering cs m ts) (ho : isOperator o = true)
    (hsign : m ≠ .operator ['*']) :
    Reads (cs ++ (o.toList ++ [')'])) (ts ++ [.operator o, .rpar]) := by
  refine h.append (reads_operator_rpar ho) fun tail => ?_
  rw [List.append_assoc]
  refine ends_before_operator h.closable ho ⟨fun h => absurd h hsign, fun _ _ => by simp⟩ ?_ tail
  exact ⟨')', rfl, by decide, by decide⟩

end SqlOptimizer.Postgres.Renderings
