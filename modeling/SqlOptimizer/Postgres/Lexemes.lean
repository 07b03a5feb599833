import SqlOptimizer.Postgres.Scanner

/-!
What the scanner makes of words, numbers, operators and strings: how a text goes on behind
a token so that the token ends there, and which tokens can come out at all.
-/

set_option autoImplicit false
set_option relaxedAutoImplicit false

namespace SqlOptimizer.Postgres.Lexemes

open Logic.Transducers
open Scanner

/-- The name is scanned as a word and keeps its letters. -/
def isWord (w : String) : Bool :=
  match w.toList with
  | [] => false
  | c :: cs => isIdentStart c && cs.all isIdentCont && (c :: cs).map Char.toLower = c :: cs

/-- A run of operator characters in which no comment starts. -/
def isRun (os : List Char) : Bool :=
  os.all isOpChar && ¬ ['-', '-'] <:+: os && ¬ ['/', '*'] <:+: os

/-- The name is scanned as one operator, which is that name. -/
def isOperator (o : String) : Bool :=
  o ≠ "" && isRun o.toList && operatorTokens o.toList = some [.operator o]

def startsNumber (ds : List Char) : Bool := ds.head?.any fun c => c.isDigit || c = '.'

/-- The text is scanned as one number, which is not an integer. -/
def isFloat (s : String) : Bool :=
  startsNumber s.toList &&
    match after step .blank s.toList with
    | some ([], .integer ds) | some ([], .decimal ds) | some ([], .real ds) =>
        numberToken ds = .float s
    | _ => false

/-! ### Characters -/

theorem opChar_of {p : Char → Prop} [DecidablePred p]
    (h : opChars.all (fun d => decide (p d)) = true) {c : Char} (hc : isOpChar c = true) : p c := by
  have hp := List.all_eq_true.mp h c (by simpa [isOpChar] using hc)
  exact of_decide_eq_true hp

theorem space_of {p : Char → Prop} [DecidablePred p]
    (h : spaces.all (fun d => decide (p d)) = true) {c : Char} (hc : isSpace c = true) : p c := by
  have hp := List.all_eq_true.mp h c (by simpa [isSpace] using hc)
  exact of_decide_eq_true hp

theorem isIdentStart_iff {c : Char} : isIdentStart c = true ↔
    (65 ≤ c.toNat ∧ c.toNat ≤ 90) ∨ (97 ≤ c.toNat ∧ c.toNat ≤ 122) ∨ c.toNat = 95 ∨
      128 ≤ c.toNat := by
  have hval : c.toNat = c.val.toNat := rfl
  have hunderscore : c = '_' ↔ c.toNat = 95 := by
    constructor
    · rintro rfl
      rfl
    · intro h
      exact Char.toNat_inj.mp h
  have halpha : c.isAlpha = (c.isUpper || c.isLower) := rfl
  have hupper : c.isUpper = decide (c.val ≥ 'A'.val ∧ c.val ≤ 'Z'.val) := rfl
  have hlower : c.isLower = (decide (c.val ≥ 'a'.val) && decide (c.val ≤ 'z'.val)) := rfl
  simp only [isIdentStart, halpha, hupper, hlower, Bool.or_eq_true, Bool.and_eq_true,
    decide_eq_true_eq, UInt32.le_iff_toNat_le, ge_iff_le, hunderscore]
  simp only [hval]
  have : 'A'.val.toNat = 65 := rfl
  have : 'Z'.val.toNat = 90 := rfl
  have : 'a'.val.toNat = 97 := rfl
  have : 'z'.val.toNat = 122 := rfl
  omega

theorem isDigit_iff {c : Char} : c.isDigit = true ↔ 48 ≤ c.toNat ∧ c.toNat ≤ 57 := by
  have hval : c.toNat = c.val.toNat := rfl
  simp only [Char.isDigit, Bool.and_eq_true, decide_eq_true_eq, UInt32.le_iff_toNat_le, ge_iff_le,
    hval]
  have : '0'.val.toNat = 48 := rfl
  have : '9'.val.toNat = 57 := rfl
  omega

theorem start_identStart {c : Char} (hc : isIdentStart c = true) :
    start c = some ([], .word [c]) := by
  have hspace : ¬ isSpace c = true := fun h =>
    absurd hc (by simpa using space_of (p := fun c => isIdentStart c = false) (by decide) h)
  have hquote : c ≠ '\'' := by
    rintro rfl
    exact absurd hc (by decide)
  have hdigit : ¬ c.isDigit = true := by
    have := isIdentStart_iff.mp hc
    intro h
    have := isDigit_iff.mp h
    omega
  rw [start, if_neg hspace, if_neg hquote, if_neg hdigit, if_pos hc]

theorem start_digit {c : Char} (hc : c.isDigit = true) : start c = some ([], .integer [c]) := by
  have hspace : ¬ isSpace c = true := fun h =>
    absurd hc (by simpa using space_of (p := fun c => c.isDigit = false) (by decide) h)
  have hquote : c ≠ '\'' := by
    rintro rfl
    exact absurd hc (by decide)
  rw [start, if_neg hspace, if_neg hquote, if_pos hc]

theorem start_opChar {c : Char} (hc : isOpChar c = true) : start c = some ([], .operator [c]) :=
  opChar_of (p := fun c => start c = some ([], .operator [c])) (by decide) hc

/-! ### The tokens of a text without separators -/

theorem after_wordMode (w : List Char) {cs : List Char} (h : ∀ c ∈ cs, isIdentCont c = true) :
    after step (.word w) cs = some ([], .word (w ++ cs)) := by
  induction cs generalizing w with
  | nil => simp [after]
  | cons c cs ih =>
    have hstep : step (.word w) c = some ([], .word (w ++ [c])) := by
      show wordStep w c = _
      rw [wordStep, if_pos (h c List.mem_cons_self)]
    have hrest := ih (w ++ [c]) fun d hd => h d (List.mem_cons_of_mem _ hd)
    simp [after, hstep, hrest]

theorem isWord_cases {w : String} (h : isWord w = true) :
    ∃ c cs, w.toList = c :: cs ∧ isIdentStart c = true ∧ (∀ d ∈ cs, isIdentCont d = true) ∧
      w.toList.map Char.toLower = w.toList := by
  unfold isWord at h
  split at h
  · cases h
  · rename_i c cs hw
    simp only [Bool.and_eq_true, List.all_eq_true, decide_eq_true_eq] at h
    exact ⟨c, cs, hw, h.1.1, h.1.2, hw ▸ h.2⟩

theorem after_word {w : String} (h : isWord w = true) :
    after step .blank w.toList = some ([], .word w.toList) := by
  obtain ⟨c, cs, hw, hc, hcs, -⟩ := isWord_cases h
  have hstart : step .blank c = some ([], .word [c]) := start_identStart hc
  simp [hw, after, hstart, after_wordMode [c] hcs]

theorem wordToken_toList {w : String} (h : isWord w = true) : wordToken w.toList = .word w := by
  obtain ⟨c, cs, -, -, -, hlower⟩ := isWord_cases h
  rw [wordToken, hlower, String.ofList_toList]

theorem isRun_iff {os : List Char} : isRun os = true ↔
    (∀ c ∈ os, isOpChar c = true) ∧ ¬ ['-', '-'] <:+: os ∧ ¬ ['/', '*'] <:+: os := by
  simp [isRun, and_assoc]

theorem isRun_part {os os' : List Char} (h : isRun os' = true) (hos : os <:+: os') :
    isRun os = true := by
  obtain ⟨hall, hdash, hslash⟩ := isRun_iff.mp h
  exact isRun_iff.mpr ⟨fun c hc => hall c (hos.subset hc), fun h => hdash (h.trans hos),
    fun h => hslash (h.trans hos)⟩

/-- A character that goes on with a run. -/
theorem operatorStep_run {v : List Char} {c : Char} (h : isRun (v ++ [c]) = true) :
    operatorStep v c = some ([], .operator (v ++ [c])) := by
  obtain ⟨hall, hdash, hslash⟩ := isRun_iff.mp h
  have hc : isOpChar c = true := hall c (by simp)
  have hlast {d : Char} (hd : v.getLast? = some d) : [d, c] <:+: v ++ [c] := by
    obtain ⟨v', rfl⟩ := List.getLast?_eq_some_iff.mp hd
    exact ⟨v', [], by simp⟩
  have hminus : ¬ (c = '-' && v.getLast? = some '-') = true := by
    simp only [Bool.and_eq_true, decide_eq_true_eq]
    rintro ⟨rfl, hv⟩
    exact hdash (hlast hv)
  have hstar : ¬ (c = '*' && v.getLast? = some '/') = true := by
    simp only [Bool.and_eq_true, decide_eq_true_eq]
    rintro ⟨rfl, hv⟩
    exact hslash (hlast hv)
  rw [operatorStep, if_neg (by simp [hc]), if_neg hminus, if_neg hstar]

theorem after_operatorMode {v os : List Char} (h : isRun (v ++ os) = true) :
    after step (.operator v) os = some ([], .operator (v ++ os)) := by
  induction os generalizing v with
  | nil => simp [after]
  | cons c os ih =>
    have happend : v ++ c :: os = (v ++ [c]) ++ os := by simp
    have hstep : step (.operator v) c = some ([], .operator (v ++ [c])) :=
      operatorStep_run (isRun_part h ⟨[], os, by simp⟩)
    have hrest := ih (v := v ++ [c]) (happend ▸ h)
    rw [happend]
    simp [after, hstep, hrest]

theorem after_operator {os : List Char} (h : isRun os = true) (hne : os ≠ []) :
    after step .blank os = some ([], .operator os) := by
  cases os with
  | nil => exact absurd rfl hne
  | cons c os =>
    have hstart : step .blank c = some ([], .operator [c]) :=
      start_opChar ((isRun_iff.mp h).1 c List.mem_cons_self)
    have hrest : after step (.operator [c]) os = some ([], .operator (c :: os)) :=
      after_operatorMode h
    simpa [after, hstart] using hrest

theorem after_stringMode (v : List Char) {s : List Char} (h : '\'' ∉ s) :
    after step (.string v) s = some ([], .string (v ++ s)) := by
  induction s generalizing v with
  | nil => simp [after]
  | cons c s ih =>
    obtain ⟨hc, hs⟩ : '\'' ≠ c ∧ '\'' ∉ s := by simpa using h
    have hstep : step (.string v) c = some ([], .string (v ++ [c])) := by
      show (if c = '\'' then _ else _) = _
      rw [if_neg (Ne.symm hc)]
    have hrest := ih (v ++ [c]) hs
    simp [after, hstep, hrest]

/-- A string in which nothing has to be escaped. -/
theorem after_string {s : List Char} (h : '\'' ∉ s) :
    after step .blank ('\'' :: (s ++ ['\''])) = some ([], .quote s) := by
  have hopen : step .blank '\'' = some ([], .string []) := by decide
  have hclose : step (.string s) '\'' = some ([], .quote s) := rfl
  have hrest : after step (.string []) (s ++ ['\'']) = some ([], .quote s) := by
    rw [after_append, after_stringMode [] h]
    simp [after, hclose]
  simpa [after, hopen] using hrest

/-! ### Where a token ends -/

theorem ends_of_close {m : Mode} {c : Char} (h : step m c = close m c) (cs : List Char) :
    Ends step pending .blank m (c :: cs) :=
  ends_cons h cs

/-- What an operand can end in: a parenthesis, a word, a number, a string or a star. -/
inductive Closable : Mode → Prop
  | blank : Closable .blank
  | word {w : String} (hw : isWord w = true) : Closable (.word w.toList)
  | integer (ds : List Char) : Closable (.integer ds)
  | decimal (ds : List Char) : Closable (.decimal ds)
  | real (ds : List Char) : Closable (.real ds)
  | quote (s : List Char) : Closable (.quote s)
  | star : Closable (.operator ['*'])

theorem Closable.exists_pending {m : Mode} (hm : Closable m) : ∃ ts, pending m = some ts := by
  cases hm <;> exact ⟨_, rfl⟩

/-- A character that belongs to no word, no number and no string. -/
theorem Closable.ends_break {m : Mode} (hm : Closable m) {c : Char} (hc : c = ')' ∨ c = ',')
    (cs : List Char) : Ends step pending .blank m (c :: cs) := by
  cases hm with
  | blank => exact ends_self (show pending .blank = some [] from rfl) _
  | @word w hw =>
    apply ends_of_close
    show wordStep w.toList c = _
    rcases hc with rfl | rfl
    · simp [wordStep, show isIdentCont ')' = false by decide]
    · simp [wordStep, show isIdentCont ',' = false by decide]
  | integer ds =>
    apply ends_of_close
    rcases hc with rfl | rfl <;> rfl
  | decimal ds =>
    apply ends_of_close
    rcases hc with rfl | rfl <;> rfl
  | real ds =>
    apply ends_of_close
    rcases hc with rfl | rfl <;> rfl
  | quote s =>
    apply ends_of_close
    rcases hc with rfl | rfl <;> rfl
  | star =>
    apply ends_of_close
    rcases hc with rfl | rfl <;> rfl

/-- A blank and a word. -/
theorem Closable.ends_space {m : Mode} (hm : Closable m) {c : Char}
    (hc : isIdentStart c = true) (cs : List Char) :
    Ends step pending .blank m (' ' :: c :: cs) := by
  cases hm with
  | blank => exact ends_self (show pending .blank = some [] from rfl) _
  | @word w hw =>
    apply ends_of_close
    show wordStep w.toList ' ' = _
    simp [wordStep, show isIdentCont ' ' = false by decide]
  | integer ds => exact ends_of_close rfl _
  | decimal ds => exact ends_of_close rfl _
  | real ds => exact ends_of_close rfl _
  | star => exact ends_of_close rfl _
  | quote s =>
    have hspace : ¬ isSpace c = true := fun h =>
      absurd hc (by simpa using space_of (p := fun c => isIdentStart c = false) (by decide) h)
    have hdash : c ≠ '-' := by
      rintro rfl
      exact absurd hc (by decide)
    have hclose : step (.quoteBlank s false) c = close (.quoteBlank s false) c := by
      show quoteStep s false c = _
      rw [quoteStep, if_neg hspace, if_neg hdash, if_neg (by simp)]
    exact (ends_of_close hclose cs).cons_silent rfl rfl rfl

/-- An operator behind an operand, as far as the last token of the operand is concerned. -/
def mayFollow (m : Mode) (os tail : List Char) : Prop :=
  match m with
  | .word w => w = ['u'] → os = ['&'] → tail.head? ≠ some '\''
  | .quote _ => os = ['-'] → tail.head? ≠ some '-'
  | .operator _ => False
  | _ => True

theorem ends_word_operator {w : String} (hw : isWord w = true) {os tail : List Char}
    (hos : isRun os = true) (hne : os ≠ []) (h : mayFollow (.word w.toList) os tail)
    (htail : tail.head? ≠ some '"') :
    Ends step pending .blank (.word w.toList) (os ++ tail) := by
  obtain ⟨-, -, -, -, -, hlower⟩ := isWord_cases hw
  cases os with
  | nil => exact absurd rfl hne
  | cons o os =>
    have ho : isOpChar o = true := (isRun_iff.mp hos).1 o List.mem_cons_self
    have hcont : isIdentCont o = false :=
      opChar_of (p := fun c => isIdentCont c = false) (by decide) ho
    have hquote : o ≠ '\'' := opChar_of (p := fun c => c ≠ '\'') (by decide) ho
    by_cases hu : o = '&' ∧ w.toList = ['u']
    · obtain ⟨rfl, hu⟩ := hu
      have hstep : step (.word w.toList) '&' = some ([], .unicode w.toList) := by
        show wordStep w.toList '&' = _
        rw [hu]
        rfl
      have hnext : ∀ c, (os ++ tail).head? = some c → ¬ (c = '\'' || c = '"') = true := by
        intro c hc
        cases os with
        | nil =>
          simp only [Bool.or_eq_true, decide_eq_true_eq]
          rintro (rfl | rfl)
          · exact h hu rfl hc
          · exact htail hc
        | cons o os =>
          obtain rfl : o = c := by simpa using hc
          exact opChar_of (p := fun c => ¬ (c = '\'' || c = '"') = true) (by decide)
            ((isRun_iff.mp hos).1 o (by simp))
      refine ends_of_owes (.operator ['&']) hstep rfl rfl (output_of_owes rfl fun c hc => ?_)
      show (if (c = '\'' || c = '"') = true then none else _) = _
      rw [if_neg (hnext c hc)]
      rfl
    · apply ends_of_close
      show wordStep w.toList o = _
      rw [wordStep, hcont, hlower, if_neg (by simp), if_neg (by simp [hquote]),
        if_neg (by simpa using hu)]

theorem ends_quote_operator {s os tail : List Char} (hos : isRun os = true) (hne : os ≠ [])
    (h : mayFollow (.quote s) os tail) : Ends step pending .blank (.quote s) (os ++ tail) := by
  cases os with
  | nil => exact absurd rfl hne
  | cons o os =>
    have ho : isOpChar o = true := (isRun_iff.mp hos).1 o List.mem_cons_self
    by_cases hdash : o = '-'
    · subst hdash
      have hnext : ∀ c, (os ++ tail).head? = some c → c ≠ '-' := by
        rintro c hc rfl
        cases os with
        | nil => exact h rfl hc
        | cons o os =>
          cases hc
          exact (isRun_iff.mp hos).2.1 ⟨[], os, rfl⟩
      refine ends_of_owes (.operator ['-']) rfl rfl rfl (output_of_owes rfl fun c hc => ?_)
      show (if c = '-' then _ else _) = _
      rw [if_neg (hnext c hc)]
      rfl
    · apply ends_of_close
      have hspace : isSpace o = false := opChar_of (p := fun c => isSpace c = false) (by decide) ho
      have hquote : o ≠ '\'' := opChar_of (p := fun c => c ≠ '\'') (by decide) ho
      show (if o = '\'' then _ else quoteStep s false o) = _
      rw [if_neg hquote, quoteStep, hspace, if_neg (by simp), if_neg hdash, if_neg (by simp)]
      rfl

/-- An operator ends the last token of the operand before it. -/
theorem Closable.ends_operator {m : Mode} (hm : Closable m) {os tail : List Char}
    (hos : isRun os = true) (hne : os ≠ []) (h : mayFollow m os tail)
    (htail : tail.head? ≠ some '"') : Ends step pending .blank m (os ++ tail) := by
  have hnumber : ∀ o ∈ os, o.isDigit = false ∧ o ≠ '.' ∧ isExponentLetter o = false :=
    fun o ho => opChar_of
      (p := fun c => c.isDigit = false ∧ c ≠ '.' ∧ isExponentLetter c = false) (by decide)
      ((isRun_iff.mp hos).1 o ho)
  cases hm with
  | blank => exact ends_self (show pending .blank = some [] from rfl) _
  | word hw => exact ends_word_operator hw hos hne h htail
  | quote s => exact ends_quote_operator hos hne h
  | star => exact h.elim
  | integer ds | decimal ds | real ds =>
    cases os with
    | nil => exact absurd rfl hne
    | cons o os =>
      obtain ⟨hdigit, hdot, hletter⟩ := hnumber o List.mem_cons_self
      apply ends_of_close
      simp [step, hdigit, hdot, hletter]

/-! ### What may stand behind an operator -/

theorem operatorStep_of_not_opChar {os : List Char} {c : Char} (hc : isOpChar c = false) :
    operatorStep os c = close (.operator os) c := by
  rw [operatorStep, if_pos (by simp [hc])]

/-- The operator ends at any other character. -/
theorem ends_operator {os tail : List Char}
    (h : ∀ c, tail.head? = some c → isOpChar c = false) :
    Ends step pending .blank (.operator os) tail := by
  cases tail with
  | nil => exact ends_nil (show pending .blank = some [] from rfl) _
  | cons c cs =>
    apply ends_of_close
    exact operatorStep_of_not_opChar (h c rfl)

theorem isSpecial_of_isSign {c : Char} (hc : isSign c = true) : isSpecial c = false := by
  rcases Bool.or_eq_true _ _ ▸ hc with h | h <;> rw [of_decide_eq_true h] <;> rfl

/-- A sign at the end of a run without special characters is an operator of its own. -/
theorem operatorTokens_concat_sign {os : List Char} {ts : List Token} {c : Char}
    (ht : operatorTokens os = some ts) (hne : os ≠ []) (hspecial : os.any isSpecial = false)
    (hc : isSign c = true) :
    operatorTokens (os ++ [c]) = some (ts ++ [.operator (String.ofList [c])]) := by
  cases os with
  | nil => exact absurd rfl hne
  | cons o os =>
    have hspecial' : (o :: (os ++ [c])).any isSpecial = false := by
      simpa [isSpecial_of_isSign hc] using hspecial
    rw [operatorTokens, if_neg (by simp [hspecial])] at ht
    obtain ⟨t, hcore, rfl⟩ := Option.map_eq_some_iff.mp ht
    rw [List.cons_append, operatorTokens, if_neg (by simp [hspecial']),
      List.rdropWhile_concat_pos _ _ _ hc, List.rtakeWhile_concat_pos _ _ _ hc, hcore]
    simp

/-- A run that falls into two parts. -/
theorem output_operator_split (os cs : List Char) (ts us : List Token) {d : Char}
    (h : operatorTokens (os ++ cs) = some (ts ++ us)) (hcs : operatorTokens cs = some us)
    (hd : isOpChar d = false) (tail : List Char) :
    output step pending (.operator (os ++ cs)) (d :: tail) =
      (output step pending (.operator cs) (d :: tail)).map (ts ++ ·) := by
  apply output_of_owes
  · simp [pending, h, hcs]
  · rintro e he
    obtain rfl : d = e := by simpa using he
    show operatorStep _ d = emit ts (operatorStep _ d)
    simp only [operatorStep_of_not_opChar hd, close, pending, h, hcs, Option.bind_some, emit_emit]

/-- A minus sign behind an operator that cannot take it. -/
theorem ends_operator_minus {os : List Char} {t : Token} {d : Char} (tail : List Char)
    (ht : operatorTokens os = some [t]) (hspecial : os.any isSpecial = false)
    (hne : os ≠ ['-']) (hd : isOpChar d = false) :
    Ends step pending .blank (.operator os) ('-' :: d :: tail) := by
  have hnil : os ≠ [] := by
    rintro rfl
    cases ht
  have hlast : os.getLast? ≠ some '-' := by
    intro hlast
    obtain ⟨os', rfl⟩ := List.getLast?_eq_some_iff.mp hlast
    have hnil' : os' ≠ [] := by
      rintro rfl
      exact hne rfl
    cases os' with
    | nil => exact absurd rfl hnil'
    | cons o os' =>
      rw [List.cons_append, operatorTokens, if_neg (by simpa using hspecial),
        List.rtakeWhile_concat_pos _ _ _ (by decide)] at ht
      obtain ⟨t', -, heq⟩ := Option.map_eq_some_iff.mp ht
      simpa using (List.cons.inj heq).2
  have htokens := operatorTokens_concat_sign ht hnil hspecial (c := '-') (by decide)
  refine ends_of_owes (.operator ['-']) ?_ rfl ht
    (output_operator_split os ['-'] [t] _ htokens rfl hd tail)
  show operatorStep os '-' = _
  rw [operatorStep, if_neg (by decide), if_neg (by simpa using hlast), if_neg (by simp)]

/-- A sign behind the star of a column reference. -/
theorem ends_star_sign {c d : Char} (tail : List Char) (hc : isSign c = true)
    (hd : isOpChar d = false) :
    Ends step pending .blank (.operator ['*']) (c :: d :: tail) := by
  have hstar : pending (.operator ['*']) = some [.operator "*"] := rfl
  rcases Bool.or_eq_true _ _ ▸ hc with h | h <;> rw [of_decide_eq_true h]
  · exact ends_of_owes (.operator ['+']) rfl rfl hstar
      (output_operator_split ['*'] _ [.operator "*"] _ rfl rfl hd tail)
  · exact ends_of_owes (.operator ['-']) rfl rfl hstar
      (output_operator_split ['*'] _ [.operator "*"] _ rfl rfl hd tail)

/-- A plus sign behind the star of a column reference, and a minus sign. -/
theorem ends_star_plus_minus {d : Char} (tail : List Char) (hd : isOpChar d = false) :
    Ends step pending .blank (.operator ['*']) ('+' :: '-' :: d :: tail) := by
  have hsplit := output_operator_split ['*'] ['+', '-'] [.operator "*"]
    [.operator "+", .operator "-"] rfl rfl hd tail
  have howes : step (.operator ['*']) '+' = some ([], .operator ['*', '+']) := rfl
  refine ends_of_owes (.operator ['+']) howes rfl
    (show pending (.operator ['*']) = some [.operator "*"] from rfl) ?_
  have hleft : step (.operator ['*', '+']) '-' = some ([], .operator ['*', '+', '-']) := rfl
  have hright : step (.operator ['+']) '-' = some ([], .operator ['+', '-']) := rfl
  rw [output_cons_silent hleft, output_cons_silent hright]
  exact hsplit

/-! ### The characters of a number -/

def isNumberChar (c : Char) : Bool := c.isDigit || c = '.' || isExponentLetter c || isSign c

theorem isNumberChar_ne {c : Char} (h : isNumberChar c = true) :
    isNewline c = false ∧ c ≠ '\'' := by
  have hne {d : Char} (hd : isNumberChar d = false) : c ≠ d := by
    rintro rfl
    rw [hd] at h
    cases h
  have hlf : c ≠ '\n' := hne (by decide)
  have hcr : c ≠ '\r' := hne (by decide)
  exact ⟨by simp [isNewline, hlf, hcr], hne (by decide)⟩

/-- A number or a dot as it is under way. -/
def IsNumeric : Mode → Prop
  | .dot | .integer _ | .decimal _ | .exponent _ _ | .exponentSign _ _ _ | .real _ => True
  | _ => False

theorem emit_ne_silent {t : Token} {ts : List Token} {r : Option (List Token × Mode)} {m : Mode} :
    emit (t :: ts) r ≠ some ([], m) := by
  intro h
  obtain ⟨us, -, heq⟩ := emit_eq_some.mp h
  cases heq

theorem close_ne_silent {m m' : Mode} {t : Token} {ts : List Token} {c : Char}
    (h : pending m = some (t :: ts)) : close m c ≠ some ([], m') := by
  rw [close, h]
  exact emit_ne_silent

/-- A number goes on with digits, a dot, a letter and a sign. -/
theorem isNumeric_step {m m' : Mode} {c : Char} (hm : IsNumeric m)
    (h : step m c = some ([], m')) : IsNumeric m' ∧ isNumberChar c = true := by
  have hsilent {m' m'' : Mode} (h : some ([], m'') = some (([] : List Token), m'))
      (hm : IsNumeric m'') : IsNumeric m' := by
    cases h
    exact hm
  cases m with
  | dot =>
    rw [step] at h
    split_ifs at h with hdigit
    · exact ⟨hsilent h trivial, by simp [isNumberChar, hdigit]⟩
    · exact absurd h (close_ne_silent rfl)
  | integer ds =>
    rw [step] at h
    split_ifs at h with hdigit hdot hletter
    · exact ⟨hsilent h trivial, by simp [isNumberChar, hdigit]⟩
    · exact ⟨hsilent h trivial, by simp [isNumberChar, hdot]⟩
    · exact ⟨hsilent h trivial, by simp [isNumberChar, hletter]⟩
    · exact absurd h (close_ne_silent rfl)
  | decimal ds =>
    rw [step] at h
    split_ifs at h with hdigit hdot hletter
    · exact ⟨hsilent h trivial, by simp [isNumberChar, hdigit]⟩
    · exact ⟨hsilent h trivial, by simp [isNumberChar, hletter]⟩
    · exact absurd h (close_ne_silent rfl)
  | exponent ds e =>
    rw [step] at h
    split_ifs at h with hdigit hsign
    · exact ⟨hsilent h trivial, by simp [isNumberChar, hdigit]⟩
    · exact ⟨hsilent h trivial, by simp [isNumberChar, hsign]⟩
    · exact absurd h emit_ne_silent
  | exponentSign ds e sign =>
    rw [step] at h
    split_ifs at h with hdigit
    · exact ⟨hsilent h trivial, by simp [isNumberChar, hdigit]⟩
    · exact absurd h emit_ne_silent
  | real ds =>
    rw [step] at h
    split_ifs at h with hdigit
    · exact ⟨hsilent h trivial, by simp [isNumberChar, hdigit]⟩
    · exact absurd h (close_ne_silent rfl)
  | _ => cases hm

theorem isNumberChar_of_after {m m' : Mode} {cs : List Char} (hm : IsNumeric m)
    (h : after step m cs = some ([], m')) : ∀ c ∈ cs, isNumberChar c = true := by
  induction cs generalizing m with
  | nil => simp
  | cons c cs ih =>
    obtain ⟨⟨us, m₁⟩, hstep, hrest⟩ := Option.bind_eq_some_iff.mp h
    obtain ⟨vs, hrest, heq⟩ := emit_eq_some.mp hrest
    obtain ⟨rfl, rfl⟩ : us = [] ∧ vs = [] := by simpa using heq
    obtain ⟨hm₁, hc⟩ := isNumeric_step hm hstep
    exact List.forall_mem_cons.mpr ⟨hc, ih hm₁ hrest⟩

theorem isNumberChar_of_isFloat {s : String} (h : isFloat s = true) :
    ∀ c ∈ s.toList, isNumberChar c = true := by
  rw [isFloat, Bool.and_eq_true] at h
  obtain ⟨hstarts, hafter⟩ := h
  obtain ⟨m, hafter⟩ : ∃ m, after step .blank s.toList = some ([], m) := by
    split at hafter
    · rename_i ds heq
      exact ⟨_, heq⟩
    · rename_i ds heq
      exact ⟨_, heq⟩
    · rename_i ds heq
      exact ⟨_, heq⟩
    · cases hafter
  cases hs : s.toList with
  | nil => simp
  | cons c cs =>
    rw [hs] at hstarts hafter
    have hfirst : ∃ m₁, step .blank c = some ([], m₁) ∧ IsNumeric m₁ ∧ isNumberChar c = true := by
      have hc : c.isDigit = true ∨ c = '.' := by simpa [startsNumber] using hstarts
      rcases hc with hc | rfl
      · exact ⟨.integer [c], start_digit hc, trivial, by simp [isNumberChar, hc]⟩
      · exact ⟨.dot, by decide, trivial, by decide⟩
    obtain ⟨m₁, hstep, hm₁, hc⟩ := hfirst
    rw [after, hstep] at hafter
    have hrest : after step m₁ cs = some ([], m) := by simpa using hafter
    exact List.forall_mem_cons.mpr ⟨hc, isNumberChar_of_after hm₁ hrest⟩

end SqlOptimizer.Postgres.Lexemes
