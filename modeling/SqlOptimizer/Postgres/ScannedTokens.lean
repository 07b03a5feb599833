import SqlOptimizer.Postgres.Lexemes

/-!
What every text is scanned to: words, operators and numbers that are scanned to themselves,
and no more strings than the quotes of the text allow.
-/

set_option autoImplicit false
set_option relaxedAutoImplicit false

namespace SqlOptimizer.Postgres.ScannedTokens

open Logic.Transducers
open Scanner Lexemes

/-- The token is one that the scanner gives. -/
def Valid : Token → Prop
  | .word w => isWord w = true
  | .integer n => n < 2 ^ 31
  | .float s => isFloat s = true
  | .operator o => isOperator o = true
  | _ => True

/-- The characters start like a number and lead to the token under way. -/
def LeadsTo (ds : List Char) (m : Mode) : Prop :=
  startsNumber ds = true ∧ after step .blank ds = some ([], m)

/-- The characters read are a number so far, without an exponent. -/
def IsNumber (ds : List Char) : Prop := LeadsTo ds (.integer ds) ∨ LeadsTo ds (.decimal ds)

def IsWordChars (w : List Char) : Prop :=
  ∃ c cs, w = c :: cs ∧ isIdentStart c = true ∧ ∀ d ∈ cs, isIdentCont d = true

/-- The token under way can become a valid one. -/
def ValidMode : Mode → Prop
  | .word w | .unicode w => IsWordChars w
  | .integer ds => LeadsTo ds (.integer ds)
  | .decimal ds => LeadsTo ds (.decimal ds)
  | .exponent ds e => IsNumber ds ∧ isExponentLetter e = true
  | .exponentSign ds e sign => IsNumber ds ∧ isExponentLetter e = true ∧ isSign sign = true
  | .real ds => LeadsTo ds (.real ds)
  | .operator os => isRun os = true ∧ os ≠ []
  | _ => True

/-! ### Letters in lower case -/

theorem toNat_toLower (c : Char) : c.toLower.toNat =
    if 65 ≤ c.toNat ∧ c.toNat ≤ 90 then c.toNat + 32 else c.toNat := by
  have hiff : (c.val ≥ 'A'.val ∧ c.val ≤ 'Z'.val) ↔ (65 ≤ c.toNat ∧ c.toNat ≤ 90) := by
    simp only [ge_iff_le, UInt32.le_iff_toNat_le]
    rfl
  unfold Char.toLower
  by_cases h : c.val ≥ 'A'.val ∧ c.val ≤ 'Z'.val
  · have hbounds := hiff.mp h
    rw [dif_pos h, if_pos hbounds]
    show (c.val + ('a'.val - 'A'.val)).toNat = _
    have hdiff : ('a'.val - 'A'.val).toNat = 32 := rfl
    rw [UInt32.toNat_add, hdiff]
    have : c.toNat = c.val.toNat := rfl
    omega
  · rw [dif_neg h, if_neg fun hb => h (hiff.mpr hb)]

theorem toLower_toLower (c : Char) : c.toLower.toLower = c.toLower := by
  apply Char.toNat_inj.mp
  have h := toNat_toLower c
  rw [toNat_toLower c.toLower]
  split
  · split at h <;> omega
  · rfl

theorem isIdentStart_toLower {c : Char} (hc : isIdentStart c = true) :
    isIdentStart c.toLower = true := by
  have h := isIdentStart_iff.mp hc
  apply isIdentStart_iff.mpr
  rw [toNat_toLower]
  split <;> omega

theorem isIdentCont_toLower {c : Char} (hc : isIdentCont c = true) :
    isIdentCont c.toLower = true := by
  simp only [isIdentCont, Bool.or_eq_true, decide_eq_true_eq] at hc ⊢
  have hsame (h : c.toNat < 65) : c.toLower = c := by
    apply Char.toNat_inj.mp
    rw [toNat_toLower, if_neg (by omega)]
  rcases hc with (hstart | hdigit) | rfl
  · exact .inl (.inl (isIdentStart_toLower hstart))
  · have := isDigit_iff.mp hdigit
    exact .inl (.inr (by rw [hsame (by omega), hdigit]))
  · exact .inr rfl

theorem valid_wordToken {w : List Char} (h : IsWordChars w) : Valid (wordToken w) := by
  obtain ⟨c, cs, rfl, hc, hcs⟩ := h
  show isWord _ = true
  rw [isWord, String.toList_ofList]
  simp only [List.map_cons, Bool.and_eq_true, List.all_eq_true, List.mem_map, decide_eq_true_eq,
    List.map_map, toLower_toLower]
  refine ⟨⟨isIdentStart_toLower hc, ?_⟩, ?_⟩
  · rintro d ⟨d', hd', rfl⟩
    exact isIdentCont_toLower (hcs d' hd')
  · congr 1
    exact List.map_congr_left fun d _ => toLower_toLower d

/-! ### Numbers and operators -/

theorem valid_numberToken {ds : List Char}
    (h : IsNumber ds ∨ LeadsTo ds (.real ds)) : Valid (numberToken ds) := by
  by_cases hint : (ds.all Char.isDigit && digitsValue ds < 2 ^ 31) = true
  · have htoken : numberToken ds = .integer (digitsValue ds) := if_pos hint
    rw [htoken]
    show digitsValue ds < 2 ^ 31
    simp only [Bool.and_eq_true, decide_eq_true_eq] at hint
    exact hint.2
  · have htoken : numberToken ds = .float (String.ofList ds) := if_neg hint
    rw [htoken]
    show isFloat _ = true
    rw [isFloat, String.toList_ofList]
    rcases h with (⟨hstart, h⟩ | ⟨hstart, h⟩) | ⟨hstart, h⟩ <;> simp [hstart, h, htoken]

theorem valid_operatorToken {os : List Char} {t : Token} (hrun : isRun os = true)
    (hne : os ≠ []) (h : operatorToken os = some t) (hself : operatorTokens os = some [t]) :
    Valid t := by
  unfold operatorToken at h
  split at h
  · cases h
  split at h
  · cases h
    show isOperator "<>" = true
    decide
  · cases h
    show isOperator _ = true
    simp [isOperator, hrun, hself, hne]

theorem valid_sign {c : Char} (hc : isSign c = true) : Valid (.operator (String.ofList [c])) := by
  show isOperator _ = true
  rcases Bool.or_eq_true _ _ ▸ hc with h | h <;> rw [of_decide_eq_true h] <;> decide

theorem valid_operatorTokens {os : List Char} {ts : List Token} (hrun : isRun os = true)
    (h : operatorTokens os = some ts) : ∀ t ∈ ts, Valid t := by
  cases os with
  | nil =>
    cases h
    simp
  | cons o os =>
    by_cases hspecial : (o :: os).any isSpecial = true
    · have hself := h
      rw [operatorTokens, if_pos hspecial] at h
      obtain ⟨t, ht, rfl⟩ := Option.map_eq_some_iff.mp h
      intro u hu
      obtain rfl := List.mem_singleton.mp hu
      exact valid_operatorToken hrun (by simp) ht hself
    · rw [operatorTokens, if_neg hspecial] at h
      obtain ⟨t, ht, rfl⟩ := Option.map_eq_some_iff.mp h
      intro u hu
      have hpart : o :: os.rdropWhile isSign <+: o :: os :=
        List.cons_prefix_cons.mpr ⟨rfl, List.rdropWhile_prefix _ _⟩
      have hplain : ¬ (o :: os.rdropWhile isSign).any isSpecial = true := by
        simp only [List.any_eq_true, not_exists, not_and] at hspecial ⊢
        exact fun c hc => hspecial c (hpart.subset hc)
      have hself : operatorTokens (o :: os.rdropWhile isSign) = some [t] := by
        have hnil : (os.rdropWhile isSign).rtakeWhile isSign = [] :=
          List.rtakeWhile_eq_nil_iff.mpr fun hne => List.rdropWhile_last_not _ _ hne
        rw [operatorTokens, if_neg hplain, List.rdropWhile_idempotent, ht, hnil]
        rfl
      rcases List.mem_cons.mp hu with rfl | hu
      · exact valid_operatorToken (isRun_part hrun hpart.isInfix) (by simp) ht hself
      · obtain ⟨c, hc, rfl⟩ := List.mem_map.mp hu
        exact valid_sign (List.mem_rtakeWhile_imp hc)

/-! ### The steps -/

/-- What a step gives is valid. -/
def Sound (r : Option (List Token × Mode)) : Prop :=
  ∀ ts m, r = some (ts, m) → (∀ t ∈ ts, Valid t) ∧ ValidMode m

theorem sound_none : Sound none := by
  intro ts m h
  cases h

theorem sound_some {ts : List Token} {m : Mode} (hts : ∀ t ∈ ts, Valid t) (hm : ValidMode m) :
    Sound (some (ts, m)) := by
  intro us m' h
  cases h
  exact ⟨hts, hm⟩

theorem sound_silent {m : Mode} (hm : ValidMode m) : Sound (some ([], m)) :=
  sound_some (by simp) hm

theorem Sound.emit {ts : List Token} {r : Option (List Token × Mode)} (hr : Sound r)
    (hts : ∀ t ∈ ts, Valid t) : Sound (emit ts r) := by
  intro us m h
  obtain ⟨us', h', rfl⟩ := emit_eq_some.mp h
  obtain ⟨hus, hm⟩ := hr us' m h'
  exact ⟨fun t ht => (List.mem_append.mp ht).elim (hts t) (hus t), hm⟩

theorem sound_start (c : Char) : Sound (start c) := by
  unfold start
  split_ifs with hspace hquote hdigit hident hop hlpar hrpar hcomma hdot
  · exact sound_silent trivial
  · exact sound_silent trivial
  · apply sound_silent
    have hstart : step .blank c = some ([], .integer [c]) := start_digit hdigit
    exact ⟨by simp [startsNumber, hdigit], by simp [after, hstart]⟩
  · exact sound_silent ⟨c, [], rfl, hident, by simp⟩
  · apply sound_silent
    refine ⟨?_, by simp⟩
    exact opChar_of (p := fun c => isRun [c] = true) (by decide) hop
  · exact sound_some (by simp [Valid]) trivial
  · exact sound_some (by simp [Valid]) trivial
  · exact sound_some (by simp [Valid]) trivial
  · exact sound_silent trivial
  · exact sound_none

theorem isWordChars_letter {e : Char} (he : isExponentLetter e = true) : IsWordChars [e] := by
  refine ⟨e, [], rfl, ?_, by simp⟩
  rcases Bool.or_eq_true _ _ ▸ he with h | h <;> rw [of_decide_eq_true h] <;> decide

theorem valid_pending {m : Mode} (hm : ValidMode m) {ts : List Token}
    (h : pending m = some ts) : ∀ t ∈ ts, Valid t := by
  cases m with
  | operator os => exact valid_operatorTokens hm.1 h
  | word w =>
    cases h
    simpa using valid_wordToken hm
  | unicode w =>
    cases h
    have hand : Valid (.operator "&") := by
      show isOperator "&" = true
      decide
    simpa using ⟨valid_wordToken hm, hand⟩
  | integer ds =>
    cases h
    simpa using valid_numberToken (.inl (.inl hm))
  | decimal ds =>
    cases h
    simpa using valid_numberToken (.inl (.inr hm))
  | real ds =>
    cases h
    simpa using valid_numberToken (.inr hm)
  | exponent ds e =>
    cases h
    simpa using ⟨valid_numberToken (.inl hm.1), valid_wordToken (isWordChars_letter hm.2)⟩
  | exponentSign ds e sign =>
    cases h
    simpa using ⟨valid_numberToken (.inl hm.1), valid_wordToken (isWordChars_letter hm.2.1),
      valid_sign hm.2.2⟩
  | quoteDash s newline =>
    cases h
    have hminus : Valid (.operator "-") := by
      show isOperator "-" = true
      decide
    simpa [Valid] using hminus
  | string s | blockComment depth last => cases h
  | blank | dot | quote s | quoteBlank s newline | quoteComment s newline | lineComment =>
    cases h
    simp [Valid]

theorem sound_close {m : Mode} (hm : ValidMode m) (c : Char) : Sound (close m c) := by
  unfold close
  cases h : pending m with
  | none => exact sound_none
  | some ts => exact (sound_start c).emit (valid_pending hm h)

theorem sound_wordStep {w : List Char} (hw : IsWordChars w) (c : Char) :
    Sound (wordStep w c) := by
  unfold wordStep
  split_ifs with hcont
  · obtain ⟨d, ds, rfl, hd, hds⟩ := hw
    refine sound_silent ⟨d, ds ++ [c], rfl, hd, ?_⟩
    intro d' hd'
    rcases List.mem_append.mp hd' with h | h
    · exact hds d' h
    · rw [List.mem_singleton.mp h, hcont]
  · exact sound_none
  · exact sound_silent hw
  · exact sound_close (m := .word w) hw c

theorem isRun_concat {os : List Char} {c : Char} (hos : isRun os = true) (hc : isOpChar c = true)
    (hminus : ¬ (c = '-' ∧ os.getLast? = some '-'))
    (hstar : ¬ (c = '*' ∧ os.getLast? = some '/')) : isRun (os ++ [c]) = true := by
  obtain ⟨hall, hdash, hslash⟩ := isRun_iff.mp hos
  have hend {d e : Char} (h : [d, e] <:+ os ++ [c]) : c = e ∧ os.getLast? = some d := by
    obtain ⟨init, hinit⟩ := h
    have hsplit : (init ++ [d]) ++ [e] = os ++ [c] := by simpa using hinit
    obtain ⟨rfl, hce⟩ := List.append_inj' hsplit rfl
    exact ⟨(List.singleton_inj.mp hce).symm, by simp⟩
  refine isRun_iff.mpr ⟨?_, ?_, ?_⟩
  · intro d hd
    rcases List.mem_append.mp hd with h | h
    · exact hall d h
    · rw [List.mem_singleton.mp h, hc]
  · intro h
    rcases List.infix_concat_iff.mp h with h | h
    · exact hminus (hend h)
    · exact hdash h
  · intro h
    rcases List.infix_concat_iff.mp h with h | h
    · exact hstar (hend h)
    · exact hslash h

theorem sound_operatorStep (os : List Char) (hos : isRun os = true) (hne : os ≠ []) (c : Char) :
    Sound (operatorStep os c) := by
  have hdrop : isRun os.dropLast = true :=
    isRun_part hos ( List.dropLast_prefix os).isInfix
  unfold operatorStep
  split_ifs with hc hminus hstar
  · exact sound_close (m := .operator os) ⟨hos, hne⟩ c
  · cases h : operatorTokens os.dropLast with
    | none => exact sound_none
    | some ts => exact sound_some (valid_operatorTokens hdrop h) trivial
  · cases h : operatorTokens os.dropLast with
    | none => exact sound_none
    | some ts => exact sound_some (valid_operatorTokens hdrop h) trivial
  · refine sound_silent ⟨?_, by simp⟩
    simp only [Bool.and_eq_true, decide_eq_true_eq] at hminus hstar
    exact isRun_concat hos (by simpa using hc) hminus hstar

theorem valid_string (s : List Char) : ∀ t ∈ [Token.string (String.ofList s)], Valid t := by
  simp [Valid]

theorem sound_quoteStep (s : List Char) (newline : Bool) (c : Char) :
    Sound (quoteStep s newline c) := by
  unfold quoteStep
  split_ifs
  · exact sound_silent trivial
  · exact sound_silent trivial
  · exact sound_silent trivial
  · exact sound_close (m := .quoteBlank s newline) trivial c

/-- A character that goes on with a number. -/
theorem LeadsTo.concat {ds : List Char} {m m' : Mode} {c : Char} (h : LeadsTo ds m)
    (hc : step m c = some ([], m')) : LeadsTo (ds ++ [c]) m' := by
  obtain ⟨hstart, hafter⟩ := h
  refine ⟨?_, by simp [after_append, hafter, after, hc]⟩
  cases ds with
  | nil => cases hstart
  | cons d ds => exact hstart

theorem IsNumber.step_letter {ds : List Char} (h : IsNumber ds) {e : Char}
    (he : isExponentLetter e = true) : LeadsTo (ds ++ [e]) (.exponent ds e) := by
  have hletter : e.isDigit = false ∧ e ≠ '.' := by
    rcases Bool.or_eq_true _ _ ▸ he with h | h <;> rw [of_decide_eq_true h] <;> decide
  rcases h with h | h
  · exact h.concat (by simp [step, hletter.1, hletter.2, he])
  · exact h.concat (by simp [step, hletter.1, hletter.2, he])

theorem sound_step {m : Mode} (hm : ValidMode m) (c : Char) : Sound (step m c) := by
  cases m with
  | blank => exact sound_start c
  | dot =>
    rw [step]
    split_ifs with hdigit
    · apply sound_silent
      have hdot : step .blank '.' = some ([], .dot) := by decide
      have hstep : step .dot c = some ([], .decimal ['.', c]) := by simp [step, hdigit]
      exact ⟨rfl, by simp [after, hdot, hstep]⟩
    · exact sound_none
    · exact sound_close (m := .dot) trivial c
  | word w => exact sound_wordStep hm c
  | unicode w =>
    rw [step]
    split_ifs
    · exact sound_none
    · refine (sound_operatorStep ['&'] (by decide) (by simp) c).emit ?_
      simpa using valid_wordToken hm
  | integer ds =>
    rw [step]
    split_ifs with hdigit hdot hletter
    · exact sound_silent (hm.concat (by simp [step, hdigit]))
    · exact sound_silent (hm.concat (by simp [step, hdot]))
    · exact sound_silent ⟨.inl hm, hletter⟩
    · exact sound_close (m := .integer ds) hm c
  | decimal ds =>
    rw [step]
    split_ifs with hdigit hdot hletter
    · exact sound_silent (hm.concat (by simp [step, hdigit]))
    · exact sound_none
    · exact sound_silent ⟨.inr hm, hletter⟩
    · exact sound_close (m := .decimal ds) hm c
  | exponent ds e =>
    obtain ⟨hds, he⟩ := hm
    rw [step]
    split_ifs with hdigit hsign
    · apply sound_silent
      have hstep : step (.exponent ds e) c = some ([], .real (ds ++ [e, c])) := by
        simp [step, hdigit]
      have hreal := (hds.step_letter he).concat hstep
      simpa [ValidMode] using hreal
    · exact sound_silent ⟨hds, he, hsign⟩
    · refine (sound_wordStep (isWordChars_letter he) c).emit ?_
      simpa using valid_numberToken (.inl hds)
  | exponentSign ds e sign =>
    obtain ⟨hds, he, hsign⟩ := hm
    rw [step]
    split_ifs with hdigit
    · apply sound_silent
      have hnodigit : sign.isDigit = false := by
        rcases Bool.or_eq_true _ _ ▸ hsign with h | h <;> rw [of_decide_eq_true h] <;> decide
      have hstep : step (.exponent ds e) sign = some ([], .exponentSign ds e sign) := by
        simp [step, hnodigit, hsign]
      have hend : step (.exponentSign ds e sign) c = some ([], .real (ds ++ [e, sign, c])) := by
        simp [step, hdigit]
      have hreal := ((hds.step_letter he).concat hstep).concat hend
      simpa [ValidMode] using hreal
    · have hrun : isRun [sign] = true := by
        rcases Bool.or_eq_true _ _ ▸ hsign with h | h <;> rw [of_decide_eq_true h] <;> decide
      refine (sound_operatorStep [sign] hrun (by simp) c).emit ?_
      simpa using ⟨valid_numberToken (.inl hds), valid_wordToken (isWordChars_letter he)⟩
  | real ds =>
    rw [step]
    split_ifs with hdigit
    · exact sound_silent (hm.concat (by simp [step, hdigit]))
    · exact sound_close (m := .real ds) hm c
  | operator os => exact sound_operatorStep os hm.1 hm.2 c
  | string s =>
    rw [step]
    split_ifs
    · exact sound_silent trivial
    · exact sound_silent trivial
  | quote s =>
    rw [step]
    split_ifs
    · exact sound_silent trivial
    · exact sound_quoteStep s false c
  | quoteBlank s newline => exact sound_quoteStep s newline c
  | quoteDash s newline =>
    rw [step]
    split_ifs
    · exact sound_silent trivial
    · exact (sound_operatorStep ['-'] (by decide) (by simp) c).emit (valid_string s)
  | quoteComment s newline =>
    rw [step]
    split_ifs
    · exact sound_silent trivial
    · exact sound_silent trivial
  | lineComment =>
    rw [step]
    split_ifs
    · exact sound_silent trivial
    · exact sound_silent trivial
  | blockComment depth last =>
    rw [step]
    split_ifs
    · apply sound_silent
      cases depth <;> trivial
    · exact sound_silent trivial
    · exact sound_silent trivial

/-- Every token of a text is valid. -/
theorem valid_of_scan {text : String} {ts : List Token} (h : scan text = some ts) :
    ∀ t ∈ ts, Valid t :=
  output_forall (I := ValidMode) (fun _ c bs m' hm hstep => sound_step hm c bs m' hstep)
    (fun _ _ hm hts => valid_pending hm hts) h trivial

/-! ### Quotes -/

/-- The quotes that a token needs in a text: two around a string, and two for each inside. -/
def tokenQuotes : Token → Nat
  | .string s => 2 + 2 * s.toList.count '\''
  | _ => 0

@[simp] theorem tokenQuotes_operator (o : String) : tokenQuotes (.operator o) = 0 := rfl

@[simp] theorem tokenQuotes_wordToken (w : List Char) : tokenQuotes (wordToken w) = 0 := rfl

@[simp] theorem tokenQuotes_numberToken (ds : List Char) : tokenQuotes (numberToken ds) = 0 := by
  unfold numberToken
  split <;> rfl

/-- The quotes that the token under way has needed. -/
def modeQuotes : Mode → Nat
  | .string s => 1 + 2 * s.count '\''
  | .quote s | .quoteBlank s _ | .quoteDash s _ | .quoteComment s _ => 2 + 2 * s.count '\''
  | _ => 0

def charQuotes (c : Char) : Nat := if c = '\'' then 1 else 0

/-- A step needs at most so many quotes. -/
def Needs (n : Nat) (r : Option (List Token × Mode)) : Prop :=
  ∀ ts m, r = some (ts, m) → (ts.map tokenQuotes).sum + modeQuotes m ≤ n

theorem needs_none (n : Nat) : Needs n none := by
  intro ts m h
  cases h

theorem needs_some {n : Nat} {ts : List Token} {m : Mode}
    (h : (ts.map tokenQuotes).sum + modeQuotes m ≤ n) : Needs n (some (ts, m)) := by
  intro us m' heq
  cases heq
  exact h

theorem Needs.emit {k n : Nat} {ts : List Token} {r : Option (List Token × Mode)}
    (hr : Needs n r) (hts : (ts.map tokenQuotes).sum ≤ k) : Needs (k + n) (emit ts r) := by
  intro us m h
  obtain ⟨us', h', rfl⟩ := emit_eq_some.mp h
  have := hr us' m h'
  simp only [List.map_append, List.sum_append]
  omega

theorem Needs.mono {k n : Nat} {r : Option (List Token × Mode)} (hr : Needs k r) (h : k ≤ n) :
    Needs n r :=
  fun ts m heq => (hr ts m heq).trans h

theorem operator_of_operatorTokens {os : List Char} {ts : List Token}
    (h : operatorTokens os = some ts) : ∀ t ∈ ts, ∃ o, t = .operator o := by
  have hsingle {os' : List Char} {t : Token} (ht : operatorToken os' = some t) :
      ∃ o, t = .operator o := by
    unfold operatorToken at ht
    split at ht
    · cases ht
    split at ht <;> exact ⟨_, (Option.some.inj ht).symm⟩
  intro u hu
  cases os with
  | nil =>
    cases h
    cases hu
  | cons o os =>
    rw [operatorTokens] at h
    split at h
    · obtain ⟨t, ht, rfl⟩ := Option.map_eq_some_iff.mp h
      obtain rfl := List.mem_singleton.mp hu
      exact hsingle ht
    · obtain ⟨t, ht, rfl⟩ := Option.map_eq_some_iff.mp h
      rcases List.mem_cons.mp hu with rfl | hu
      · exact hsingle ht
      · obtain ⟨c, -, rfl⟩ := List.mem_map.mp hu
        exact ⟨_, rfl⟩

theorem quotes_operatorTokens {os : List Char} {ts : List Token}
    (h : operatorTokens os = some ts) : (ts.map tokenQuotes).sum = 0 := by
  apply List.sum_eq_zero
  intro n hn
  obtain ⟨t, ht, rfl⟩ := List.mem_map.mp hn
  obtain ⟨o, rfl⟩ := operator_of_operatorTokens h t ht
  rfl

theorem quotes_pending {m : Mode} {ts : List Token} (h : pending m = some ts) :
    (ts.map tokenQuotes).sum ≤ modeQuotes m := by
  cases m with
  | operator os => exact (quotes_operatorTokens h).le
  | string s | blockComment depth last => cases h
  | integer ds | decimal ds | real ds | exponent ds e | exponentSign ds e sign =>
    cases h
    simp
  | quote s | quoteBlank s newline | quoteDash s newline | quoteComment s newline =>
    cases h
    simp [tokenQuotes, modeQuotes]
  | dot =>
    cases h
    simp [tokenQuotes]
  | blank | word w | unicode w | lineComment =>
    cases h
    simp

theorem needs_start (c : Char) : Needs (charQuotes c) (start c) := by
  unfold start
  split_ifs with hspace hquote
  · exact needs_some (Nat.zero_le _)
  · apply needs_some
    simp [modeQuotes, charQuotes, hquote]
  all_goals first | exact needs_none _ | exact needs_some (Nat.zero_le _)

theorem needs_close (m : Mode) (c : Char) : Needs (modeQuotes m + charQuotes c) (close m c) := by
  unfold close
  cases h : pending m with
  | none => exact needs_none _
  | some ts => exact (needs_start c).emit (quotes_pending h)

theorem needs_wordStep (w : List Char) (c : Char) : Needs (charQuotes c) (wordStep w c) := by
  unfold wordStep
  split_ifs
  · exact needs_some (Nat.zero_le _)
  · exact needs_none _
  · exact needs_some (Nat.zero_le _)
  · exact (needs_close (.word w) c).mono (by simp [modeQuotes])

theorem needs_operatorStep (os : List Char) (c : Char) :
    Needs (charQuotes c) (operatorStep os c) := by
  have hcomment (m : Mode) (hm : modeQuotes m = 0) :
      Needs (charQuotes c) ((operatorTokens os.dropLast).map fun ts => (ts, m)) := by
    cases h : operatorTokens os.dropLast with
    | none => exact needs_none _
    | some ts =>
      apply needs_some
      rw [quotes_operatorTokens h, hm]
      exact Nat.zero_le _
  unfold operatorStep
  split_ifs
  · exact (needs_close (.operator os) c).mono (by simp [modeQuotes])
  · exact hcomment _ rfl
  · exact hcomment _ rfl
  · exact needs_some (Nat.zero_le _)

theorem needs_quoteStep (s : List Char) (newline : Bool) (c : Char) :
    Needs (2 + 2 * s.count '\'' + charQuotes c) (quoteStep s newline c) := by
  unfold quoteStep
  split_ifs with hspace hdash hquote
  · exact needs_some (by simp [modeQuotes])
  · exact needs_some (by simp [modeQuotes])
  · apply needs_some
    simp only [modeQuotes, List.map_nil, List.sum_nil]
    omega
  · exact needs_close (.quoteBlank s newline) c

theorem needs_step (m : Mode) (c : Char) : Needs (modeQuotes m + charQuotes c) (step m c) := by
  have hsilent {m'} (h : modeQuotes m' = 0) :
      Needs (modeQuotes m + charQuotes c) (some ([], m')) := by
    apply needs_some
    rw [h]
    exact Nat.zero_le _
  cases m with
  | blank => exact (needs_start c).mono (by simp [modeQuotes])
  | dot =>
    rw [step]
    split_ifs
    · exact hsilent rfl
    · exact needs_none _
    · exact needs_close .dot c
  | word w => exact (needs_wordStep w c).mono (by simp [modeQuotes])
  | unicode w =>
    rw [step]
    split_ifs
    · exact needs_none _
    · exact (needs_operatorStep ['&'] c).emit (by simp)
  | integer ds =>
    rw [step]
    split_ifs
    · exact hsilent rfl
    · exact hsilent rfl
    · exact hsilent rfl
    · exact needs_close (.integer ds) c
  | decimal ds =>
    rw [step]
    split_ifs
    · exact hsilent rfl
    · exact needs_none _
    · exact hsilent rfl
    · exact needs_close (.decimal ds) c
  | exponent ds e =>
    rw [step]
    split_ifs
    · exact hsilent rfl
    · exact hsilent rfl
    · exact (needs_wordStep [e] c).emit (by simp)
  | exponentSign ds e sign =>
    rw [step]
    split_ifs
    · exact hsilent rfl
    · exact (needs_operatorStep [sign] c).emit (by simp)
  | real ds =>
    rw [step]
    split_ifs
    · exact hsilent rfl
    · exact needs_close (.real ds) c
  | operator os => exact (needs_operatorStep os c).mono (by simp [modeQuotes])
  | string s =>
    rw [step]
    split_ifs with hc
    · apply needs_some
      simp [modeQuotes, charQuotes, hc]
      omega
    · apply needs_some
      simp [modeQuotes, charQuotes, hc]
  | quote s =>
    rw [step]
    split_ifs with hc
    · apply needs_some
      simp [modeQuotes, charQuotes, hc]
      omega
    · exact needs_quoteStep s false c
  | quoteBlank s newline => exact needs_quoteStep s newline c
  | quoteDash s newline =>
    rw [step]
    split_ifs
    · exact needs_some (by simp [modeQuotes])
    · exact (needs_operatorStep ['-'] c).emit (by simp [modeQuotes, tokenQuotes])
  | quoteComment s newline =>
    rw [step]
    split_ifs
    · exact needs_some (by simp [modeQuotes])
    · exact needs_some (by simp [modeQuotes])
  | lineComment =>
    rw [step]
    split_ifs
    · exact hsilent rfl
    · exact hsilent rfl
  | blockComment depth last =>
    rw [step]
    split_ifs
    · apply hsilent
      cases depth <;> rfl
    · exact hsilent rfl
    · exact hsilent rfl

theorem sum_charQuotes (cs : List Char) : (cs.map charQuotes).sum = cs.count '\'' := by
  induction cs with
  | nil => rfl
  | cons c cs ih =>
    rw [List.map_cons, List.sum_cons, ih, List.count_cons, charQuotes]
    by_cases hc : c = '\''
    · simp [hc, Nat.add_comm]
    · simp [hc]

/-- The strings of a text need no more quotes than it has. -/
theorem quotes_le_of_scan {text : String} {ts : List Token} (h : scan text = some ts) :
    (ts.map tokenQuotes).sum ≤ text.toList.count '\'' := by
  have hle := output_sum_le (p := modeQuotes) (v := charQuotes) (w := tokenQuotes)
    (fun m c bs m' hstep => needs_step m c bs m' hstep) (fun _ _ hts => quotes_pending hts) h
  simpa [sum_charQuotes, modeQuotes] using hle

end SqlOptimizer.Postgres.ScannedTokens
