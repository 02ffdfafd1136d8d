import DeepScope.Proofs.Token.Ends
import DeepScope.Token.Adjacent

/-!
How much of the text behind a token matters to it: nothing behind the next token does, with one
exception for the four characters that open a comment of HTML.
-/

namespace DeepScope

namespace Name

variable {front back : List Char}

theorem continues_append (hne : front ≠ []) : continues (front ++ back) = true → continues front = true := by
  cases front with
  | nil => exact absurd rfl hne
  | cons c front =>
    intro h
    by_cases hc : c = '\\'
    · subst hc
      cases front with
      | nil => rfl
      | cons d front => exact h
    · unfold continues at h ⊢
      split at h
      · simp_all
      · simp_all
      · cases h

theorem starts_append_of_ne {c : Char} (hdash : c ≠ '-')
    (h : starts (c :: (front ++ back)) = true) : starts (c :: front) = true := by
  by_cases hslash : c = '\\'
  · subst hslash
    cases front with
    | nil => rfl
    | cons d front => exact h
  · rw [starts_cons hdash hslash] at h ⊢
    exact h

/-- What is behind a text decides whether a name starts there only if the text
    is a lone hyphen. -/
theorem starts_append (hne : front ≠ []) (h : starts (front ++ back) = true) :
    starts front = true ∨ front = ['-'] := by
  cases front with
  | nil => exact absurd rfl hne
  | cons c front =>
    by_cases hdash : c = '-'
    · subst hdash
      cases front with
      | nil => exact .inr rfl
      | cons d front =>
        left
        rw [List.cons_append, starts_dash, Bool.or_eq_true] at h
        rw [starts_dash, Bool.or_eq_true]
        by_cases hd : d = '-'
        · exact .inl (by simp [hd])
        · exact h.imp id (starts_append_of_ne hd)
    · exact .inl (starts_append_of_ne hdash h)

/-- A unit that begins with the letter of an exponent does so in its text only
    if no exponent follows. -/
theorem writeUnit_append_cases {unit rest more : List Char} {c : Char} (hnull : '\x00' ∉ unit)
    (hne : unit ≠ []) (hc : c = 'e' ∨ c = 'E') (h : writeUnit unit ++ rest = c :: more) :
    ∃ tail, unit = c :: tail ∧ more = writeLoose tail ++ rest ∧ isExponent (c :: tail) = false := by
  have hslash : c ≠ '\\' := by
    rintro rfl
    simp at hc
  have hdash : c ≠ '-' := by
    rintro rfl
    simp at hc
  cases unit with
  | nil => exact absurd rfl hne
  | cons e tail =>
    rw [List.mem_cons, not_or] at hnull
    unfold writeUnit at h
    dsimp only at h
    split at h
    · simp [Escape.hex, Ne.symm hslash] at h
    · next hexponent =>
      unfold write at h
      split at h
      · simp [Ne.symm hslash] at h
      · split at h <;> simp [Ne.symm hdash] at h
      · next heq =>
        cases heq
        split at h
        · simp [Escape.hex, Ne.symm hslash] at h
        · rcases writeChar_cases (Ne.symm hnull.1) with ⟨-, hwrite⟩ | ⟨text, hwrite⟩
          · rw [hwrite, List.append_assoc, List.singleton_append] at h
            obtain ⟨rfl, rfl⟩ := List.cons.inj h
            exact ⟨tail, rfl, rfl, by simpa using hexponent⟩
          · rw [hwrite] at h
            simp [Ne.symm hslash] at h
      · next heq => cases heq

/-- A digit in front of a written name is the first character of the name. -/
theorem head_writeLoose_append {name rest : List Char} (hnull : '\x00' ∉ name)
    (hstop : continues rest = false) (h : (writeLoose name ++ rest).head?.any Char.isDigit = true) :
    ∃ d tail, name = d :: tail ∧ d.isDigit = true := by
  cases name with
  | nil =>
    cases rest with
    | nil => cases h
    | cons d rest =>
      rw [continues_of_isNameChar (isNameChar_of_isDigit (by simpa [writeLoose] using h))] at hstop
      cases hstop
  | cons d tail =>
    rw [List.mem_cons, not_or] at hnull
    rcases writeChar_cases (Ne.symm hnull.1) with ⟨-, hwrite⟩ | ⟨text, hwrite⟩
    · exact ⟨d, tail, rfl, by simpa [writeLoose, hwrite] using h⟩
    · simp [writeLoose, hwrite] at h

end Name

namespace Numeral

variable {front back : List Char}

theorem startsUnsigned_of_isDigit {d : Char} (h : d.isDigit = true) (rest : List Char) :
    startsUnsigned (d :: rest) = true := by
  have hstart := starts_of_isDigit h rest
  rwa [starts, readSign, if_neg (by simp [isSign_of_isDigit h])] at hstart

theorem startsUnsigned_append (hne : front ≠ []) (h : startsUnsigned (front ++ back) = true) :
    startsUnsigned front = true ∨ front = ['.'] := by
  cases front with
  | nil => exact absurd rfl hne
  | cons c front =>
    by_cases hpoint : c = '.'
    · subst hpoint
      cases front with
      | nil => exact .inr rfl
      | cons d front => exact .inl h
    · left
      by_cases hdigit : c.isDigit = true
      · exact startsUnsigned_of_isDigit hdigit front
      · rw [List.cons_append, startsUnsigned_cons (by simpa using hdigit) hpoint] at h
        cases h

theorem readExponent_fst_eq_nil_iff {e : Char} {rest : List Char} :
    (readExponent (e :: rest)).1 = [] ↔
      (e = 'e' ∨ e = 'E' → (readSign rest).2.head?.any Char.isDigit = false) := by
  have hdigits : (readDigits (readSign rest).2).1 = [] ↔
      (readSign rest).2.head?.any Char.isDigit = false := by
    unfold readDigits
    cases (readSign rest).2 with
    | nil => simp
    | cons c more =>
      by_cases hc : c.isDigit = true <;> simp [hc]
  unfold readExponent
  dsimp only
  split
  · next h =>
    simp only [Bool.and_eq_true, Bool.or_eq_true, decide_eq_true_eq, Bool.not_eq_true',
      List.isEmpty_eq_false_iff] at h
    refine ⟨fun hnil => absurd hnil (List.cons_ne_nil _ _), fun hhead => ?_⟩
    exact absurd (hdigits.2 (hhead h.1)) h.2
  · next h =>
    simp only [Bool.and_eq_true, Bool.or_eq_true, decide_eq_true_eq, Bool.not_eq_true',
      List.isEmpty_eq_false_iff, not_and, Decidable.not_not] at h
    exact ⟨fun _ he => hdigits.1 (h he), fun _ => rfl⟩

theorem readExponent_of_not_name {text : List Char} (h : Name.starts text = false) :
    (readExponent text).1 = [] := by
  cases text with
  | nil => rfl
  | cons c rest =>
    rw [readExponent_fst_eq_nil_iff]
    intro hletter
    rw [Name.starts_of_isNameStart (by rcases hletter with rfl | rfl <;> decide)] at h
    cases h

theorem startsUnsigned_of_not_starts {text : List Char} (h : starts text = false) :
    startsUnsigned text = false := by
  cases text with
  | nil => rfl
  | cons c rest =>
    unfold starts readSign at h
    dsimp only at h
    split at h
    · next hsign =>
      simp only [isSign, Bool.or_eq_true, decide_eq_true_eq] at hsign
      rcases hsign with rfl | rfl <;> exact startsUnsigned_cons (by decide) (by decide) rest
    · exact h

theorem readFraction_fst_eq_nil_iff {text : List Char}
    (h : text.head?.any Char.isDigit = false) :
    (readFraction text).1 = [] ↔ startsUnsigned text = false := by
  unfold readFraction
  split
  · next d rest =>
    by_cases hd : d.isDigit = true <;> simp [startsUnsigned, hd]
  · next hno =>
    refine ⟨fun _ => ?_, fun _ => rfl⟩
    unfold startsUnsigned
    split
    · exact absurd rfl (hno _ _)
    · simpa using h
    · rfl

/-- A number ends where neither a name nor another number begins. -/
theorem ends_of_not_starts {value : Numeral} {rest : List Char} (hname : Name.starts rest = false)
    (hnumber : startsUnsigned rest = false) : value.Ends rest := by
  have hdigit : rest.head?.any Char.isDigit = false := by
    cases rest with
    | nil => rfl
    | cons d rest =>
      rw [Bool.eq_false_iff]
      intro hd
      rw [startsUnsigned_of_isDigit (by simpa using hd)] at hnumber
      cases hnumber
  exact ⟨hdigit, fun _ => readExponent_of_not_name hname,
    fun _ _ => (readFraction_fst_eq_nil_iff hdigit).2 hnumber⟩

theorem eq_plus_of_digit_behind_sign {rest : List Char} (hstop : Name.continues rest = false)
    (h : (readSign rest).2.head?.any Char.isDigit = true) : ∃ more, rest = '+' :: more := by
  cases rest with
  | nil => cases h
  | cons c more =>
    rw [readSign] at h
    split at h
    · next hsign =>
      simp only [isSign, Bool.or_eq_true, decide_eq_true_eq] at hsign
      rcases hsign with rfl | rfl
      · exact ⟨more, rfl⟩
      · cases hstop
    · rw [Name.continues_of_isNameChar (isNameChar_of_isDigit (by simpa using h))] at hstop
      cases hstop

/-- Behind the letter of an exponent a written unit has neither digits nor a sign
    with digits, unless they stand behind the unit. -/
theorem not_digit_behind_letter {e : Char} {tail rest : List Char} (he : e = 'e' ∨ e = 'E')
    (hnull : '\x00' ∉ tail) (hexp : Name.isExponent (e :: tail) = false) (hne : tail ≠ [])
    (hstop : Name.continues rest = false) :
    (readSign (Name.writeLoose tail ++ rest)).2.head?.any Char.isDigit = false := by
  rw [Bool.eq_false_iff]
  intro hhead
  cases tail with
  | nil => exact hne rfl
  | cons d tail =>
    rw [List.mem_cons, not_or] at hnull
    rw [Name.writeLoose, List.flatMap_cons] at hhead
    rcases Name.writeChar_cases (Ne.symm hnull.1) with ⟨hname, hwrite⟩ | ⟨text, hwrite⟩
    · rw [hwrite, List.append_assoc, List.singleton_append, readSign] at hhead
      split at hhead
      · next hsign =>
        obtain ⟨x, rest', rfl, hx⟩ := Name.head_writeLoose_append hnull.2 hstop hhead
        simp only [isSign, Bool.or_eq_true, decide_eq_true_eq] at hsign
        simp only [Name.isExponent, hx, Bool.and_eq_false_iff, Bool.or_eq_false_iff,
          decide_eq_false_iff_not, Bool.and_true] at hexp
        rcases hexp with hletter | hsecond
        · exact he.elim hletter.1 hletter.2
        · exact hsign.elim hsecond.2.1 hsecond.2.2
      · have hd : d.isDigit = true := by simpa using hhead
        have hletter : ¬e = 'e' ∧ ¬e = 'E' := by
          cases tail <;> simpa [Name.isExponent, hd] using hexp
        exact he.elim hletter.1 hletter.2
    · rw [hwrite] at hhead
      simp [readSign, isSign] at hhead

/-- A unit ends its number, unless a sign and a digit behind its only letter
    make it an exponent. -/
theorem ends_writeUnit_append {value : Numeral} {unit : String} {rest : List Char}
    (hunit : IsName unit) (hstop : Name.continues rest = false)
    (hexponent : ¬value.HasExponent → unit = "e" ∨ unit = "E" →
      ∀ d more, rest = '+' :: d :: more → d.isDigit = false) :
    value.Ends (Name.writeUnit unit.toList ++ rest) := by
  have hstart := Name.starts_writeUnit_append hunit.1 hunit.2 rest
  obtain ⟨c, more, heq, -, -, hdigit, hc⟩ := Name.head_of_starts hstart
  simp only [List.mem_cons, not_or] at hc
  rw [heq]
  refine ⟨by simpa using hdigit, fun hno => ?_, fun _ _ => ?_⟩
  · rw [readExponent_fst_eq_nil_iff]
    intro he
    obtain ⟨tail, hname, rfl, hexp⟩ := Name.writeUnit_append_cases hunit.2 hunit.1 he heq
    have hnull := hunit.2
    rw [hname, List.mem_cons, not_or] at hnull
    by_cases htail : tail = []
    · subst htail
      have hletter : unit = "e" ∨ unit = "E" := by
        rcases he with rfl | rfl
        · exact .inl (String.toList_inj.1 hname)
        · exact .inr (String.toList_inj.1 hname)
      rw [Name.writeLoose, List.flatMap_nil, List.nil_append, Bool.eq_false_iff]
      intro hhead
      obtain ⟨more, rfl⟩ := eq_plus_of_digit_behind_sign hstop hhead
      cases more with
      | nil => cases hhead
      | cons d more =>
        have hd : d.isDigit = true := by simpa [readSign, isSign] using hhead
        rw [hexponent hno hletter d more rfl] at hd
        cases hd
    · exact not_digit_behind_letter he hnull.2 hexp htail hstop
  · rw [readFraction]
    intro d tail hpoint
    exact absurd (List.cons.inj hpoint).1 hc.1

end Numeral

theorem Comment.sizeWithBlanks_eq_zero_iff {text : List Char} :
    sizeWithBlanks text = .ok 0 ↔ text.head?.any isBlank = false ∧ ¬['/', '*'] <+: text := by
  unfold sizeWithBlanks
  split
  · next rest =>
    refine ⟨fun h => ?_, fun h => absurd ⟨rest, rfl⟩ h.2⟩
    split at h
    · cases h
    · obtain ⟨n, -, hpure⟩ := exists_of_bind_eq_ok h
      have hlen := Except.ok.inj hpure
      omega
  · next c rest hno =>
    by_cases hblank : DeepScope.isBlank c = true
    · rw [if_pos hblank]
      refine ⟨fun h => ?_, fun h => ?_⟩
      · obtain ⟨n, -, hpure⟩ := exists_of_bind_eq_ok h
        have hlen := Except.ok.inj hpure
        omega
      · simp [hblank] at h
    · rw [if_neg hblank]
      refine ⟨fun _ => ⟨by simpa using hblank, fun hbegins => ?_⟩, fun _ => rfl⟩
      obtain ⟨more, hmore⟩ := hbegins
      obtain ⟨rfl, rfl⟩ := List.cons.inj hmore
      exact hno _ rfl rfl
  · simp

namespace Token

variable {token : Token}

/-- A token that begins with a name is written with it up front. -/
theorem starts_chars (h : token.Legible) (hname : token.beginsName = true) :
    Name.starts token.chars = true := by
  cases token with
  | ident name =>
    have hstart := Name.starts_write_append h.1 h.2 []
    rwa [List.append_nil] at hstart
  | function name => exact Name.starts_write_append h.1 h.2 ['(']
  | url address => rfl
  | _ => cases hname

/-- A token that begins with a number is written with it up front. -/
theorem numeral_starts_chars (h : token.Legible) (hnumber : token.beginsNumber = true) :
    Numeral.starts token.chars = true := by
  cases token with
  | number value =>
    have hstart := h.starts_append []
    rwa [List.append_nil] at hstart
  | percentage value => exact h.starts_append ['%']
  | dimension value unit => exact h.1.starts_append _
  | _ => cases hnumber

theorem write_ne_nil {name : String} (h : IsName name) : Name.write name.toList ≠ [] := by
  intro hnil
  have hstart := Name.starts_write_append h.1 h.2 []
  rw [hnil] at hstart
  cases hstart

theorem text_ne_nil {value : Numeral} (h : value.Proper) : value.text.toList ≠ [] := by
  intro hnil
  have hstart := h.starts_append []
  rw [hnil] at hstart
  cases hstart

/-- The text of a number begins with a character of numbers. -/
theorem text_append_ne_cons {value : Numeral} (h : value.Proper) {c : Char} {rest back : List Char}
    (hc : ¬(c.isDigit = true ∨ Numeral.isSign c = true ∨ c = '.' ∨ c = 'e' ∨ c = 'E')) :
    value.text.toList ++ back ≠ c :: rest := by
  intro heq
  cases htext : value.text.toList with
  | nil => exact text_ne_nil h htext
  | cons d digits =>
    rw [htext, List.cons_append] at heq
    obtain ⟨rfl, -⟩ := List.cons.inj heq
    exact hc (h.cases_of_mem (by simp [htext]))

theorem chars_ne_nil (h : token.Legible) (hne : token ≠ .eof) : token.chars ≠ [] := by
  cases token with
  | ident name => exact write_ne_nil h
  | function name => exact List.append_ne_nil_of_right_ne_nil _ (List.cons_ne_nil _ _)
  | hash name kind => cases kind <;> exact List.cons_ne_nil _ _
  | url address => exact List.append_ne_nil_of_right_ne_nil _ (List.cons_ne_nil _ _)
  | number value => exact text_ne_nil h
  | percentage value => exact List.append_ne_nil_of_right_ne_nil _ (List.cons_ne_nil _ _)
  | dimension value unit => exact List.append_ne_nil_of_left_ne_nil (text_ne_nil h.1) _
  | eof => exact absurd rfl hne
  | _ => exact List.cons_ne_nil _ _

/-- Some characters begin no token but the one that they are. -/
theorem eq_of_head {c : Char} {rest : List Char} (h : token.Legible)
    (hc : c ∈ ['/', '!', '*', '%', '>', '(']) (heq : token.chars = c :: rest) :
    token = .delim c ∨ token = .openParen := by
  have hname : token.beginsName = false := by
    rw [Bool.eq_false_iff]
    intro hname
    obtain ⟨d, more, hchars, -, -, -, hd⟩ := Name.head_of_starts (starts_chars h hname)
    obtain rfl := (List.cons.inj (heq.symm.trans hchars)).1
    simp only [List.mem_cons, List.not_mem_nil, or_false] at hc hd
    rcases hc with rfl | rfl | rfl | rfl | rfl | rfl <;> simp at hd
  have hnumber : token.beginsNumber = false := by
    rw [Bool.eq_false_iff]
    intro hnumber
    obtain ⟨d, more, hchars, -, -, hd⟩ := Numeral.head_of_starts (numeral_starts_chars h hnumber)
    obtain rfl := (List.cons.inj (heq.symm.trans hchars)).1
    exact hd hc
  cases token with
  | ident _ | function _ | url _ => cases hname
  | number _ | percentage _ => cases hnumber
  | dimension _ _ => cases hnumber
  | delim d =>
    obtain rfl := (List.cons.inj heq).1
    exact .inl rfl
  | openParen => exact .inr rfl
  | eof => cases heq
  | hash name kind =>
    cases kind <;>
      · obtain rfl := (List.cons.inj heq).1
        simp at hc
  | commentOpen =>
    obtain rfl : '<' = c := (List.cons.inj heq).1
    simp at hc
  | commentClose =>
    obtain rfl : '-' = c := (List.cons.inj heq).1
    simp at hc
  | _ =>
    obtain rfl := (List.cons.inj heq).1
    simp at hc

theorem eq_delim_of_head {c : Char} {rest : List Char} (h : token.Legible)
    (hc : c ∈ ['/', '!', '*', '%', '>']) (heq : token.chars = c :: rest) : token = .delim c := by
  refine (eq_of_head h (List.mem_append_left ['('] hc) heq).resolve_right ?_
  rintro rfl
  obtain rfl : '(' = c := (List.cons.inj heq).1
  simp at hc

theorem eq_openParen_of_head {rest : List Char} (h : token.Legible)
    (heq : token.chars = '(' :: rest) : token = .openParen := by
  refine (eq_of_head h (by simp) heq).resolve_left ?_
  rintro rfl
  exact absurd h.2.2.2.2.2 (by decide)

/-- The characters that one token alone is written with. -/
theorem eq_delim_of_chars {c : Char} (h : token.Legible) (hc : c ∈ ['.', '-', '+'])
    (heq : token.chars = [c]) : token = .delim c := by
  have hstarts : Name.starts [c] = false ∧ Numeral.starts [c] = false := by
    simp only [List.mem_cons, List.not_mem_nil, or_false] at hc
    rcases hc with rfl | rfl | rfl <;> exact ⟨rfl, rfl⟩
  have hname : token.beginsName = false := by
    rw [Bool.eq_false_iff]
    intro hname
    have hstart := starts_chars h hname
    rw [heq, hstarts.1] at hstart
    cases hstart
  have hnumber : token.beginsNumber = false := by
    rw [Bool.eq_false_iff]
    intro hnumber
    have hstart := numeral_starts_chars h hnumber
    rw [heq, hstarts.2] at hstart
    cases hstart
  cases token with
  | ident _ | function _ | url _ => cases hname
  | number _ | percentage _ => cases hnumber
  | dimension _ _ => cases hnumber
  | delim d =>
    obtain rfl := (List.cons.inj heq).1
    rfl
  | eof | commentOpen | commentClose => cases heq
  | hash name kind =>
    cases kind <;>
      · obtain rfl := (List.cons.inj heq).1
        simp at hc
  | _ =>
    obtain rfl := (List.cons.inj heq).1
    simp at hc

/-- Only white space is written with a blank in front. -/
theorem isBlank_head_chars (h : token.Legible) (hne : token ≠ .whitespace) :
    token.chars.head?.any isBlank = false := by
  by_cases hname : token.beginsName = true
  · obtain ⟨c, more, heq, hblank, -⟩ := Name.head_of_starts (starts_chars h hname)
    simpa [heq] using hblank
  by_cases hnumber : token.beginsNumber = true
  · obtain ⟨c, more, heq, hblank, -⟩ := Numeral.head_of_starts (numeral_starts_chars h hnumber)
    simpa [heq] using hblank
  cases token with
  | ident _ | function _ | url _ => exact absurd rfl hname
  | number _ | percentage _ => exact absurd rfl hnumber
  | dimension _ _ => exact absurd rfl hnumber
  | hash name kind => cases kind <;> rfl
  | delim c => exact h.1
  | whitespace => exact absurd rfl hne
  | _ => rfl

theorem ends_whitespace (h : token.Legible) (hne : token ≠ .whitespace) :
    whitespace.Ends token.chars := by
  rw [ends_whitespace_iff, Comment.sizeWithBlanks_eq_zero_iff]
  refine ⟨isBlank_head_chars h hne, fun ⟨tail, htail⟩ => ?_⟩
  obtain rfl := eq_delim_of_head h (by simp) htail.symm
  cases htail

/-- Whether a token is a function that reads an address: one must follow it,
    between quotes. -/
def opensUrl : Token → Bool
  | function name => asciiLower name = "url"
  | _ => false

/-- A delimiter ends where it begins no longer token with what stands behind it. -/
theorem ends_delim {c : Char} {rest : List Char} (h : IsDelim c)
    (hname : c = '#' ∨ c = '-' → Name.continues rest = false)
    (hnumber : c = '-' ∨ c = '+' ∨ c = '.' → Numeral.startsUnsigned rest = false)
    (hat : c = '@' → Name.starts rest = false) (hslash : c = '/' → rest.head? ≠ some '*')
    (hopen : c = '<' → ¬['!', '-', '-'] <+: rest) : (delim c).Ends rest := by
  obtain ⟨-, -, hstart, hdigit, -, hno⟩ := h
  simp only [List.mem_cons, List.not_mem_nil, or_false, not_or] at hno
  refine ⟨?_, ?_, fun hc => hname (.inl hc), hat, hslash, hopen⟩
  · unfold Numeral.starts Numeral.readSign
    dsimp only
    split
    · next hsign =>
      simp only [Numeral.isSign, Bool.or_eq_true, decide_eq_true_eq] at hsign
      exact hnumber (hsign.elim (fun hc => .inr (.inl hc)) .inl)
    · by_cases hpoint : c = '.'
      · have hrest := hnumber (.inr (.inr hpoint))
        rw [hpoint]
        cases rest with
        | nil => rfl
        | cons d rest =>
          show d.isDigit = false
          rw [Bool.eq_false_iff]
          intro hd
          exact Bool.false_ne_true (hrest.symm.trans (Numeral.startsUnsigned_of_isDigit hd rest))
      · exact Numeral.startsUnsigned_cons hdigit hpoint _
  · by_cases hdash : c = '-'
    · have hstop := hname (.inr hdash)
      rw [hdash, Name.starts_dash, Bool.or_eq_false_iff, decide_eq_false_iff_not]
      constructor
      · intro hhead
        obtain ⟨more, rfl⟩ := List.head?_eq_some_iff.1 hhead
        cases hstop
      · rw [Bool.eq_false_iff] at hstop ⊢
        exact fun hstart => hstop (continues_of_starts hstart)
    · rw [Name.starts_cons hdash hno.1]
      exact hstart

theorem ends_nil (h : token.Legible) (hurl : token.opensUrl = false) : token.Ends [] := by
  cases token with
  | ident name => exact ⟨rfl, by simp, by simp⟩
  | function name => exact fun hname => by simp [opensUrl, hname] at hurl
  | delim c =>
    exact ends_delim h (fun _ => rfl) (fun _ => rfl) (fun _ => rfl) (fun _ => by simp)
      fun _ => by simp
  | number value => exact ⟨⟨rfl, fun _ => rfl, fun _ _ => rfl⟩, rfl, by simp⟩
  | dimension value unit =>
    exact ⟨Numeral.ends_writeUnit_append h.2 rfl (by simp), rfl⟩
  | whitespace => rw [ends_whitespace_iff, Comment.sizeWithBlanks]
  | atKeyword name | hash name kind => rfl
  | eof => rfl
  | _ => trivial

section

variable {more : List Char}

theorem starts_append_eq_false (hlegible : token.Legible) (hne : token ≠ .eof)
    (hends : token.Ends more) (h : Name.starts token.chars = false) :
    Name.starts (token.chars ++ more) = false := by
  rw [Bool.eq_false_iff]
  intro hstart
  rcases Name.starts_append (chars_ne_nil hlegible hne) hstart with hchars | hchars
  · rw [h] at hchars
    cases hchars
  · obtain rfl := eq_delim_of_chars hlegible (by simp) hchars
    have hno : Name.starts ('-' :: more) = false := hends.2.1
    exact Bool.false_ne_true (hno.symm.trans hstart)

theorem startsUnsigned_append_eq_false (hlegible : token.Legible) (hne : token ≠ .eof)
    (hends : token.Ends more) (h : Numeral.startsUnsigned token.chars = false) :
    Numeral.startsUnsigned (token.chars ++ more) = false := by
  rw [Bool.eq_false_iff]
  intro hstart
  rcases Numeral.startsUnsigned_append (chars_ne_nil hlegible hne) hstart with hchars | hchars
  · rw [h] at hchars
    cases hchars
  · obtain rfl := eq_delim_of_chars hlegible (by simp) hchars
    have hno : Numeral.startsUnsigned ('.' :: more) = false := hends.1
    exact Bool.false_ne_true (hno.symm.trans hstart)

theorem head?_chars_append (hlegible : token.Legible) (hne : token ≠ .eof) (more : List Char) :
    (token.chars ++ more).head? = token.chars.head? := by
  rw [List.head?_append, Option.or_of_isSome (List.isSome_head?.2 (chars_ne_nil hlegible hne))]

theorem continues_append_eq_false (hlegible : token.Legible) (hne : token ≠ .eof)
    (h : Name.continues token.chars = false) (more : List Char) :
    Name.continues (token.chars ++ more) = false := by
  rw [Bool.eq_false_iff] at h ⊢
  exact fun hcont => h (Name.continues_append (chars_ne_nil hlegible hne) hcont)

theorem ends_delim_append {c : Char} (hlegible : token.Legible) (hne : token ≠ .eof)
    (hopen : ¬(c = '<' ∧ token = .delim '!')) (h : (delim c).Ends token.chars)
    (hends : token.Ends more) : (delim c).Ends (token.chars ++ more) := by
  have hchars := chars_ne_nil hlegible hne
  have hhead := head?_chars_append hlegible hne more
  obtain ⟨hnumber, hname, hhash, hat, hslash, hmark⟩ := h
  refine ⟨?_, ?_, fun hc => continues_append_eq_false hlegible hne (hhash hc) more,
    fun hc => starts_append_eq_false hlegible hne hends (hat hc), hhead ▸ hslash, ?_⟩
  · unfold Numeral.starts Numeral.readSign at hnumber ⊢
    dsimp only at hnumber ⊢
    split
    · next hsign =>
      rw [if_pos hsign] at hnumber
      exact startsUnsigned_append_eq_false hlegible hne hends hnumber
    · next hsign =>
      rw [if_neg hsign] at hnumber
      rw [Bool.eq_false_iff] at hnumber ⊢
      intro hstart
      rcases Numeral.startsUnsigned_append (List.cons_ne_nil c token.chars) hstart with
        hfront | hfront
      · exact hnumber hfront
      · exact hchars (List.cons.inj hfront).2
  · rw [Bool.eq_false_iff] at hname ⊢
    intro hstart
    rcases Name.starts_append (List.cons_ne_nil c token.chars) hstart with hfront | hfront
    · exact hname hfront
    · exact hchars (List.cons.inj hfront).2
  · rintro rfl hbegins
    cases heq : token.chars with
    | nil => exact hchars heq
    | cons d tail =>
      rw [heq, List.cons_append, List.cons_prefix_cons] at hbegins
      rw [← hbegins.1] at heq
      exact hopen ⟨rfl, eq_delim_of_head hlegible (by simp) heq⟩

theorem ends_number_append {value : Numeral} (hlegible : token.Legible) (hne : token ≠ .eof)
    (h : (number value).Ends token.chars) (hends : token.Ends more) :
    (number value).Ends (token.chars ++ more) := by
  have hhead := head?_chars_append hlegible hne more
  obtain ⟨⟨hdigit, -, hfraction⟩, hname, hpercent⟩ := h
  have hstart := starts_append_eq_false hlegible hne hends hname
  refine ⟨⟨hhead ▸ hdigit, fun _ => Numeral.readExponent_of_not_name hstart,
    fun hno hpoint => ?_⟩, hstart, hhead ▸ hpercent⟩
  rw [Numeral.readFraction_fst_eq_nil_iff (hhead ▸ hdigit)]
  refine startsUnsigned_append_eq_false hlegible hne hends ?_
  exact (Numeral.readFraction_fst_eq_nil_iff hdigit).1 (hfraction hno hpoint)

/-- A unit of one letter is no exponent where a sign follows without a digit. -/
theorem ends_dimension_append {value : Numeral} {unit : String} (hunit : IsName unit)
    (hlegible : token.Legible) (hne : token ≠ .eof) (h : (dimension value unit).Ends token.chars)
    (hends : token.Ends more) : (dimension value unit).Ends (token.chars ++ more) := by
  obtain ⟨hvalue, hstop⟩ := h
  have hcontinues := continues_append_eq_false hlegible hne hstop more
  refine ⟨Numeral.ends_writeUnit_append hunit hcontinues ?_, hcontinues⟩
  intro hno hletters d tail heq
  have hexponent := hvalue.2.1 hno
  obtain ⟨e, hletter, hwrite⟩ : ∃ e, (e = 'e' ∨ e = 'E') ∧ Name.writeUnit unit.toList = [e] := by
    rcases hletters with rfl | rfl
    · exact ⟨'e', .inl rfl, by decide⟩
    · exact ⟨'E', .inr rfl, by decide⟩
  cases hchars : token.chars with
  | nil => exact absurd hchars (chars_ne_nil hlegible hne)
  | cons c front =>
    rw [hchars, List.cons_append] at heq
    obtain ⟨rfl, hrest⟩ := List.cons.inj heq
    cases front with
    | nil =>
      obtain rfl := eq_delim_of_chars hlegible (by simp) hchars
      rw [List.nil_append] at hrest
      rw [Bool.eq_false_iff]
      intro hd
      have hno : Numeral.startsUnsigned more = false := hends.1
      rw [hrest, Numeral.startsUnsigned_of_isDigit hd] at hno
      cases hno
    | cons x front =>
      rw [List.cons_append] at hrest
      obtain ⟨rfl, -⟩ := List.cons.inj hrest
      rw [hchars, hwrite, List.singleton_append, Numeral.readExponent_fst_eq_nil_iff] at hexponent
      simpa [Numeral.readSign, Numeral.isSign] using hexponent hletter

theorem ends_whitespace_append (hlegible : token.Legible) (hne : token ≠ .eof)
    (h : whitespace.Ends token.chars) (hends : token.Ends more) :
    whitespace.Ends (token.chars ++ more) := by
  rw [ends_whitespace_iff, Comment.sizeWithBlanks_eq_zero_iff] at h ⊢
  refine ⟨head?_chars_append hlegible hne more ▸ h.1, fun hbegins => ?_⟩
  cases heq : token.chars with
  | nil => exact chars_ne_nil hlegible hne heq
  | cons c front =>
    rw [heq, List.cons_append, List.cons_prefix_cons] at hbegins
    obtain ⟨rfl, rest, hrest⟩ := hbegins
    obtain rfl := eq_delim_of_head hlegible (by simp) heq
    obtain rfl : [] = front := (List.cons.inj heq).2
    obtain ⟨-, -, -, -, hslash, -⟩ := hends
    refine hslash rfl ?_
    rw [List.nil_append] at hrest
    rw [← hrest]
    rfl

end

/-- What follows a token behind the next one does not matter to it. -/
theorem Ends.append {prev next : Token} {more : List Char} (hprev : prev.Legible)
    (hlegible : next.Legible) (hne : next ≠ .eof)
    (hurl : prev.opensUrl = false)
    (hopen : ¬(prev = .delim '<' ∧ next = .delim '!')) (h : prev.Ends next.chars)
    (hnext : next.Ends more) : prev.Ends (next.chars ++ more) := by
  have hhead := head?_chars_append hlegible hne more
  cases prev with
  | ident name =>
    exact ⟨continues_append_eq_false hlegible hne h.1 more, hhead ▸ h.2.1, hhead ▸ h.2.2⟩
  | function name => exact fun hname => by simp [opensUrl, hname] at hurl
  | atKeyword name | hash name kind => exact continues_append_eq_false hlegible hne h more
  | delim c => exact ends_delim_append hlegible hne (by simpa using hopen) h hnext
  | number value => exact ends_number_append hlegible hne h hnext
  | dimension value unit => exact ends_dimension_append hprev.2 hlegible hne h hnext
  | whitespace => exact ends_whitespace_append hlegible hne h hnext
  | eof => exact absurd h (chars_ne_nil hlegible hne)
  | _ => trivial

end Token

end DeepScope
