import DeepScope.Proofs.Token.Settled

namespace DeepScope

/-- A character that becomes a part of no token in front of it, strings, addresses
    and white space apart. -/
def isSeparator (c : Char) : Bool :=
  !isNameChar c && c ∉ ['\\', '.', '+', '%', '(', '*', '>']

/-- Text that begins with such a character, but not like the mark of an old
    comment behind its first character. -/
def Separated (text : List Char) : Prop :=
  text.head?.any isSeparator = true ∧ ¬['!', '-'] <+: text

variable {c : Char} {rest : List Char}

theorem separated_cons (hc : isSeparator c = true) (hmark : c ≠ '!') : Separated (c :: rest) :=
  ⟨hc, fun hbegins => hmark (List.cons_prefix_cons.1 hbegins).1.symm⟩

theorem Name.continues_of_not_isNameChar (rest : List Char) (hname : isNameChar c = false)
    (hslash : c ≠ '\\') : continues (c :: rest) = false := by
  rw [continues_cons, if_neg hslash]
  exact hname

theorem Name.starts_of_not_isNameChar (rest : List Char) (hname : isNameChar c = false)
    (hslash : c ≠ '\\') : starts (c :: rest) = false := by
  rw [Bool.eq_false_iff]
  intro hstart
  have hcont := Token.continues_of_starts hstart
  rw [continues_of_not_isNameChar rest hname hslash] at hcont
  cases hcont

theorem not_isDigit_of_not_isNameChar (h : isNameChar c = false) : c.isDigit = false := by
  rw [isNameChar, Bool.or_eq_false_iff, Bool.or_eq_false_iff] at h
  exact h.1.2

namespace Token

theorem ident_ends_cons {name : String} (hname : isNameChar c = false) (hslash : c ≠ '\\')
    (hparen : c ≠ '(') (hclose : name = "--" → c ≠ '>') : (ident name).Ends (c :: rest) :=
  ⟨Name.continues_of_not_isNameChar rest hname hslash, by simpa using hparen, by simpa using hclose⟩

theorem ends_of_separated {token : Token} {text : List Char} (hlegible : token.Legible)
    (hblank : token ≠ .whitespace) (hend : token ≠ .eof) (hurl : token.opensUrl = false)
    (h : Separated text) : token.Ends text := by
  obtain ⟨hc, hmark⟩ := h
  obtain ⟨c, hhead, hseparator⟩ := (Option.any_eq_true _ _).1 hc
  obtain ⟨rest, rfl⟩ := List.head?_eq_some_iff.1 hhead
  simp only [isSeparator, Bool.and_eq_true, Bool.not_eq_true', decide_eq_true_eq, List.mem_cons,
    List.not_mem_nil, or_false, not_or] at hseparator
  obtain ⟨hname, hslash, hpoint, hplus, hpercent, hparen, hstar, hclose⟩ := hseparator
  have hcontinues := Name.continues_of_not_isNameChar rest hname hslash
  have hstarts := Name.starts_of_not_isNameChar rest hname hslash
  have hdigit := not_isDigit_of_not_isNameChar hname
  have hunsigned : Numeral.startsUnsigned (c :: rest) = false := by
    rw [Numeral.startsUnsigned_cons_eq, if_neg hpoint]
    exact hdigit
  cases token with
  | ident name => exact ident_ends_cons hname hslash hparen fun _ => hclose
  | function name => exact fun hisUrl => by simp [opensUrl, hisUrl] at hurl
  | delim d =>
    refine ends_delim hlegible (fun _ => hcontinues) (fun _ => hunsigned) (fun _ => hstarts)
      (fun _ => by simpa using hstar) ?_
    rintro - hbegins
    exact hmark ((List.prefix_append ['!', '-'] ['-']).trans hbegins)
  | number value =>
    exact ⟨Numeral.ends_of_not_starts hstarts hunsigned, hstarts, by simpa using hpercent⟩
  | dimension value unit =>
    refine ⟨Numeral.ends_writeUnit_append hlegible.2 hcontinues fun _ _ d more hrest => ?_,
      hcontinues⟩
    exact absurd (List.cons.inj hrest).1 hplus
  | atKeyword name | hash name kind => exact hcontinues
  | whitespace => exact absurd rfl hblank
  | eof => exact absurd rfl hend
  | _ => trivial

end Token

end DeepScope
