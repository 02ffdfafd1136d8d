import DeepScope.Proofs.Token.Legible
import DeepScope.Token.Writer

namespace DeepScope

theorem not_isDigit_of_isNameStart {c : Char} (h : isNameStart c = true) : c.isDigit = false := by
  rw [Bool.eq_false_iff]
  intro hdigit
  simp only [isNameStart, isAlpha_iff, Char.isDigit, Bool.or_eq_true,
    Bool.and_eq_true, decide_eq_true_eq, ge_iff_le, UInt32.le_iff_toNat_le, Char.reduceVal,
    UInt32.reduceToNat] at h hdigit
  unfold Char.toNat at h
  rcases h with (h | h) | rfl
  · omega
  · omega
  · simp at hdigit

/-- The first character of a name is of none of the other classes. -/
theorem Name.head_of_starts {text : List Char} (h : starts text = true) :
    ∃ c rest, text = c :: rest ∧ isBlank c = false ∧ QuotedString.isQuote c = false ∧
      c.isDigit = false ∧ c ∉ ['.', '/', '+', '!', '*', '%', '>', '('] := by
  obtain ⟨c, rest, rfl, hc⟩ := exists_cons_of_starts h
  refine ⟨c, rest, rfl, ?_⟩
  rcases hc with hc | rfl | rfl
  · have hno : ∀ d : Char, isNameStart d = false → c ≠ d := by
      rintro d hd rfl
      rw [hc] at hd
      cases hd
    refine ⟨?_, ?_, not_isDigit_of_isNameStart hc, ?_⟩
    · simp [isBlank, hno '\n' (by decide), hno '\t' (by decide), hno ' ' (by decide)]
    · simp [QuotedString.isQuote, hno '"' (by decide), hno '\'' (by decide)]
    · simp only [List.mem_cons, List.not_mem_nil, or_false, not_or]
      exact ⟨hno '.' (by decide), hno '/' (by decide), hno '+' (by decide), hno '!' (by decide),
        hno '*' (by decide), hno '%' (by decide), hno '>' (by decide), hno '(' (by decide)⟩
  · decide
  · decide

namespace Numeral

theorem startsUnsigned_cons {c : Char} (hdigit : c.isDigit = false) (hpoint : c ≠ '.')
    (rest : List Char) : startsUnsigned (c :: rest) = false := by
  unfold startsUnsigned
  split
  · next heq => exact absurd (List.cons.inj heq).1 hpoint
  · next heq =>
    rw [← (List.cons.inj heq).1]
    exact hdigit
  · rfl

theorem startsUnsigned_of_name {text : List Char} (h : Name.starts text = true) :
    startsUnsigned text = false := by
  obtain ⟨c, rest, rfl, -, -, hdigit, hc⟩ := Name.head_of_starts h
  simp only [List.mem_cons, not_or] at hc
  exact startsUnsigned_cons hdigit hc.1 rest

/-- What starts a name starts no number. -/
theorem starts_of_name {text : List Char} (h : Name.starts text = true) :
    starts text = false := by
  obtain ⟨c, rest, rfl, -, -, hdigit, hc⟩ := Name.head_of_starts h
  simp only [List.mem_cons, not_or] at hc
  unfold starts readSign
  dsimp only
  split
  · next hsign =>
    have hdash : c = '-' := by simpa [isSign, hc.2.2.1] using hsign
    rw [hdash, Name.starts_dash, Bool.or_eq_true, decide_eq_true_eq, List.head?_eq_some_iff] at h
    rcases h with ⟨tail, rfl⟩ | h
    · exact startsUnsigned_cons (by decide) (by decide) tail
    · exact startsUnsigned_of_name h
  · exact startsUnsigned_cons hdigit hc.1 rest

/-- A number begins with a digit, a point or a sign. -/
theorem head_of_starts {text : List Char} (h : starts text = true) :
    ∃ c rest, text = c :: rest ∧ isBlank c = false ∧ QuotedString.isQuote c = false ∧
      c ∉ ['/', '!', '*', '%', '>', '('] := by
  cases text with
  | nil => cases h
  | cons c rest =>
    have hno : ∀ d : Char, isSign d = false → d.isDigit = false → d ≠ '.' → c ≠ d := by
      rintro d hsign hdigit hpoint rfl
      unfold starts readSign at h
      dsimp only at h
      rw [if_neg (by simp [hsign]), startsUnsigned_cons hdigit hpoint] at h
      cases h
    refine ⟨c, rest, rfl, ?_, ?_, ?_⟩
    · simp [isBlank, hno '\n' (by decide) (by decide) (by decide),
        hno '\t' (by decide) (by decide) (by decide), hno ' ' (by decide) (by decide) (by decide)]
    · simp [QuotedString.isQuote, hno '"' (by decide) (by decide) (by decide),
        hno '\'' (by decide) (by decide) (by decide)]
    · simp only [List.mem_cons, List.not_mem_nil, or_false, not_or]
      refine ⟨hno '/' ?_ ?_ ?_, hno '!' ?_ ?_ ?_, hno '*' ?_ ?_ ?_, hno '%' ?_ ?_ ?_,
        hno '>' ?_ ?_ ?_, hno '(' ?_ ?_ ?_⟩ <;> decide

end Numeral

namespace Comment

theorem size_eq_zero {text : List Char} (h : ¬['/', '*'] <+: text) : size text = .ok 0 := by
  unfold size
  split
  · next rest => exact absurd ⟨rest, rfl⟩ h
  · rfl

theorem size_cons_eq_zero {c : Char} (h : c ≠ '/') (rest : List Char) :
    size (c :: rest) = .ok 0 := by
  refine size_eq_zero fun hbegins => ?_
  rw [List.cons_prefix_cons] at hbegins
  exact h hbegins.1.symm

end Comment

namespace Token

theorem scan_blank {c : Char} (h : isBlank c = true) (rest : List Char) :
    scan (c :: rest) = (Comment.sizeWithBlanks rest).map fun n => (.whitespace, n + 1) := by
  unfold scan
  dsimp only
  rw [if_pos h]
  cases Comment.sizeWithBlanks rest <;> rfl

theorem scan_quote_eq_ok_iff {q : Char} {rest : List Char} {token : Token} {n : Nat}
    (h : QuotedString.isQuote q = true) :
    scan (q :: rest) = .ok (token, n) ↔
      ∃ text k, QuotedString.read q rest = .ok (text, k) ∧ token = .string (String.ofList text) ∧
        n = k + 1 := by
  have hblank : isBlank q = false := by
    simp only [QuotedString.isQuote, Bool.or_eq_true, decide_eq_true_eq] at h
    rcases h with rfl | rfl <;> rfl
  unfold scan
  dsimp only
  rw [if_neg (by simp [hblank]), if_pos h]
  cases QuotedString.read q rest with
  | error reason => simp
  | ok pair =>
    constructor
    · rintro ⟨⟩
      exact ⟨pair.1, pair.2, rfl, rfl, rfl⟩
    · rintro ⟨text, k, ⟨⟩, rfl, rfl⟩
      rfl

theorem scan_number {text : List Char} (h : Numeral.starts text = true) :
    scan text = scanNumeric text := by
  obtain ⟨c, rest, rfl, hblank, hquote, -⟩ := Numeral.head_of_starts h
  unfold scan
  dsimp only
  rw [if_neg (by simp [hblank]), if_neg (by simp [hquote]), if_pos h]

theorem scan_name {text : List Char} (h : Name.starts text = true)
    (hclose : ¬['-', '-', '>'] <+: text) : scan text = scanIdentLike text := by
  obtain ⟨c, rest, rfl, hblank, hquote, -⟩ := Name.head_of_starts h
  unfold scan
  dsimp only
  rw [if_neg (by simp [hblank]), if_neg (by simp [hquote]),
    if_neg (by simp [Numeral.starts_of_name h])]
  split
  · exact absurd ⟨_, rfl⟩ hclose
  · rw [if_pos h]

theorem scan_symbol {c : Char} {rest : List Char} (hblank : isBlank c = false)
    (hquote : QuotedString.isQuote c = false) (hnumber : Numeral.starts (c :: rest) = false)
    (hname : Name.starts (c :: rest) = false) : scan (c :: rest) = scanSymbol c rest := by
  unfold scan
  dsimp only
  rw [if_neg (by simp [hblank]), if_neg (by simp [hquote]), if_neg (by simp [hnumber])]
  split
  · simp [Name.starts] at hname
  · rw [if_neg (by simp [hname])]

variable {text rest : List Char} {name : String}

theorem scanName_append (h : Name.Spells text name.toList) (hstop : Name.continues rest = false) :
    scanName (text ++ rest) = .ok (name, text.length) := by
  rw [scanName, h.read_append hstop]
  simp only [String.ofList_toList]

/-- A name that goes on behind its text is another one. -/
theorem ne_of_scanName {found : String} {n : Nat} (h : Name.Spells text name.toList)
    (hcont : Name.continues rest = true) (hscan : scanName (text ++ rest) = .ok (found, n)) :
    found ≠ name := by
  rintro rfl
  have hread := read_of_scanName hscan
  rw [h, Option.map_eq_some_iff] at hread
  obtain ⟨⟨more, k⟩, hmore, heq⟩ := hread
  simp only [Prod.mk.injEq, List.append_right_eq_self] at heq
  exact Name.ne_nil_of_read hcont hmore heq.1

theorem scanIdentLike_append (h : Name.Spells text name.toList)
    (hstop : Name.continues rest = false) (hparen : rest.head? ≠ some '(') :
    scanIdentLike (text ++ rest) = .ok (.ident name, text.length) := by
  unfold scanIdentLike
  rw [scanName_append h hstop]
  simp only [bind, Except.bind, List.drop_left]
  split
  · simp at hparen
  · rfl

theorem scanIdentLike_append_paren (h : Name.Spells text name.toList) :
    scanIdentLike (text ++ '(' :: rest) =
      if asciiLower name = "url" then
        (scanUrl (text ++ '(' :: rest) name rest).map fun (token, k) => (token, text.length + 1 + k)
      else .ok (.function name, text.length + 1) := by
  unfold scanIdentLike
  rw [scanName_append h rfl]
  simp only [bind, Except.bind, List.drop_left]
  split
  · cases scanUrl (text ++ '(' :: rest) name rest <;> rfl
  · rfl

theorem scanNumeric_append {value : Numeral} (hproper : value.Proper) (hends : value.Ends rest) :
    scanNumeric (value.text.toList ++ rest) =
      if Name.starts rest then
        (scanName rest).map fun (unit, k) => (.dimension value unit, value.text.length + k)
      else if rest.head? = some '%' then .ok (.percentage value, value.text.length + 1)
      else .ok (.number value, value.text.length) := by
  unfold scanNumeric
  rw [hproper.read_append_iff.2 hends]
  dsimp only
  split
  · cases scanName rest <;> rfl
  · rfl

end Token

namespace Name

/-- A character stands for itself in a name, or it is escaped. -/
theorem writeChar_cases {c : Char} (h : c ≠ '\x00') :
    (isNameChar c = true ∧ writeChar c = [c]) ∨ ∃ more, writeChar c = '\\' :: more := by
  unfold writeChar
  rw [if_neg h]
  split
  · exact .inr ⟨_, rfl⟩
  · split
    · next hname => exact .inl ⟨hname, rfl⟩
    · exact .inr ⟨_, rfl⟩

theorem writeChar_of_isNameChar {c : Char} (h : isNameChar c = true) : writeChar c = [c] := by
  have hcode : 0x20 < c.toNat ∧ c.toNat ≠ 0x7F := by
    simp only [isNameChar, isNameStart, isAlpha_iff, Char.isDigit, Bool.or_eq_true,
      Bool.and_eq_true, decide_eq_true_eq, ge_iff_le, UInt32.le_iff_toNat_le,
      Char.reduceVal, UInt32.reduceToNat] at h
    unfold Char.toNat at h ⊢
    rcases h with ((((h | h) | h) | rfl) | h) | rfl <;> first | omega | decide
  have hnull : c ≠ '\x00' := by
    rintro rfl
    exact absurd hcode.1 (by decide)
  have hcontrol : isAsciiControl c = false := by
    simp only [isAsciiControl, Bool.or_eq_false_iff, Bool.and_eq_false_iff, decide_eq_false_iff_not]
    omega
  rw [writeChar, if_neg hnull, if_neg (by simp [hcontrol]), if_pos h]

theorem continues_of_isNameChar {c : Char} (h : isNameChar c = true) (rest : List Char) :
    continues (c :: rest) = true := by
  unfold continues
  split
  · next heq =>
    cases heq
    cases h
  · next heq =>
    cases heq
    exact h
  · next heq => cases heq

theorem starts_cons {c : Char} (hdash : c ≠ '-') (hslash : c ≠ '\\') (rest : List Char) :
    starts (c :: rest) = isNameStart c := by
  unfold starts
  split <;> simp_all

/-- A written character begins with itself, if that is a character of names, or
    with a backslash. -/
theorem not_prefix_writeChar_append {c d : Char} {more text : List Char} (hc : c ≠ '\x00')
    (hd : isNameChar d = false ∨ c ≠ d) (hslash : d ≠ '\\') :
    ¬d :: more <+: writeChar c ++ text := by
  intro hbegins
  rcases writeChar_cases hc with ⟨hname, heq⟩ | ⟨tail, heq⟩
  · rw [heq, List.singleton_append, List.cons_prefix_cons] at hbegins
    rcases hd with hd | hd
    · rw [hbegins.1, hname] at hd
      cases hd
    · exact hd hbegins.1.symm
  · rw [heq, List.cons_append, List.cons_prefix_cons] at hbegins
    exact hslash hbegins.1

/-- Only the name of two hyphens can be taken for the end of a comment. -/
theorem close_prefix_write_append {name rest : List Char} (hnull : '\x00' ∉ name)
    (hne : name ≠ []) (h : ['-', '-', '>'] <+: write name ++ rest) :
    name = ['-', '-'] ∧ rest.head? = some '>' := by
  unfold write at h
  split at h
  · simp at h
  · next c tail =>
    simp only [List.mem_cons, not_or] at hnull
    split at h
    · simp [Escape.hex] at h
    · rw [List.cons_append, List.cons_prefix_cons, List.append_assoc] at h
      have hc : c = '-' := by
        refine Decidable.byContradiction fun hc => ?_
        exact not_prefix_writeChar_append (Ne.symm hnull.2.1) (.inr hc) (by decide) h.2
      subst hc
      have hdash : writeChar '-' = ['-'] := by decide
      rw [hdash, List.singleton_append, List.cons_prefix_cons] at h
      cases tail with
      | nil =>
        rw [writeLoose, List.flatMap_nil, List.nil_append] at h
        obtain ⟨more, hmore⟩ := h.2.2
        simp [← hmore]
      | cons d tail =>
        simp only [List.mem_cons, not_or] at hnull
        rw [writeLoose, List.flatMap_cons, List.append_assoc] at h
        exact absurd h.2.2 (not_prefix_writeChar_append (Ne.symm hnull.2.2.1) (.inl (by decide))
          (by decide))
  · next c tail hc1 hc2 =>
    simp only [List.mem_cons, not_or] at hnull
    split at h
    · simp [Escape.hex] at h
    · rw [List.append_assoc] at h
      refine absurd h (not_prefix_writeChar_append (Ne.symm hnull.1) (.inr ?_) (by decide))
      rintro rfl
      cases tail with
      | nil => exact hc1 rfl rfl
      | cons d tail => exact hc2 d tail rfl rfl
  · exact absurd rfl hne

end Name

namespace Comment

theorem size_of_name {text : List Char} (h : Name.starts text = true) : size text = .ok 0 := by
  obtain ⟨c, rest, rfl, -, -, -, hc⟩ := Name.head_of_starts h
  simp only [List.mem_cons, not_or] at hc
  exact size_cons_eq_zero hc.2.1 rest

theorem size_of_number {text : List Char} (h : Numeral.starts text = true) :
    size text = .ok 0 := by
  obtain ⟨c, rest, rfl, -, -, hc⟩ := Numeral.head_of_starts h
  simp only [List.mem_cons, not_or] at hc
  exact size_cons_eq_zero hc.1 rest

end Comment

end DeepScope
