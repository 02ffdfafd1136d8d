import DeepScope.Proofs.Text.Source
import DeepScope.Proofs.Token.Name
import DeepScope.Proofs.Token.Numeral
import DeepScope.Token.Scan

namespace DeepScope

/-- A name as tokens hold it: of any characters but null, and not empty. -/
def IsName (name : String) : Prop :=
  name.toList ≠ [] ∧ '\x00' ∉ name.toList

instance (name : String) : Decidable (IsName name) :=
  inferInstanceAs (Decidable (name.toList ≠ [] ∧ '\x00' ∉ name.toList))

/-- A name behind a number sign that could not stand alone: a lone hyphen, or a
    digit at the beginning or behind a hyphen there. -/
def IsLooseName (name : String) : Prop :=
  '\x00' ∉ name.toList ∧ (name.toList = ['-'] ∨
    ∃ d rest, d.isDigit = true ∧ (name.toList = d :: rest ∨ name.toList = '-' :: d :: rest))

/-- A character that is a token by itself and has no name of its own. -/
def IsDelim (c : Char) : Prop :=
  isBlank c = false ∧ QuotedString.isQuote c = false ∧ isNameStart c = false ∧
    c.isDigit = false ∧ Source.IsClean c ∧
    c ∉ ['\\', ':', ';', ',', '[', ']', '(', ')', '{', '}']

instance (c : Char) : Decidable (IsDelim c) :=
  inferInstanceAs (Decidable (_ ∧ _ ∧ _ ∧ _ ∧ _ ∧ _))

/-- The tokens that reading can find. Of the functions named `url`, it is not
    said here that a quoted address follows. -/
def Token.Legible : Token → Prop
  | .ident name | .function name | .atKeyword name | .hash name .id => IsName name
  | .hash name .unrestricted => IsLooseName name
  | .string text | .url text => '\x00' ∉ text.toList
  | .delim c => IsDelim c
  | .number value | .percentage value => value.Proper
  | .dimension value unit => value.Proper ∧ IsName unit
  | _ => True

namespace Escape

theorem ne_null_of_read {text : List Char} {c : Char} {n : Nat} (hclean : '\x00' ∉ text)
    (h : read text = some (c, n)) : c ≠ '\x00' := by
  unfold read at h
  split at h
  · simp at h
  · split at h
    · simp only [Option.some.injEq, Prod.mk.injEq] at h
      rw [← h.1]
      unfold charOfHex
      dsimp only
      split
      · decide
      · assumption
    · simp only [Option.some.injEq, Prod.mk.injEq] at h
      rintro rfl
      simp [h.1] at hclean

end Escape

theorem not_mem_drop {c : Char} {text : List Char} (h : c ∉ text) (n : Nat) : c ∉ text.drop n :=
  fun hmem => h (List.mem_of_mem_drop hmem)

namespace Name

theorem null_not_mem_of_read {text name : List Char} {n : Nat} (hclean : '\x00' ∉ text)
    (h : read text = some (name, n)) : '\x00' ∉ name := by
  fun_induction read text generalizing name n with
  | case1 =>
    cases h
    simp
  | case2 c rest _ ih =>
    simp only [Option.bind_eq_bind, Option.bind_eq_some_iff, Prod.exists] at h
    obtain ⟨front, m, hread, hpure⟩ := h
    cases hpure
    simp only [List.mem_cons, not_or] at hclean ⊢
    exact ⟨hclean.1, ih hclean.2 hread⟩
  | case3 c rest _ _ ih =>
    simp only [Option.bind_eq_bind, Option.bind_eq_some_iff, Prod.exists] at h
    obtain ⟨d, k, hescape, front, m, hread, hpure⟩ := h
    cases hpure
    simp only [List.mem_cons, not_or] at hclean ⊢
    exact ⟨Ne.symm (Escape.ne_null_of_read hclean.2 hescape),
      ih k (not_mem_drop hclean.2 k) hread⟩
  | case4 =>
    cases h
    simp

theorem ne_nil_of_read {text name : List Char} {n : Nat} (hcont : continues text = true)
    (h : read text = some (name, n)) : name ≠ [] := by
  rintro rfl
  have hpos := read_pos hcont h
  cases text with
  | nil => simp [continues] at hcont
  | cons c rest =>
    rw [read] at h
    split at h
    · simp only [Option.bind_eq_bind, Option.bind_eq_some_iff, Prod.exists] at h
      obtain ⟨front, m, -, hpure⟩ := h
      cases hpure
    · split at h
      · simp only [Option.bind_eq_bind, Option.bind_eq_some_iff, Prod.exists] at h
        obtain ⟨d, k, -, front, m, -, hpure⟩ := h
        cases hpure
      · cases h
        omega

/-- What continues a name without starting one does so by a name character. -/
theorem isNameChar_of_continues {c : Char} {rest : List Char}
    (hcont : continues (c :: rest) = true) (hstart : starts (c :: rest) = false) :
    isNameChar c = true := by
  unfold continues at hcont
  split at hcont
  · next tail heq =>
    cases heq
    simp [starts, hcont] at hstart
  · next heq =>
    cases heq
    exact hcont
  · cases hcont

/-- A character of names that starts none is a hyphen or a digit. -/
theorem isDigit_of_not_starts {c : Char} {rest : List Char} (hchar : isNameChar c = true)
    (hstart : starts (c :: rest) = false) (hdash : c ≠ '-') : c.isDigit = true := by
  have hno : isNameStart c = false := by
    rw [Bool.eq_false_iff]
    intro hc
    rw [starts_of_isNameStart hc] at hstart
    cases hstart
  simpa [isNameChar, hno, hdash] using hchar

/-- What is read of a name that begins with a character of names. -/
theorem exists_of_read_cons {c : Char} {rest name : List Char} {n : Nat}
    (hchar : isNameChar c = true) (h : read (c :: rest) = some (name, n)) :
    ∃ more k, name = c :: more ∧ read rest = some (more, k) := by
  rw [← List.singleton_append, spells_char hchar, Option.map_eq_some_iff] at h
  obtain ⟨⟨more, k⟩, hmore, heq⟩ := h
  cases heq
  exact ⟨more, k, rfl, hmore⟩

end Name

theorem Numeral.starts_of_isDigit {d : Char} (h : d.isDigit = true) (rest : List Char) :
    starts (d :: rest) = true := by
  have hpoint : d ≠ '.' := by
    rintro rfl
    exact absurd h (by decide)
  rw [starts, readSign, if_neg (by simp [isSign_of_isDigit h]), startsUnsigned]
  · exact h
  · intro e tail hd
    exact absurd hd hpoint

namespace QuotedString

theorem null_not_mem_of_read {quote : Char} {text chars : List Char} {n : Nat}
    (hclean : '\x00' ∉ text) (h : read quote text = .ok (chars, n)) : '\x00' ∉ chars := by
  fun_induction read quote text generalizing chars n with
  | case1 => cases h
  | case2 => cases h
  | case3 rest ih =>
    obtain ⟨⟨front, m⟩, hread, hpure⟩ := exists_of_bind_eq_ok h
    cases hpure
    simp only [List.mem_cons, not_or] at hclean
    exact ih hclean.2.2 hread
  | case4 => cases h
  | case5 d rest _ c k hescape ih =>
    obtain ⟨⟨front, m⟩, hread, hpure⟩ := exists_of_bind_eq_ok h
    cases hpure
    rw [List.mem_cons, not_or] at hclean ⊢
    exact ⟨Ne.symm (Escape.ne_null_of_read hclean.2 hescape),
      ih (not_mem_drop hclean.2 k) hread⟩
  | case6 =>
    cases h
    simp
  | case7 => cases h
  | case8 c rest _ _ _ _ _ ih =>
    obtain ⟨⟨front, m⟩, hread, hpure⟩ := exists_of_bind_eq_ok h
    cases hpure
    rw [List.mem_cons, not_or] at hclean ⊢
    exact ⟨hclean.1, ih hclean.2 hread⟩

end QuotedString

namespace Url

theorem null_not_mem_of_readAddress {start text chars : List Char} {n : Nat}
    (hclean : '\x00' ∉ text) (h : readAddress start text = .ok (chars, n)) : '\x00' ∉ chars := by
  fun_induction readAddress start text generalizing chars n with
  | case1 => cases h
  | case2 =>
    cases h
    simp
  | case3 => cases h
  | case4 => cases h
  | case5 rest _ d k hescape _ _ ih =>
    obtain ⟨⟨front, m⟩, hread, hpure⟩ := exists_of_bind_eq_ok h
    cases hpure
    rw [List.mem_cons, not_or] at hclean ⊢
    exact ⟨Ne.symm (Escape.ne_null_of_read hclean.2 hescape),
      ih (not_mem_drop hclean.2 k) hread⟩
  | case6 => cases h
  | case7 =>
    obtain ⟨m, -, hpure⟩ := exists_of_bind_eq_ok h
    cases hpure
    simp
  | case8 c rest _ _ _ _ ih =>
    obtain ⟨⟨front, m⟩, hread, hpure⟩ := exists_of_bind_eq_ok h
    cases hpure
    rw [List.mem_cons, not_or] at hclean ⊢
    exact ⟨hclean.1, ih hclean.2 hread⟩

theorem null_not_mem_of_read {start text chars : List Char} {n : Nat} (hclean : '\x00' ∉ text)
    (h : read start text = .ok (chars, n)) : '\x00' ∉ chars := by
  obtain ⟨⟨address, m⟩, hread, hpure⟩ := exists_of_bind_eq_ok h
  cases hpure
  exact null_not_mem_of_readAddress (fun hmem => hclean ((List.dropWhile_sublist _).mem hmem)) hread

end Url

namespace Token

theorem isName_of_scanName {text : List Char} {name : String} {n : Nat} (hclean : '\x00' ∉ text)
    (hcont : Name.continues text = true) (h : scanName text = .ok (name, n)) : IsName name :=
  ⟨Name.ne_nil_of_read hcont (read_of_scanName h),
    Name.null_not_mem_of_read hclean (read_of_scanName h)⟩

/-- A name behind a number sign is loose if it does not start like an
    identifier. -/
theorem isLooseName_of_scanName {text : List Char} {name : String} {n : Nat}
    (hclean : '\x00' ∉ text) (hcont : Name.continues text = true)
    (hstart : Name.starts text = false) (h : scanName text = .ok (name, n)) :
    IsLooseName name := by
  have hread := read_of_scanName h
  refine ⟨Name.null_not_mem_of_read hclean hread, ?_⟩
  cases text with
  | nil => simp [Name.continues] at hcont
  | cons c rest =>
    have hchar := Name.isNameChar_of_continues hcont hstart
    obtain ⟨more, k, hname, hmore⟩ := Name.exists_of_read_cons hchar hread
    rw [hname]
    by_cases hdash : c = '-'
    · subst hdash
      rw [Name.starts_dash, Bool.or_eq_false_iff] at hstart
      by_cases hrest : Name.continues rest = true
      · cases rest with
        | nil => simp [Name.continues] at hrest
        | cons d tail =>
          have hd := Name.isNameChar_of_continues hrest hstart.2
          obtain ⟨others, m, rfl, -⟩ := Name.exists_of_read_cons hd hmore
          have hdigit := Name.isDigit_of_not_starts hd hstart.2 (by simpa using hstart.1)
          exact .inr ⟨d, others, hdigit, .inr rfl⟩
      · rw [Name.read_of_not_continues (by simpa using hrest)] at hmore
        cases hmore
        exact .inl rfl
    · exact .inr ⟨c, more, Name.isDigit_of_not_starts hchar hstart hdash, .inl rfl⟩

theorem legible_of_scanNumeric {text : List Char} {token : Token} {n : Nat}
    (hclean : '\x00' ∉ text) (hstart : Numeral.starts text = true)
    (h : scanNumeric text = .ok (token, n)) : token.Legible := by
  have hproper := Numeral.proper_read hstart
  have hrest : '\x00' ∉ (Numeral.read text).2 := by
    intro hmem
    rw [← Numeral.read_append text, List.mem_append, not_or] at hclean
    exact hclean.2 hmem
  rcases scanNumeric_eq_ok h with ⟨unit, k, rfl, hunit, hname, -⟩ | ⟨rfl, -⟩ | ⟨rfl, -⟩
  · exact ⟨hproper, isName_of_scanName hrest (continues_of_starts hunit) hname⟩
  · exact hproper
  · exact hproper

theorem legible_of_scanIdentLike {text : List Char} {token : Token} {n : Nat}
    (hclean : '\x00' ∉ text) (hcont : Name.continues text = true)
    (h : scanIdentLike text = .ok (token, n)) : token.Legible := by
  obtain ⟨name, k, hname, hcases⟩ := scanIdentLike_eq_ok h
  have hlegible := isName_of_scanName hclean hcont hname
  rcases hcases with ⟨after, m, hafter, -, hurl, -⟩ | ⟨_, -, -, rfl, -⟩ | ⟨-, rfl, -⟩
  · rcases scanUrl_eq_ok hurl with ⟨-, rfl, -⟩ | ⟨address, rfl, hread⟩
    · exact hlegible
    · have hdrop : '\x00' ∉ text.drop k := not_mem_drop hclean k
      rw [hafter, List.mem_cons, not_or] at hdrop
      simpa [Legible] using Url.null_not_mem_of_read hdrop.2 hread
  · exact hlegible
  · exact hlegible

theorem legible_of_scanSymbol {c : Char} {rest : List Char} {token : Token} {n : Nat}
    (hclean : ∀ d ∈ c :: rest, Source.IsClean d) (hblank : isBlank c = false)
    (hquote : QuotedString.isQuote c = false) (hnumber : Numeral.starts (c :: rest) = false)
    (hname : Name.starts (c :: rest) = false) (h : scanSymbol c rest = .ok (token, n)) :
    token.Legible := by
  have hnull : '\x00' ∉ rest := fun hmem => (hclean _ (List.mem_cons_of_mem c hmem)).1 rfl
  unfold scanSymbol at h
  split at h
  case h_1 =>
    split at h
    · next hcont =>
      obtain ⟨⟨name, k⟩, hread, hpure⟩ := exists_of_bind_eq_ok h
      cases hpure
      cases hstart : Name.starts rest with
      | true => exact isName_of_scanName hnull hcont hread
      | false => exact isLooseName_of_scanName hnull hcont hstart hread
    · cases h
      exact ⟨by decide, by decide, by decide, by decide, by decide, by decide⟩
  case h_2 =>
    split at h
    · next hstart =>
      obtain ⟨⟨name, k⟩, hread, hpure⟩ := exists_of_bind_eq_ok h
      cases hpure
      exact isName_of_scanName hnull (continues_of_starts hstart) hread
    · cases h
      exact ⟨by decide, by decide, by decide, by decide, by decide, by decide⟩
  case h_4 => cases h
  case h_14 =>
    next hslash hcolon hsemicolon hcomma hopenSquare hcloseSquare hopenParen hcloseParen
      hopenBrace hcloseBrace _ =>
    cases h
    have hstart : isNameStart c = false := by
      rw [Bool.eq_false_iff]
      intro hc
      rw [Name.starts_of_isNameStart hc] at hname
      cases hname
    have hdigit : c.isDigit = false := by
      rw [Bool.eq_false_iff]
      intro hc
      rw [Numeral.starts_of_isDigit hc] at hnumber
      cases hnumber
    refine ⟨hblank, hquote, hstart, hdigit, hclean c List.mem_cons_self, ?_⟩
    simp only [List.mem_cons, List.not_mem_nil, or_false, not_or]
    exact ⟨hslash, hcolon, hsemicolon, hcomma, hopenSquare, hcloseSquare, hopenParen,
      hcloseParen, hopenBrace, hcloseBrace⟩
  all_goals
    cases h
    trivial

/-- Only legible tokens are ever read. -/
theorem legible_of_scan {text : List Char} {token : Token} {n : Nat}
    (hclean : ∀ c ∈ text, Source.IsClean c) (h : scan text = .ok (token, n)) : token.Legible := by
  have hnull : '\x00' ∉ text := fun hmem => (hclean _ hmem).1 rfl
  unfold scan at h
  split at h
  · cases h
    trivial
  · next c rest =>
    split at h
    · obtain ⟨k, -, hpure⟩ := exists_of_bind_eq_ok h
      cases hpure
      trivial
    · next hblank =>
      split at h
      · split at h
        · cases h
        · next hread =>
          cases h
          rw [List.mem_cons, not_or] at hnull
          simpa [Legible] using QuotedString.null_not_mem_of_read hnull.2 hread
      · next hquote =>
        split at h
        · next hstart => exact legible_of_scanNumeric hnull hstart h
        · next hnumber =>
          split at h
          · cases h
            trivial
          · split at h
            · next hstart =>
              exact legible_of_scanIdentLike hnull (continues_of_starts hstart) h
            · next hname =>
              exact legible_of_scanSymbol hclean (by simpa using hblank) (by simpa using hquote)
                (by simpa using hnumber) (by simpa using hname) h

end Token

end DeepScope
