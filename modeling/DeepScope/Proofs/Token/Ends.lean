import DeepScope.Proofs.Token.Literal
import DeepScope.Proofs.Token.Scan

namespace DeepScope

/-- Whether the text behind a written token leaves it as it is. -/
def Token.Ends : Token → List Char → Prop
  | .ident name, rest =>
    Name.continues rest = false ∧ rest.head? ≠ some '(' ∧ (name = "--" → rest.head? ≠ some '>')
  | .function name, rest =>
    asciiLower name = "url" → Url.isQuoted rest = true ∧ Url.leadingBlanks rest ≤ 1
  | .atKeyword _, rest | .hash .., rest => Name.continues rest = false
  | .delim c, rest =>
    Numeral.starts (c :: rest) = false ∧ Name.starts (c :: rest) = false ∧
      (c = '#' → Name.continues rest = false) ∧ (c = '@' → Name.starts rest = false) ∧
      (c = '/' → rest.head? ≠ some '*') ∧ (c = '<' → ¬['!', '-', '-'] <+: rest)
  | .number value, rest => value.Ends rest ∧ Name.starts rest = false ∧ rest.head? ≠ some '%'
  | .dimension value unit, rest =>
    value.Ends (Name.writeUnit unit.toList ++ rest) ∧ Name.continues rest = false
  | .whitespace, rest => Comment.sizeWithBlanks rest = .ok 0
  | .eof, rest => rest = []
  | _, _ => True

namespace Token

section

variable {rest : List Char} {name : String}

theorem scan_write_append (h : IsName name) (rest : List Char)
    (hclose : name = "--" → rest.head? ≠ some '>') :
    Comment.size (Name.write name.toList ++ rest) = .ok 0 ∧
      scan (Name.write name.toList ++ rest) = scanIdentLike (Name.write name.toList ++ rest) := by
  have hstart := Name.starts_write_append h.1 h.2 rest
  refine ⟨Comment.size_of_name hstart, scan_name hstart fun hbegins => ?_⟩
  obtain ⟨hdashes, hhead⟩ := Name.close_prefix_write_append h.2 h.1 hbegins
  exact hclose (String.toList_inj.1 hdashes) hhead

theorem scan_function_append (h : IsName name)
    (hends : asciiLower name = "url" → Url.isQuoted rest = true ∧ Url.leadingBlanks rest ≤ 1) :
    Comment.size (Name.write name.toList ++ '(' :: rest) = .ok 0 ∧
      scan (Name.write name.toList ++ '(' :: rest) =
        .ok (.function name, (Name.write name.toList).length + 1) := by
  obtain ⟨hsize, hscan⟩ := scan_write_append h ('(' :: rest) (by simp)
  refine ⟨hsize, ?_⟩
  rw [hscan, scanIdentLike_append_paren (Name.spells_write h.2)]
  split
  · next hurl =>
    obtain ⟨hquoted, hblanks⟩ := hends hurl
    rw [scanUrl, if_pos hquoted, Nat.sub_eq_zero_of_le hblanks]
    rfl
  · rfl

theorem scan_url_append {address : String} (h : '\x00' ∉ address.toList) :
    Comment.size ((Token.url address).chars ++ rest) = .ok 0 ∧
      scan ((Token.url address).chars ++ rest) =
        .ok (.url address, (Token.url address).chars.length) := by
  have hurl : IsName "url" := by decide
  have hchars : (Token.url address).chars ++ rest =
      Name.write "url".toList ++ '(' :: (Url.write address.toList ++ ')' :: rest) := by
    rw [show Name.write "url".toList = "url".toList by decide]
    simp [chars]
  obtain ⟨hsize, hscan⟩ := scan_write_append hurl
    ('(' :: (Url.write address.toList ++ ')' :: rest)) (by simp)
  rw [hchars]
  refine ⟨hsize, ?_⟩
  obtain ⟨hquoted, hread⟩ := Url.read_write_append
    (Name.write "url".toList ++ '(' :: (Url.write address.toList ++ ')' :: rest)) rest h
  rw [hscan, scanIdentLike_append_paren (Name.spells_write hurl.2), if_pos (by decide), scanUrl,
    if_neg (by simp [hquoted]), hread]
  simp only [bind, Except.bind, pure, Except.pure, Except.map, String.ofList_toList, chars,
    List.length_append, List.length_singleton]
  rw [show Name.write "url".toList = "url".toList by decide]
  rfl

/-- A loose name continues a number sign, but starts no identifier. -/
theorem starts_writeLoose_append (h : IsLooseName name) (hends : Name.continues rest = false) :
    Name.continues (Name.writeLoose name.toList ++ rest) = true ∧
      Name.starts (Name.writeLoose name.toList ++ rest) = false := by
  have hdigit : ∀ d : Char, d.isDigit = true → d ≠ '-' ∧
      Name.writeChar d = [d] ∧ ∀ text, Name.starts (d :: text) = false := by
    intro d hd
    have hno : ∀ e : Char, e.isDigit = false → d ≠ e := by
      rintro e he rfl
      rw [hd] at he
      cases he
    refine ⟨hno '-' (by decide), Name.writeChar_of_isNameChar (isNameChar_of_isDigit hd), ?_⟩
    intro text
    rw [Name.starts_cons (hno '-' (by decide)) (hno '\\' (by decide)), Bool.eq_false_iff]
    intro hstart
    rw [not_isDigit_of_isNameStart hstart] at hd
    cases hd
  have hdash : Name.writeChar '-' = ['-'] := by decide
  rcases h.2 with heq | ⟨d, more, hd, heq | heq⟩
  · rw [heq, Name.writeLoose, List.flatMap_singleton, hdash, List.singleton_append,
      Name.starts_dash, Bool.or_eq_false_iff]
    refine ⟨rfl, ?_, ?_⟩
    · rw [decide_eq_false_iff_not, List.head?_eq_some_iff]
      rintro ⟨tail, rfl⟩
      cases hends
    · rw [Bool.eq_false_iff]
      intro hstart
      rw [continues_of_starts hstart] at hends
      cases hends
  · obtain ⟨-, hwrite, hstart⟩ := hdigit d hd
    rw [heq, Name.writeLoose, List.flatMap_cons, hwrite, List.append_assoc, List.singleton_append]
    exact ⟨Name.continues_of_isNameChar (isNameChar_of_isDigit hd) _, hstart _⟩
  · obtain ⟨hne, hwrite, hstart⟩ := hdigit d hd
    rw [heq, Name.writeLoose, List.flatMap_cons, hdash, List.flatMap_cons, hwrite,
      List.append_assoc, List.singleton_append, List.append_assoc, List.singleton_append,
      Name.starts_dash, hstart]
    exact ⟨rfl, by simpa using hne⟩

theorem scan_hash_append {kind : HashKind} (h : (hash name kind).Legible)
    (hends : Name.continues rest = false) :
    scan ((hash name kind).chars ++ rest) =
      .ok (.hash name kind, (hash name kind).chars.length) := by
  cases kind with
  | id =>
    have hstart := Name.starts_write_append h.1 h.2 rest
    rw [chars, List.cons_append, scan_symbol rfl rfl rfl rfl]
    simp only [scanSymbol]
    rw [if_pos (continues_of_starts hstart), scanName_append (Name.spells_write h.2) hends]
    simp [bind, Except.bind, pure, Except.pure, hstart]
  | unrestricted =>
    obtain ⟨hcont, hstart⟩ := starts_writeLoose_append h hends
    rw [chars, List.cons_append, scan_symbol rfl rfl rfl rfl]
    simp only [scanSymbol]
    rw [if_pos hcont, scanName_append (Name.spells_writeLoose h.1) hends]
    simp [bind, Except.bind, pure, Except.pure, hstart]

theorem scan_delim_append {c : Char} (h : IsDelim c) (hends : (delim c).Ends rest) :
    Comment.size (c :: rest) = .ok 0 ∧ scan (c :: rest) = .ok (.delim c, 1) := by
  obtain ⟨hblank, hquote, -, -, -, hno⟩ := h
  obtain ⟨hnumber, hname, hhash, hat, hslash, hopen⟩ := hends
  simp only [List.mem_cons, List.not_mem_nil, or_false, not_or] at hno
  constructor
  · refine Comment.size_eq_zero fun hbegins => ?_
    rw [List.cons_prefix_cons] at hbegins
    obtain ⟨more, rfl⟩ := hbegins.2
    exact hslash hbegins.1.symm rfl
  · rw [scan_symbol hblank hquote hnumber hname]
    unfold scanSymbol
    split
    · rw [if_neg (by simp [hhash rfl])]
    · rw [if_neg (by simp [hat rfl])]
    · next more => exact absurd ⟨more, rfl⟩ (hopen rfl)
    all_goals simp_all

theorem ends_whitespace_iff : whitespace.Ends rest ↔ Comment.sizeWithBlanks rest = .ok 0 :=
  Iff.rfl

theorem ends_percent {value : Numeral} : value.Ends ('%' :: rest) :=
  ⟨rfl, fun _ => rfl, fun _ _ => rfl⟩

end

/-- A written token is read as itself wherever its text ends. -/
theorem scan_chars_append {token : Token} {rest : List Char} (hlegible : token.Legible)
    (hends : token.Ends rest) :
    Comment.size (token.chars ++ rest) = .ok 0 ∧
      scan (token.chars ++ rest) = .ok (token, token.chars.length) := by
  cases token with
  | ident name =>
    obtain ⟨hsize, hscan⟩ := scan_write_append hlegible rest hends.2.2
    refine ⟨hsize, hscan.trans ?_⟩
    exact scanIdentLike_append (Name.spells_write hlegible.2) hends.1 hends.2.1
  | function name => simpa [chars] using scan_function_append hlegible hends
  | atKeyword name =>
    have hstart := Name.starts_write_append hlegible.1 hlegible.2 rest
    refine ⟨Comment.size_cons_eq_zero (by decide) _, ?_⟩
    rw [chars, List.cons_append, scan_symbol rfl rfl rfl rfl]
    simp only [scanSymbol]
    rw [if_pos hstart, scanName_append (Name.spells_write hlegible.2) hends]
    rfl
  | hash name kind =>
    refine ⟨?_, scan_hash_append hlegible hends⟩
    cases kind <;> exact Comment.size_cons_eq_zero (by decide) _
  | string text =>
    refine ⟨Comment.size_cons_eq_zero (by decide) _, ?_⟩
    have hread := QuotedString.read_write_append hlegible rest
    rw [chars, QuotedString.write, List.cons_append, List.append_assoc, List.singleton_append,
      scan_quote_eq_ok_iff rfl]
    exact ⟨_, _, hread, by rw [String.ofList_toList], by simp⟩
  | url address => exact scan_url_append hlegible
  | delim c => exact scan_delim_append hlegible hends
  | number value =>
    have hstart := hlegible.starts_append rest
    refine ⟨Comment.size_of_number hstart, ?_⟩
    rw [chars, scan_number hstart, scanNumeric_append hlegible hends.1, if_neg (by simp [hends.2.1]),
      if_neg hends.2.2, String.length_toList]
  | percentage value =>
    have hstart := hlegible.starts_append ('%' :: rest)
    rw [chars, List.append_assoc, List.singleton_append]
    refine ⟨Comment.size_of_number hstart, ?_⟩
    rw [scan_number hstart, scanNumeric_append hlegible ends_percent,
      if_neg (show ¬Name.starts ('%' :: rest) = true from Bool.false_ne_true),
      if_pos (show ('%' :: rest).head? = some '%' from rfl), List.length_append, String.length_toList]
    rfl
  | dimension value unit =>
    obtain ⟨hvalue, hne, hnull⟩ := hlegible
    have hstart := hvalue.starts_append (Name.writeUnit unit.toList ++ rest)
    rw [chars, List.append_assoc]
    refine ⟨Comment.size_of_number hstart, ?_⟩
    rw [scan_number hstart, scanNumeric_append hvalue hends.1,
      if_pos (Name.starts_writeUnit_append hne hnull rest),
      scanName_append (Name.spells_writeUnit hnull) hends.2, List.length_append,
      String.length_toList]
    rfl
  | whitespace =>
    refine ⟨Comment.size_cons_eq_zero (by decide) _, ?_⟩
    rw [chars, List.singleton_append, scan_blank rfl, hends]
    rfl
  | commentOpen => exact ⟨Comment.size_cons_eq_zero (by decide) _, rfl⟩
  | commentClose => exact ⟨Comment.size_cons_eq_zero (by decide) _, rfl⟩
  | eof =>
    obtain rfl : rest = [] := hends
    exact ⟨Comment.size_eq_zero (by decide), rfl⟩
  | _ => exact ⟨Comment.size_cons_eq_zero (by decide) _, rfl⟩

end Token

end DeepScope
