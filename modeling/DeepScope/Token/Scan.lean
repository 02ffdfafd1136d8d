import DeepScope.Outcome
import DeepScope.Token.Basic
import DeepScope.Token.Comment
import DeepScope.Token.Name
import DeepScope.Token.Numeral
import DeepScope.Token.QuotedString
import DeepScope.Token.Url

namespace DeepScope.Token

/-- A name at the front of the text. -/
def scanName (text : List Char) : Except Fault (String × Nat) :=
  match Name.read text with
  | none => .error ⟨.escapeAtEnd, []⟩
  | some (name, n) => .ok (String.ofList name, n)

/-- A number, with the percent sign or the unit that may follow it. -/
def scanNumeric (text : List Char) : Except Fault (Token × Nat) :=
  let (value, rest) := Numeral.read text
  let n := value.text.length
  if Name.starts rest then do
    let (unit, k) ← scanName rest
    return (.dimension value unit, n + k)
  else if rest.head? = some '%' then .ok (.percentage value, n + 1)
  else .ok (.number value, n)

/-- An address or an ordinary function, behind the name `url` and its
    parenthesis. Of the blanks in front of a quoted address the last one is left
    for a token of its own. -/
def scanUrl (start : List Char) (name : String) (text : List Char) : Except Fault (Token × Nat) :=
  if Url.isQuoted text then
    .ok (.function name, Url.leadingBlanks text - 1)
  else do
    let (address, n) ← Url.read start text
    return (.url (String.ofList address), n)

/-- A name, and the parenthesis that makes it a function or an address. -/
def scanIdentLike (text : List Char) : Except Fault (Token × Nat) := do
  let (name, n) ← scanName text
  match text.drop n with
  | '(' :: after =>
    if asciiLower name = "url" then
      let (token, k) ← scanUrl text name after
      return (token, n + 1 + k)
    else return (.function name, n + 1)
  | _ => return (.ident name, n)

/-- A token that its first character decides, alone or with the characters
    behind it. -/
def scanSymbol (c : Char) (rest : List Char) : Except Fault (Token × Nat) :=
  match c, rest with
  | '#', rest =>
    if Name.continues rest then do
      let (name, n) ← scanName rest
      return (.hash name (if Name.starts rest then .id else .unrestricted), n + 1)
    else .ok (.delim '#', 1)
  | '@', rest =>
    if Name.starts rest then do
      let (name, n) ← scanName rest
      return (.atKeyword name, n + 1)
    else .ok (.delim '@', 1)
  | '<', '!' :: '-' :: '-' :: _ => .ok (.commentOpen, 4)
  | '\\', rest => .error ⟨.escapedLineFeed, '\\' :: rest⟩
  | ':', _ => .ok (.colon, 1)
  | ';', _ => .ok (.semicolon, 1)
  | ',', _ => .ok (.comma, 1)
  | '[', _ => .ok (.openSquare, 1)
  | ']', _ => .ok (.closeSquare, 1)
  | '(', _ => .ok (.openParen, 1)
  | ')', _ => .ok (.closeParen, 1)
  | '{', _ => .ok (.openBrace, 1)
  | '}', _ => .ok (.closeBrace, 1)
  | c, _ => .ok (.delim c, 1)

/-- The token at the front of the text. A run of blanks and of comments between
    them is one token. -/
def scan : List Char → Except Fault (Token × Nat)
  | [] => .ok (.eof, 0)
  | c :: rest =>
    if isBlank c then do
      let n ← Comment.sizeWithBlanks rest
      return (.whitespace, n + 1)
    else if QuotedString.isQuote c then
      match QuotedString.read c rest with
      | .error reason => .error ⟨reason, c :: rest⟩
      | .ok (text, n) => .ok (.string (String.ofList text), n + 1)
    else if Numeral.starts (c :: rest) then scanNumeric (c :: rest)
    else
      match c, rest with
      | '-', '-' :: '>' :: _ => .ok (.commentClose, 3)
      | c, rest =>
        if Name.starts (c :: rest) then scanIdentLike (c :: rest) else scanSymbol c rest

theorem read_of_scanName {text : List Char} {name : String} {n : Nat}
    (h : scanName text = .ok (name, n)) : Name.read text = some (name.toList, n) := by
  unfold scanName at h
  split at h
  · cases h
  · next hread =>
    cases h
    rw [hread, String.toList_ofList]

theorem scanName_pos {text : List Char} {name : String} {n : Nat} (hcont : Name.continues text)
    (h : scanName text = .ok (name, n)) : 0 < n :=
  Name.read_pos hcont (read_of_scanName h)

/-- The parts of what a number is read as. -/
theorem scanNumeric_eq_ok {text : List Char} {token : Token} {n : Nat}
    (h : scanNumeric text = .ok (token, n)) :
    (∃ unit k, token = .dimension (Numeral.read text).1 unit ∧
        Name.starts (Numeral.read text).2 = true ∧
        scanName (Numeral.read text).2 = .ok (unit, k) ∧
        n = (Numeral.read text).1.text.length + k) ∨
      (token = .percentage (Numeral.read text).1 ∧ (Numeral.read text).2.head? = some '%' ∧
        n = (Numeral.read text).1.text.length + 1) ∨
      (token = .number (Numeral.read text).1 ∧ Name.starts (Numeral.read text).2 = false ∧
        (Numeral.read text).2.head? ≠ some '%' ∧ n = (Numeral.read text).1.text.length) := by
  unfold scanNumeric at h
  dsimp only at h
  split at h
  · next hstart =>
    obtain ⟨⟨unit, k⟩, hname, hpure⟩ := exists_of_bind_eq_ok h
    cases hpure
    exact .inl ⟨unit, k, rfl, hstart, hname, rfl⟩
  · next hstart =>
    split at h
    · next hpercent =>
      cases h
      exact .inr (.inl ⟨rfl, hpercent, rfl⟩)
    · next hpercent =>
      cases h
      exact .inr (.inr ⟨rfl, by simpa using hstart, hpercent, rfl⟩)

/-- Behind the name of an address there is a quote, or the address. -/
theorem scanUrl_eq_ok {start text : List Char} {name : String} {token : Token} {n : Nat}
    (h : scanUrl start name text = .ok (token, n)) :
    (Url.isQuoted text = true ∧ token = .function name ∧ n = Url.leadingBlanks text - 1) ∨
      ∃ address, token = .url (String.ofList address) ∧ Url.read start text = .ok (address, n) := by
  unfold scanUrl at h
  split at h
  · next hquoted =>
    cases h
    exact .inl ⟨hquoted, rfl, rfl⟩
  · obtain ⟨⟨address, k⟩, hread, hpure⟩ := exists_of_bind_eq_ok h
    cases hpure
    exact .inr ⟨address, rfl, hread⟩

/-- A name is read first, and its parenthesis decides what it belongs to. -/
theorem scanIdentLike_eq_ok {text : List Char} {token : Token} {n : Nat}
    (h : scanIdentLike text = .ok (token, n)) :
    ∃ name k, scanName text = .ok (name, k) ∧
      ((∃ after m, text.drop k = '(' :: after ∧ asciiLower name = "url" ∧
          scanUrl text name after = .ok (token, m) ∧ n = k + 1 + m) ∨
        (∃ after, text.drop k = '(' :: after ∧ asciiLower name ≠ "url" ∧
          token = .function name ∧ n = k + 1) ∨
        ((∀ after, text.drop k ≠ '(' :: after) ∧ token = .ident name ∧ n = k)) := by
  obtain ⟨⟨name, k⟩, hname, hrest⟩ := exists_of_bind_eq_ok h
  refine ⟨name, k, hname, ?_⟩
  dsimp only at hrest
  split at hrest
  · next after hparen =>
    split at hrest
    · next hurl =>
      obtain ⟨⟨found, m⟩, hread, hpure⟩ := exists_of_bind_eq_ok hrest
      cases hpure
      exact .inl ⟨after, m, hparen, hurl, hread, rfl⟩
    · next hurl =>
      cases hrest
      exact .inr (.inl ⟨after, hparen, hurl, rfl, rfl⟩)
  · next hparen =>
    cases hrest
    exact .inr (.inr ⟨hparen, rfl, rfl⟩)

theorem scanNumeric_pos {text : List Char} {token : Token} {n : Nat} (hstart : Numeral.starts text)
    (h : scanNumeric text = .ok (token, n)) : 0 < n := by
  have hpos := Numeral.text_length_pos hstart
  rcases scanNumeric_eq_ok h with ⟨_, _, -, -, -, rfl⟩ | ⟨-, -, rfl⟩ | ⟨-, -, -, rfl⟩ <;> omega

theorem scanIdentLike_pos {text : List Char} {token : Token} {n : Nat}
    (hcont : Name.continues text) (h : scanIdentLike text = .ok (token, n)) : 0 < n := by
  obtain ⟨name, k, hname, hcases⟩ := scanIdentLike_eq_ok h
  have hpos := scanName_pos hcont hname
  rcases hcases with ⟨_, _, -, -, -, rfl⟩ | ⟨_, -, -, -, rfl⟩ | ⟨-, -, rfl⟩ <;> omega

theorem scanSymbol_pos {c : Char} {text : List Char} {token : Token} {n : Nat}
    (h : scanSymbol c text = .ok (token, n)) : 0 < n := by
  unfold scanSymbol at h
  split at h
  case h_1 | h_2 =>
    split at h
    · obtain ⟨⟨name, k⟩, -, hpure⟩ := exists_of_bind_eq_ok h
      cases hpure
      omega
    · cases h
      omega
  case h_4 => simp at h
  all_goals
    cases h
    omega

/-- What starts a name also continues one. -/
theorem continues_of_starts {text : List Char} (h : Name.starts text) : Name.continues text := by
  unfold Name.starts at h
  split at h
  · simp [Name.continues, isNameChar]
  · simp [Name.continues, isNameChar]
  · simp [Name.continues, isNameChar]
  · simpa [Name.continues] using h
  · next c rest _ _ _ hescape =>
    have hc : c ≠ '\\' := hescape
    unfold Name.continues
    split
    · next heq => simp_all
    · next heq => simp_all [isNameChar]
    · simp_all
  · simp at h

/-- Every token but the last takes at least one character. -/
theorem scan_pos {text : List Char} {token : Token} {n : Nat} (hne : text ≠ [])
    (h : scan text = .ok (token, n)) : 0 < n := by
  unfold scan at h
  split at h
  · simp at hne
  · next c tail =>
    split at h
    · obtain ⟨k, -, hpure⟩ := exists_of_bind_eq_ok h
      cases hpure
      omega
    · split at h
      · split at h
        · simp at h
        · cases h
          omega
      · split at h
        · next hstart => exact scanNumeric_pos hstart h
        · split at h
          · cases h
            omega
          · split at h
            · next hstart => exact scanIdentLike_pos (continues_of_starts hstart) h
            · exact scanSymbol_pos h

end DeepScope.Token
