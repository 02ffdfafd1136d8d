import DeepScope.Proofs.Token.Scan
import DeepScope.Token.Adjacent

namespace DeepScope.Token

variable {text rest : List Char} {token : Token} {n : Nat}

theorem beginsName_of_scanIdentLike (h : scanIdentLike text = .ok (token, n)) :
    token.beginsName = true := by
  obtain ⟨name, k, -, hcases⟩ := scanIdentLike_eq_ok h
  rcases hcases with ⟨_, _, -, -, hurl, -⟩ | ⟨_, -, -, rfl, -⟩ | ⟨-, rfl, -⟩
  · rcases scanUrl_eq_ok hurl with ⟨-, rfl, -⟩ | ⟨_, rfl, -⟩ <;> rfl
  · rfl
  · rfl

theorem beginsNumber_of_scanNumeric (h : scanNumeric text = .ok (token, n)) :
    token.beginsNumber = true := by
  rcases scanNumeric_eq_ok h with ⟨_, _, rfl, -⟩ | ⟨rfl, -⟩ | ⟨rfl, -⟩ <;> rfl

/-- The tokens that only a symbol begins. -/
def isSymbol : Token → Bool
  | atKeyword _ | hash .. | delim _ | commentOpen | colon | semicolon | comma | openSquare
  | closeSquare | openParen | closeParen | openBrace | closeBrace => true
  | _ => false

/-- The tokens that are always written alike. -/
def isFixed : Token → Bool
  | delim _ | commentOpen | commentClose | colon | semicolon | comma | openSquare | closeSquare
  | openParen | closeParen | openBrace | closeBrace => true
  | _ => false

theorem scanSymbol_cases {c : Char} (h : scanSymbol c rest = .ok (token, n)) :
    token.isSymbol = true ∧
      (token.isFixed = true → token.chars <+: c :: rest ∧ n = token.chars.length) := by
  unfold scanSymbol at h
  split at h
  case h_1 | h_2 =>
    split at h
    · obtain ⟨⟨name, k⟩, -, hpure⟩ := exists_of_bind_eq_ok h
      cases hpure
      exact ⟨rfl, nofun⟩
    · cases h
      exact ⟨rfl, fun _ => ⟨⟨_, rfl⟩, rfl⟩⟩
  case h_4 => cases h
  all_goals
    cases h
    exact ⟨rfl, fun _ => ⟨⟨_, rfl⟩, rfl⟩⟩

/-- How a token is found at the front of a text. -/
inductive Found : List Char → Token → Nat → Prop where
  | eof : Found [] .eof 0
  | whitespace {c : Char} {rest : List Char} {n : Nat} :
    isBlank c = true → Comment.sizeWithBlanks rest = .ok n → Found (c :: rest) .whitespace (n + 1)
  | string {text : List Char} {value : String} {n : Nat} : Found text (.string value) n
  | number {text : List Char} {token : Token} {n : Nat} :
    Numeral.starts text = true → scanNumeric text = .ok (token, n) → Found text token n
  | commentClose {rest : List Char} : Found ('-' :: '-' :: '>' :: rest) .commentClose 3
  | name {text : List Char} {token : Token} {n : Nat} :
    Name.starts text = true → scanIdentLike text = .ok (token, n) → Found text token n
  | symbol {c : Char} {rest : List Char} {token : Token} {n : Nat} :
    scanSymbol c rest = .ok (token, n) → Found (c :: rest) token n

theorem found_of_scan (h : scan text = .ok (token, n)) : Found text token n := by
  cases text with
  | nil =>
    cases h
    exact .eof
  | cons c rest =>
    unfold scan at h
    dsimp only at h
    split at h
    · next hblank =>
      obtain ⟨k, hsize, hpure⟩ := exists_of_bind_eq_ok h
      cases hpure
      exact .whitespace hblank hsize
    · split at h
      · split at h <;> cases h
        exact .string
      · split at h
        · next hnumber => exact .number hnumber h
        · split at h
          · cases h
            exact .commentClose
          · split at h
            · next hname => exact .name hname h
            · exact .symbol h

/-- The end is read only where the text ends. -/
theorem eq_nil_of_scan (h : scan text = .ok (.eof, n)) : text = [] := by
  cases found_of_scan h with
  | eof => rfl
  | number _ h => cases beginsNumber_of_scanNumeric h
  | name _ h => cases beginsName_of_scanIdentLike h
  | symbol h => cases (scanSymbol_cases h).1

theorem scanNumeric_of_scan (hnumber : token.beginsNumber = true)
    (h : scan text = .ok (token, n)) : scanNumeric text = .ok (token, n) := by
  cases found_of_scan h with
  | number _ h => exact h
  | name _ h =>
    have hname := beginsName_of_scanIdentLike h
    cases token <;> cases hnumber <;> cases hname
  | symbol h =>
    have hsymbol := (scanSymbol_cases h).1
    cases token <;> cases hnumber <;> cases hsymbol
  | _ => cases hnumber

theorem scanIdentLike_of_scan (hname : token.beginsName = true) (h : scan text = .ok (token, n)) :
    scanIdentLike text = .ok (token, n) := by
  cases found_of_scan h with
  | name _ h => exact h
  | number _ h =>
    have hnumber := beginsNumber_of_scanNumeric h
    cases token <;> cases hname <;> cases hnumber
  | symbol h =>
    have hsymbol := (scanSymbol_cases h).1
    cases token <;> cases hname <;> cases hsymbol
  | _ => cases hname

/-- White space is read only where a blank stands. -/
theorem isBlank_of_scan (h : scan text = .ok (.whitespace, n)) :
    ∃ c rest, text = c :: rest ∧ isBlank c = true := by
  cases found_of_scan h with
  | whitespace hblank _ => exact ⟨_, _, rfl, hblank⟩
  | number _ h => cases beginsNumber_of_scanNumeric h
  | name _ h => cases beginsName_of_scanIdentLike h
  | symbol h => cases (scanSymbol_cases h).1

/-- A token that is always written alike stands in the text. -/
theorem prefix_of_scan_fixed (hfixed : token.isFixed = true) (h : scan text = .ok (token, n)) :
    token.chars <+: text ∧ n = token.chars.length := by
  cases found_of_scan h with
  | commentClose => exact ⟨⟨_, rfl⟩, rfl⟩
  | symbol h => exact (scanSymbol_cases h).2 hfixed
  | number _ h =>
    have hnumber := beginsNumber_of_scanNumeric h
    cases token <;> cases hfixed <;> cases hnumber
  | name _ h =>
    have hname := beginsName_of_scanIdentLike h
    cases token <;> cases hfixed <;> cases hname
  | _ => cases hfixed

theorem scanName_le {name : String} (h : scanName text = .ok (name, n)) : n ≤ text.length :=
  Name.read_le (read_of_scanName h)

theorem scanNumeric_le (h : scanNumeric text = .ok (token, n)) : n ≤ text.length := by
  have hlength := congrArg List.length (Numeral.read_append text)
  rw [List.length_append, String.length_toList] at hlength
  rcases scanNumeric_eq_ok h with ⟨unit, k, -, -, hname, rfl⟩ | ⟨-, hpercent, rfl⟩ | ⟨-, -, -, rfl⟩
  · have := scanName_le hname
    omega
  · obtain ⟨rest, hrest⟩ := List.head?_eq_some_iff.1 hpercent
    rw [hrest, List.length_cons] at hlength
    omega
  · omega

theorem scanUrl_le {start : List Char} {name : String} (h : scanUrl start name text = .ok (token, n)) :
    n ≤ text.length := by
  rcases scanUrl_eq_ok h with ⟨-, -, rfl⟩ | ⟨address, -, hread⟩
  · have := Url.leadingBlanks_add text
    omega
  · exact Url.read_le hread

theorem scanIdentLike_le (h : scanIdentLike text = .ok (token, n)) : n ≤ text.length := by
  obtain ⟨name, k, hname, hcases⟩ := scanIdentLike_eq_ok h
  have hle := scanName_le hname
  have hparen : ∀ {after}, text.drop k = '(' :: after → text.length = k + 1 + after.length := by
    intro after hafter
    have hlength := congrArg List.length hafter
    rw [List.length_drop, List.length_cons] at hlength
    omega
  rcases hcases with ⟨after, m, hafter, -, hurl, rfl⟩ | ⟨after, hafter, -, -, rfl⟩ | ⟨-, -, rfl⟩
  · have := scanUrl_le hurl
    rw [hparen hafter]
    omega
  · rw [hparen hafter]
    omega
  · exact hle

theorem scanSymbol_le {c : Char} (h : scanSymbol c text = .ok (token, n)) : n ≤ text.length + 1 := by
  unfold scanSymbol at h
  split at h
  case h_1 | h_2 =>
    split at h
    · obtain ⟨⟨name, k⟩, hname, hpure⟩ := exists_of_bind_eq_ok h
      cases hpure
      exact Nat.succ_le_succ (scanName_le hname)
    · cases h
      omega
  case h_4 => cases h
  all_goals
    cases h
    simp

/-- A token ends where the text does, at the latest. -/
theorem scan_le (h : scan text = .ok (token, n)) : n ≤ text.length := by
  unfold scan at h
  split at h
  · cases h
    exact Nat.le_refl _
  · next c rest =>
    split at h
    · obtain ⟨k, hsize, hpure⟩ := exists_of_bind_eq_ok h
      cases hpure
      exact Nat.succ_le_succ (Comment.sizeWithBlanks_le hsize)
    · split at h
      · split at h
        · cases h
        · next hread =>
          cases h
          exact Nat.succ_le_succ (QuotedString.read_le hread)
      · split at h
        · exact scanNumeric_le h
        · split at h
          · cases h
            simp
          · split at h
            · exact scanIdentLike_le h
            · exact scanSymbol_le h

end DeepScope.Token
