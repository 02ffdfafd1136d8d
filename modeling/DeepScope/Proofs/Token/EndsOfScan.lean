import DeepScope.Proofs.Token.Adjoin
import DeepScope.Proofs.Token.Cases

namespace DeepScope.Token

section

variable {rest : List Char} {name : String} {n : Nat}

theorem scanUrl_ne_ident {start text : List Char} {name found : String} {k : Nat} :
    scanUrl start name text ≠ .ok (.ident found, k) := by
  intro h
  rcases scanUrl_eq_ok h with ⟨-, heq, -⟩ | ⟨_, heq, -⟩ <;> cases heq

theorem ends_of_scan_ident (h : IsName name)
    (hscan : scan (Name.write name.toList ++ rest) = .ok (.ident name, n)) :
    (ident name).Ends rest := by
  have hclose : ¬['-', '-', '>'] <+: Name.write name.toList ++ rest := by
    rintro ⟨more, hmore⟩
    rw [← hmore] at hscan
    cases hscan
  rw [scan_name (Name.starts_write_append h.1 h.2 rest) hclose] at hscan
  refine ⟨?_, fun hparen => ?_, ?_⟩
  · rw [Bool.eq_false_iff]
    intro hcont
    obtain ⟨found, k, hname, hcases⟩ := scanIdentLike_eq_ok hscan
    rcases hcases with ⟨_, _, -, -, hurl, -⟩ | ⟨_, -, -, heq, -⟩ | ⟨-, heq, -⟩
    · exact scanUrl_ne_ident hurl
    · cases heq
    · cases heq
      exact ne_of_scanName (Name.spells_write h.2) hcont hname rfl
  · obtain ⟨more, rfl⟩ := List.head?_eq_some_iff.1 hparen
    rw [scanIdentLike_append_paren (Name.spells_write h.2)] at hscan
    split at hscan
    · obtain ⟨⟨token, m⟩, hurl, heq⟩ := exists_of_map_eq_ok hscan
      obtain rfl := (Prod.mk.inj heq).1
      exact scanUrl_ne_ident hurl
    · cases hscan
  · rintro rfl hhead
    obtain ⟨more, rfl⟩ := List.head?_eq_some_iff.1 hhead
    exact hclose ⟨more, rfl⟩

theorem ends_of_scan_number {value : Numeral} (h : value.Proper)
    (hscan : scan (value.text.toList ++ rest) = .ok (.number value, n)) :
    (number value).Ends rest := by
  rw [scan_number (h.starts_append rest)] at hscan
  have happend := Numeral.read_append (value.text.toList ++ rest)
  rcases scanNumeric_eq_ok hscan with ⟨unit, k, heq, -⟩ | ⟨heq, -⟩ |
      ⟨heq, hstart, hpercent, -⟩
  · cases heq
  · cases heq
  · have hvalue := (Token.number.inj heq).symm
    rw [hvalue] at happend
    have hrest := List.append_cancel_left happend
    rw [hrest] at hstart hpercent
    exact ⟨h.read_append_iff.1 (Prod.ext hvalue hrest), hstart, hpercent⟩

theorem ends_of_scan_dimension {value : Numeral} {unit : String} (h : value.Proper)
    (hunit : IsName unit)
    (hscan : scan (value.text.toList ++ (Name.writeUnit unit.toList ++ rest)) =
      .ok (.dimension value unit, n)) :
    (dimension value unit).Ends rest := by
  rw [scan_number (h.starts_append _)] at hscan
  have happend := Numeral.read_append (value.text.toList ++ (Name.writeUnit unit.toList ++ rest))
  rcases scanNumeric_eq_ok hscan with ⟨found, k, heq, hstart, hname, -⟩ | ⟨heq, -⟩ | ⟨heq, -⟩
  · obtain ⟨hvalue, hfound⟩ := Token.dimension.inj heq
    rw [← hvalue] at happend
    have hrest := List.append_cancel_left happend
    refine ⟨h.read_append_iff.1 (Prod.ext hvalue.symm hrest), ?_⟩
    rw [Bool.eq_false_iff]
    intro hcont
    rw [hrest] at hname
    exact ne_of_scanName (Name.spells_writeUnit hunit.2) hcont hname hfound.symm
  · cases heq
  · cases heq

theorem ends_of_scan_atKeyword (h : IsName name)
    (hscan : scan ('@' :: (Name.write name.toList ++ rest)) =
      .ok (.atKeyword name, n)) : (atKeyword name).Ends rest := by
  rw [scan_symbol rfl rfl rfl rfl] at hscan
  simp only [scanSymbol] at hscan
  rw [if_pos (Name.starts_write_append h.1 h.2 rest)] at hscan
  obtain ⟨⟨found, k⟩, hname, hpure⟩ := exists_of_bind_eq_ok hscan
  have hfound := Token.atKeyword.inj (Prod.mk.inj (Except.ok.inj hpure)).1
  exact Bool.eq_false_iff.2 fun hcont =>
    ne_of_scanName (Name.spells_write h.2) hcont hname hfound

theorem ends_of_scan_hash {text : List Char} {kind : HashKind}
    (h : Name.Spells text name.toList)
    (hscan : scan ('#' :: (text ++ rest)) = .ok (.hash name kind, n)) :
    (hash name kind).Ends rest := by
  rw [scan_symbol rfl rfl rfl rfl] at hscan
  simp only [scanSymbol] at hscan
  split at hscan
  · obtain ⟨⟨found, k⟩, hname, hpure⟩ := exists_of_bind_eq_ok hscan
    have hfound := (Token.hash.inj (Prod.mk.inj (Except.ok.inj hpure)).1).1
    exact Bool.eq_false_iff.2 fun hcont => ne_of_scanName h hcont hname hfound
  · cases hscan

theorem ends_of_scan_delim {c : Char} (h : IsDelim c) (hsize : Comment.size (c :: rest) = .ok 0)
    (hscan : scan (c :: rest) = .ok (.delim c, n)) : (delim c).Ends rest := by
  have hnumber : Numeral.starts (c :: rest) = false := by
    rw [Bool.eq_false_iff]
    intro hnumber
    rw [scan_number hnumber] at hscan
    cases beginsNumber_of_scanNumeric hscan
  have hname : Name.starts (c :: rest) = false := by
    rw [Bool.eq_false_iff]
    intro hname
    rw [scan_name hname] at hscan
    · cases beginsName_of_scanIdentLike hscan
    · rintro ⟨more, hmore⟩
      rw [← hmore] at hscan
      cases hscan
  rw [scan_symbol h.1 h.2.1 hnumber hname] at hscan
  refine ⟨hnumber, hname, ?_, ?_, ?_, ?_⟩
  · rintro rfl
    rw [Bool.eq_false_iff]
    intro hcont
    simp only [scanSymbol] at hscan
    rw [if_pos hcont] at hscan
    obtain ⟨_, -, hpure⟩ := exists_of_bind_eq_ok hscan
    cases hpure
  · rintro rfl
    rw [Bool.eq_false_iff]
    intro hstart
    simp only [scanSymbol] at hscan
    rw [if_pos hstart] at hscan
    obtain ⟨_, -, hpure⟩ := exists_of_bind_eq_ok hscan
    cases hpure
  · rintro rfl hhead
    obtain ⟨more, rfl⟩ := List.head?_eq_some_iff.1 hhead
    rw [Comment.size] at hsize
    split at hsize
    · cases hsize
    · obtain ⟨k, -, hpure⟩ := exists_of_bind_eq_ok hsize
      have hlen := Except.ok.inj hpure
      omega
  · rintro rfl ⟨more, rfl⟩
    cases hscan

end

/-- Only a text that leaves a token as it is lets it be read as itself. A blank
    is read with those behind it, and a function that opens an address with
    those in front of the address. -/
theorem ends_of_scan {token : Token} {rest : List Char} {n : Nat} (hlegible : token.Legible)
    (hblank : token ≠ .whitespace) (hend : token ≠ .eof) (hurl : token.opensUrl = false)
    (hsize : Comment.size (token.chars ++ rest) = .ok 0)
    (hscan : scan (token.chars ++ rest) = .ok (token, n)) : token.Ends rest := by
  cases token with
  | ident name => exact ends_of_scan_ident hlegible hscan
  | function name => exact fun hname => by simp [opensUrl, hname] at hurl
  | atKeyword name => exact ends_of_scan_atKeyword hlegible hscan
  | hash name kind =>
    cases kind with
    | id => exact ends_of_scan_hash (Name.spells_write hlegible.2) hscan
    | unrestricted => exact ends_of_scan_hash (Name.spells_writeLoose hlegible.1) hscan
  | delim c => exact ends_of_scan_delim hlegible hsize hscan
  | number value => exact ends_of_scan_number hlegible hscan
  | dimension value unit =>
    rw [chars, List.append_assoc] at hscan
    exact ends_of_scan_dimension hlegible.1 hlegible.2 hscan
  | whitespace => exact absurd rfl hblank
  | eof => exact absurd rfl hend
  | _ => trivial

end DeepScope.Token
