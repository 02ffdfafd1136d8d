import DeepScope.Proofs.Token.Cases
import DeepScope.Proofs.Token.Settled
import DeepScope.Proofs.Token.Stream

namespace DeepScope

namespace Token

variable {text more : List Char} {token : Token} {n : Nat}

theorem scanName_more {name : String} (h : scanName text = .ok (name, n))
    (hrest : Bounded (text.drop n) more) : scanName (text ++ more) = .ok (name, n) := by
  rw [scanName, Name.read_append (read_of_scanName h) hrest]
  simp only [String.ofList_toList]

theorem scanNumeric_more (hstart : Numeral.starts text = true)
    (h : scanNumeric text = .ok (token, n)) (hrest : Firm (text.drop n) more) :
    scanNumeric (text ++ more) = .ok (token, n) := by
  have hsplit : ∀ k, text.drop ((Numeral.read text).1.text.length + k) =
      (Numeral.read text).2.drop k := by
    intro k
    have hdrop : text.drop (Numeral.read text).1.text.toList.length = (Numeral.read text).2 := by
      have hfront := @List.drop_left _ (Numeral.read text).1.text.toList (Numeral.read text).2
      rwa [Numeral.read_append] at hfront
    rw [← List.drop_drop, ← String.length_toList, hdrop]
  have hfirm : Firm (Numeral.read text).2 more := by
    rcases scanNumeric_eq_ok h with ⟨_, k, -, -, -, rfl⟩ | ⟨-, -, rfl⟩ | ⟨-, -, -, rfl⟩
    · rw [hsplit] at hrest
      exact hrest.of_drop
    · rw [hsplit] at hrest
      exact hrest.of_drop
    · rwa [← Nat.add_zero (Numeral.read text).1.text.length, hsplit] at hrest
  unfold scanNumeric at h ⊢
  rw [Numeral.read_append_of_firm hstart hfirm]
  dsimp only at h ⊢
  rw [Name.starts_append_of_firm hfirm]
  simp only [hfirm.bounded.head?_eq_some_iff (by decide : '%' ≠ '/')]
  split at h
  · next hname =>
    obtain ⟨⟨unit, k⟩, hunit, hpure⟩ := exists_of_bind_eq_ok h
    cases hpure
    rw [hsplit] at hrest
    rw [if_pos hname, scanName_more hunit hrest.bounded]
    rfl
  · next hname =>
    rw [if_neg hname]
    exact h

theorem scanUrl_more {start start' : List Char} {name : String}
    (h : scanUrl start name text = .ok (token, n)) (more : List Char) :
    scanUrl start' name (text ++ more) = .ok (token, n) := by
  have hne : text.dropWhile isBlank ≠ [] := by
    intro hnil
    unfold scanUrl Url.isQuoted Url.read at h
    rw [hnil, Url.readAddress] at h
    cases h
  unfold scanUrl at h ⊢
  rw [Url.isQuoted_append hne, (Url.dropWhile_append_of_ne_nil hne more).2]
  split at h
  · next hquoted =>
    rw [if_pos hquoted]
    exact h
  · next hquoted =>
    obtain ⟨⟨address, k⟩, hread, hpure⟩ := exists_of_bind_eq_ok h
    cases hpure
    rw [if_neg hquoted, Url.read_append hread more]
    rfl

theorem scanIdentLike_more (h : scanIdentLike text = .ok (token, n))
    (hrest : Firm (text.drop n) more) : scanIdentLike (text ++ more) = .ok (token, n) := by
  obtain ⟨name, k, hname, hcases⟩ := scanIdentLike_eq_ok h
  have hparen : ∀ {after}, text.drop k = '(' :: after →
      scanName (text ++ more) = .ok (name, k) ∧ (text ++ more).drop k = '(' :: (after ++ more) := by
    intro after hafter
    have hlt : k < text.length := by
      refine Decidable.byContradiction fun hle => ?_
      rw [List.drop_eq_nil_of_le (Nat.le_of_not_lt hle)] at hafter
      cases hafter
    refine ⟨scanName_more hname (.of_lt hlt more), ?_⟩
    rw [List.drop_append_of_le_length (Nat.le_of_lt hlt), hafter]
    rfl
  unfold scanIdentLike
  rcases hcases with ⟨after, m, hafter, hurl, hread, rfl⟩ | ⟨after, hafter, hurl, rfl, rfl⟩ |
    ⟨hno, rfl, rfl⟩
  · rw [(hparen hafter).1]
    simp only [bind, Except.bind, (hparen hafter).2]
    rw [if_pos hurl, scanUrl_more hread more]
    rfl
  · rw [(hparen hafter).1]
    simp only [bind, Except.bind, (hparen hafter).2]
    rw [if_neg hurl]
    rfl
  · rw [scanName_more hname hrest.bounded]
    simp only [bind, Except.bind, List.drop_append_of_le_length (scanName_le hname)]
    split
    · next after heq =>
      have hhead : (text.drop n).head? = some '(' := by
        rw [← hrest.bounded.head?_eq_some_iff (by decide), heq]
        rfl
      obtain ⟨tail, htail⟩ := List.head?_eq_some_iff.1 hhead
      exact absurd htail (hno tail)
    · rfl

theorem scanSymbol_hash (rest : List Char) :
    scanSymbol '#' rest =
      if Name.continues rest then
        (scanName rest).map fun (name, n) =>
          (.hash name (if Name.starts rest then .id else .unrestricted), n + 1)
      else .ok (.delim '#', 1) := by
  show (if _ then _ else _) = _
  cases scanName rest <;> rfl

theorem scanSymbol_at (rest : List Char) :
    scanSymbol '@' rest =
      if Name.starts rest then (scanName rest).map fun (name, n) => (.atKeyword name, n + 1)
      else .ok (.delim '@', 1) := by
  show (if _ then _ else _) = _
  cases scanName rest <;> rfl

/-- Behind most symbols nothing is looked at. -/
theorem scanSymbol_congr {c : Char} {rest rest' : List Char} (hhash : c ≠ '#') (hat : c ≠ '@')
    (hslash : c ≠ '\\')
    (hopen : c = '<' → (['!', '-', '-'] <+: rest ↔ ['!', '-', '-'] <+: rest')) :
    scanSymbol c rest = scanSymbol c rest' := by
  by_cases hc : c = '<'
  · subst hc
    have hcases : ∀ text, scanSymbol '<' text =
        if ['!', '-', '-'] <+: text then .ok (.commentOpen, 4) else .ok (.delim '<', 1) := by
      intro text
      split
      · next hmark =>
        obtain ⟨tail, rfl⟩ := hmark
        rfl
      · next hmark =>
        unfold scanSymbol
        split <;> simp_all
    rw [hcases, hcases]
    simp only [hopen rfl]
  · unfold scanSymbol
    split <;> simp_all

theorem scanSymbol_more {c : Char} {rest : List Char} (h : scanSymbol c rest = .ok (token, n))
    (hrest : Firm ((c :: rest).drop n) more) : scanSymbol c (rest ++ more) = .ok (token, n) := by
  have hfirm : Firm rest more := by
    obtain ⟨m, rfl⟩ := Nat.exists_eq_add_of_lt (scanSymbol_pos h)
    rw [Nat.zero_add, List.drop_succ_cons] at hrest
    exact hrest.of_drop
  by_cases hhash : c = '#'
  · subst hhash
    rw [scanSymbol_hash] at h ⊢
    rw [Name.continues_append_of_firm hfirm, Name.starts_append_of_firm hfirm]
    split at h
    · next hcontinues =>
      obtain ⟨⟨name, k⟩, hname, hpair⟩ := exists_of_map_eq_ok h
      cases hpair
      rw [List.drop_succ_cons] at hrest
      rw [if_pos hcontinues, scanName_more hname hrest.bounded]
      rfl
    · next hcontinues =>
      rw [if_neg hcontinues]
      exact h
  · by_cases hat : c = '@'
    · subst hat
      rw [scanSymbol_at] at h ⊢
      rw [Name.starts_append_of_firm hfirm]
      split at h
      · next hstarts =>
        obtain ⟨⟨name, k⟩, hname, hpair⟩ := exists_of_map_eq_ok h
        cases hpair
        rw [List.drop_succ_cons] at hrest
        rw [if_pos hstarts, scanName_more hname hrest.bounded]
        rfl
      · next hstarts =>
        rw [if_neg hstarts]
        exact h
    · have hslash : c ≠ '\\' := by
        rintro rfl
        cases h
      rw [← h]
      exact scanSymbol_congr hhash hat hslash fun _ =>
        prefix_append_of_firm hfirm (by decide) rfl (by decide) (.inr (by decide))

/-- A token with enough text left behind it, or a slash, is read as before,
    whatever stands behind that. Only white space goes on in a comment. -/
theorem scan_more (h : scan text = .ok (token, n)) (hend : token ≠ .eof)
    (hrest : Firm (text.drop n) more) (hgoes : token = .whitespace → text.drop n ≠ []) :
    scan (text ++ more) = .ok (token, n) := by
  have hfirm := hrest.of_drop
  cases text with
  | nil =>
    cases h
    exact absurd rfl hend
  | cons c rest =>
    rw [List.cons_append]
    unfold scan at h ⊢
    dsimp only at h ⊢
    rw [← List.cons_append, Numeral.starts_append_of_firm hfirm]
    split at h
    · next hblank =>
      obtain ⟨k, hsize, hpure⟩ := exists_of_bind_eq_ok h
      cases hpure
      rw [if_pos hblank, Comment.sizeWithBlanks_append hsize hrest (hgoes rfl)]
      rfl
    · next hblank =>
      rw [if_neg hblank]
      split at h
      · next hquote =>
        rw [if_pos hquote]
        split at h
        · cases h
        · next hread =>
          cases h
          rw [QuotedString.read_append hread more]
      · next hquote =>
        rw [if_neg hquote]
        split at h
        · next hnumber =>
          rw [if_pos hnumber]
          exact scanNumeric_more hnumber h hrest
        · next hnumber =>
          rw [if_neg hnumber]
          have hclose : ['-', '-', '>'] <+: c :: rest ++ more ↔ ['-', '-', '>'] <+: c :: rest :=
            prefix_append_of_firm hfirm (by decide) rfl (by decide) (.inr (by decide))
          split at h
          · exact h
          · next hno =>
            have hnot : ¬['-', '-', '>'] <+: c :: rest := by
              rintro ⟨tail, htail⟩
              cases htail
              exact hno tail rfl rfl
            split
            · next heq =>
              refine absurd (hclose.1 ?_) hnot
              rw [List.cons_append, heq]
              exact ⟨_, rfl⟩
            · rw [← List.cons_append, Name.starts_append_of_firm hfirm]
              split at h
              · next hname =>
                rw [if_pos hname]
                exact scanIdentLike_more h hrest
              · next hname =>
                rw [if_neg hname]
                exact scanSymbol_more h hrest

end Token

end DeepScope
