import DeepScope.Proofs.Token.Concat

namespace DeepScope

variable {text : List Char} {token : Token} {tokens : List Token} {n : Nat}

/-- The blanks in front of a quoted address are taken but for the last one. -/
theorem Url.drop_leadingBlanks (h : isQuoted text = true) :
    ∃ q rest, QuotedString.isQuote q = true ∧ (text.drop (leadingBlanks text - 1) = q :: rest ∨
      ∃ b, isBlank b = true ∧ text.drop (leadingBlanks text - 1) = b :: q :: rest) := by
  induction text with
  | nil => cases h
  | cons c text ih =>
    by_cases hblank : isBlank c = true
    · have hcount : leadingBlanks (c :: text) = leadingBlanks text + 1 := by
        simp [leadingBlanks, hblank]
      have hquoted : isQuoted text = true := by simpa [isQuoted, hblank] using h
      rw [hcount, Nat.add_sub_cancel]
      cases hzero : leadingBlanks text with
      | zero =>
        obtain ⟨q, rest, hq, hrest | ⟨b, hb, hrest⟩⟩ := ih hquoted
        · rw [hzero] at hrest
          exact ⟨q, rest, hq, .inr ⟨c, hblank, by rw [List.drop_zero, ← hrest]; rfl⟩⟩
        · rw [hzero] at hrest
          obtain rfl : text = b :: q :: rest := hrest
          simp [leadingBlanks, hb] at hzero
      | succ m =>
        rw [List.drop_succ_cons]
        have hrest := ih hquoted
        rwa [hzero, Nat.add_sub_cancel] at hrest
    · refine ⟨c, text, ?_, .inl ?_⟩
      · simpa [isQuoted, hblank] using h
      · simp [leadingBlanks, hblank]

theorem Token.isQuoted_of_scan (hurl : token.opensUrl = true) (h : scan text = .ok (token, n)) :
    ∃ after, Url.isQuoted after = true ∧ text.drop n = after.drop (Url.leadingBlanks after - 1) := by
  have hname : token.beginsName = true := by
    cases token <;> first | rfl | cases hurl
  have hscan := scanIdentLike_of_scan hname h
  obtain ⟨name, k, -, hcases⟩ := scanIdentLike_eq_ok hscan
  rcases hcases with ⟨after, m, hafter, -, hfound, rfl⟩ | ⟨_, -, hno, rfl, -⟩ | ⟨-, rfl, -⟩
  · rcases scanUrl_eq_ok hfound with ⟨hquoted, -, rfl⟩ | ⟨_, rfl, -⟩
    · refine ⟨after, hquoted, ?_⟩
      rw [← List.drop_drop, ← List.drop_drop, hafter]
      rfl
    · cases hurl
  · exact absurd (of_decide_eq_true hurl) hno
  · cases hurl

theorem Comment.sizeWithBlanks_of_isQuote {q : Char} (hq : QuotedString.isQuote q = true)
    (rest : List Char) : sizeWithBlanks (q :: rest) = .ok 0 := by
  simp only [QuotedString.isQuote, Bool.or_eq_true, decide_eq_true_eq] at hq
  rw [sizeWithBlanks_eq_zero_iff]
  rcases hq with rfl | rfl <;> exact ⟨rfl, by simp⟩

theorem Lexes.head_of_isQuote {q : Char} {rest : List Char} (hq : QuotedString.isQuote q = true)
    (h : Lexes (q :: rest) tokens) : ∃ value, tokens.head? = some (.string value) := by
  have hzero := Comment.sizeWithBlanks_of_isQuote hq rest
  have hread : ∀ {token left}, Token.Reads (q :: rest) token left →
      ∃ value, token = .string value := by
    rintro token left ⟨m, k, hsize, hscan, -⟩
    obtain rfl := Except.ok.inj ((Comment.size_of_sizeWithBlanks hzero).symm.trans hsize)
    obtain ⟨text, n, -, rfl, -⟩ := (Token.scan_quote_eq_ok_iff hq).1 hscan
    exact ⟨_, rfl⟩
  cases h with
  | last hfirst =>
    obtain ⟨value, hvalue⟩ := hread hfirst
    cases hvalue
  | step hfirst _ _ =>
    obtain ⟨value, rfl⟩ := hread hfirst
    exact ⟨value, rfl⟩

/-- A token that is no address keeps what stands behind it apart. -/
theorem head_dropBlank_of_append {front back : List Token} {between : Token} {value : String}
    (hblank : between ≠ .whitespace) (hstring : ∀ text, between ≠ .string text)
    (h : (dropBlank (front ++ between :: back)).head? = some (.string value)) :
    (dropBlank front).head? = some (.string value) := by
  cases front with
  | nil =>
    rw [List.nil_append, dropBlank_of_ne fun others heq => hblank (List.cons.inj heq).1] at h
    exact absurd (Option.some.inj h) (hstring value)
  | cons t rest =>
    by_cases ht : t = .whitespace
    · subst ht
      cases rest with
      | nil => exact absurd (Option.some.inj h) (hstring value)
      | cons u rest => exact h
    · rw [List.cons_append, dropBlank_of_ne fun others heq => ht (List.cons.inj heq).1] at h
      rw [dropBlank_of_ne fun others heq => ht (List.cons.inj heq).1]
      exact h

/-- Behind each function that reads an address, one in quotes follows, with white
    space before it or not. -/
def UrlsQuoted (tokens : List Token) : Prop :=
  ∀ token rest, token :: rest <:+ tokens → token.opensUrl = true →
    ∃ text, (dropBlank rest).head? = some (.string text)

namespace UrlsQuoted

variable {front back : List Token}

theorem of_suffix (h : UrlsQuoted tokens) (hsuffix : back <:+ tokens) : UrlsQuoted back :=
  fun token rest hrest hurl => h token rest (hrest.trans hsuffix) hurl

theorem of_append {between : Token} (hblank : between ≠ .whitespace)
    (hstring : ∀ text, between ≠ .string text) (h : UrlsQuoted (front ++ between :: back)) :
    UrlsQuoted front := by
  rintro token rest ⟨before, rfl⟩ hurl
  obtain ⟨text, htext⟩ := h token (rest ++ between :: back) ⟨before, by simp⟩ hurl
  exact ⟨text, head_dropBlank_of_append hblank hstring htext⟩

end UrlsQuoted

theorem Lexes.urlsQuoted (h : Lexes text tokens) : UrlsQuoted tokens := by
  induction h with
  | last =>
    intro token rest hrest hurl
    rcases List.suffix_cons_iff.1 hrest with heq | hrest
    · cases heq
      cases hurl
    · cases List.suffix_nil.1 hrest
  | @step text left first others hread hne hlexes ih =>
    intro token rest hrest hurl
    rcases List.suffix_cons_iff.1 hrest with heq | hrest
    · cases heq
      obtain ⟨m, k, -, hscan, rfl⟩ := hread
      obtain ⟨after, hquoted, hdrop⟩ := Token.isQuoted_of_scan hurl hscan
      rw [hdrop] at hlexes
      obtain ⟨q, back, hq, hback | ⟨b, hb, hback⟩⟩ := Url.drop_leadingBlanks hquoted
      · rw [hback] at hlexes
        obtain ⟨value, hvalue⟩ := hlexes.head_of_isQuote hq
        refine ⟨value, ?_⟩
        rw [dropBlank_of_ne]
        · exact hvalue
        · rintro others rfl
          cases hvalue
      · rw [hback] at hlexes
        obtain ⟨j, others, hj, hothers, rfl⟩ := hlexes.cons_blank_inv hb
        obtain rfl := Except.ok.inj ((Comment.sizeWithBlanks_of_isQuote hq back).symm.trans hj)
        exact hothers.head_of_isQuote hq
    · exact ih token rest hrest hurl

end DeepScope
