import DeepScope.Proofs.Token.Adjoin
import DeepScope.Token.Stream

namespace DeepScope

/-- The first token of a text, behind the comments there, and the text that is
    left behind it. -/
def Token.Reads (text : List Char) (token : Token) (rest : List Char) : Prop :=
  ∃ n k, Comment.size text = .ok n ∧ scan (text.drop n) = .ok (token, k) ∧
    rest = (text.drop n).drop k

/-- A text is read as a list of tokens, the end included. -/
inductive Lexes : List Char → List Token → Prop where
  | last {text rest : List Char} : Token.Reads text .eof rest → Lexes text [.eof]
  | step {text rest : List Char} {token : Token} {tokens : List Token} :
    Token.Reads text token rest → token ≠ .eof → Lexes rest tokens → Lexes text (token :: tokens)

theorem Token.Reads.unique {text rest rest' : List Char} {token token' : Token}
    (h : Reads text token rest) (h' : Reads text token' rest') : token = token' ∧ rest = rest' := by
  obtain ⟨n, k, hsize, hscan, rfl⟩ := h
  obtain ⟨n', k', hsize', hscan', rfl⟩ := h'
  obtain rfl := Except.ok.inj (hsize.symm.trans hsize')
  obtain ⟨rfl, rfl⟩ := Prod.mk.inj (Except.ok.inj (hscan.symm.trans hscan'))
  exact ⟨rfl, rfl⟩

namespace Lexes

variable {text rest : List Char} {tokens tokens' : List Token} {token : Token}

theorem unique (h : Lexes text tokens) (h' : Lexes text tokens') : tokens = tokens' := by
  induction h generalizing tokens' with
  | last hread =>
    cases h' with
    | last => rfl
    | step hread' hne => exact absurd (hread.unique hread').1.symm hne
  | step hread hne _ ih =>
    cases h' with
    | last hread' => exact absurd (hread.unique hread').1 hne
    | step hread' _ hrest =>
      obtain ⟨rfl, rfl⟩ := hread.unique hread'
      rw [ih hrest]

/-- The end is read last, and nowhere else. -/
theorem exists_append_eof (h : Lexes text tokens) : ∃ front, tokens = front ++ [.eof] ∧ .eof ∉ front := by
  induction h with
  | last => exact ⟨[], rfl, List.not_mem_nil⟩
  | @step _ _ token _ _ hne _ ih =>
    obtain ⟨front, rfl, hnot⟩ := ih
    exact ⟨token :: front, rfl, by simp [hnot, Ne.symm hne]⟩

theorem legible (h : Lexes text tokens) (hclean : ∀ c ∈ text, Source.IsClean c) :
    ∀ token ∈ tokens, token.Legible := by
  have hdrop : ∀ {text : List Char} n, (∀ c ∈ text, Source.IsClean c) →
      ∀ c ∈ text.drop n, Source.IsClean c :=
    fun n hclean c hc => hclean c (List.mem_of_mem_drop hc)
  induction h with
  | last =>
    intro token htoken
    rw [List.mem_singleton.1 htoken]
    trivial
  | step hread _ _ ih =>
    obtain ⟨n, k, -, hscan, rfl⟩ := hread
    intro token htoken
    rcases List.mem_cons.1 htoken with rfl | htoken
    · exact Token.legible_of_scan (hdrop n hclean) hscan
    · exact ih (hdrop k (hdrop n hclean)) token htoken

theorem nil : Lexes [] [.eof] :=
  .last ⟨0, 0, Comment.size_eq_zero (by simp), rfl, rfl⟩

/-- A written token is read first, if the text behind it lets it end. -/
theorem cons_chars (hlegible : token.Legible) (hne : token ≠ .eof) (hends : token.Ends rest)
    (h : Lexes rest tokens) : Lexes (token.chars ++ rest) (token :: tokens) := by
  obtain ⟨hsize, hscan⟩ := Token.scan_chars_append hlegible hends
  refine .step ⟨0, token.chars.length, hsize, hscan, ?_⟩ hne h
  rw [List.drop_zero, List.drop_left]

/-- A written token that can end where it does is read first. -/
theorem of_chars_append (h : Lexes (token.chars ++ rest) tokens) (hlegible : token.Legible)
    (hne : token ≠ .eof) (hends : token.Ends rest) :
    ∃ more, tokens = token :: more ∧ Lexes rest more := by
  obtain ⟨hsize, hscan⟩ := Token.scan_chars_append hlegible hends
  have hreads : Token.Reads (token.chars ++ rest) token rest :=
    ⟨0, token.chars.length, hsize, hscan, by rw [List.drop_zero, List.drop_left]⟩
  cases h with
  | last hlast => exact absurd (hreads.unique hlast).1 hne
  | step hstep _ hmore =>
    obtain ⟨rfl, rfl⟩ := hreads.unique hstep
    exact ⟨_, rfl, hmore⟩

theorem chars_append_iff (hlegible : token.Legible) (hne : token ≠ .eof) (hends : token.Ends rest) :
    Lexes (token.chars ++ rest) tokens ↔ ∃ more, tokens = token :: more ∧ Lexes rest more := by
  constructor
  · exact fun h => h.of_chars_append hlegible hne hends
  · rintro ⟨more, rfl, hmore⟩
    exact hmore.cons_chars hlegible hne hends

end Lexes

namespace Cursor

theorem reads_of_next {cursor after : Cursor} {item : Located}
    (h : cursor.next = .ok (item, after)) : Token.Reads cursor.rest item.token after.rest := by
  unfold next at h
  split at h
  · cases h
  · next n hsize =>
    dsimp only at h
    split at h
    · cases h
    · next token k hscan =>
      cases h
      exact ⟨n, k, hsize, hscan, rfl⟩

theorem next_of_reads (cursor : Cursor) {token : Token} {rest : List Char}
    (h : Token.Reads cursor.rest token rest) :
    ∃ item after, cursor.next = .ok (item, after) ∧ item.token = token ∧ after.rest = rest := by
  obtain ⟨n, k, hsize, hscan, rfl⟩ := h
  refine ⟨⟨token, (cursor.advance n).position⟩, (cursor.advance n).advance k, ?_, rfl, rfl⟩
  unfold next
  simp only [hsize, advance, hscan]

theorem items_eq {cursor after : Cursor} {item : Located} (h : cursor.next = .ok (item, after)) :
    cursor.items = if item.token = .eof then [.ok item] else .ok item :: after.items := by
  rw [items]
  split
  · next hnext =>
    rw [h] at hnext
    cases hnext
  · next hnext =>
    rw [h] at hnext
    cases hnext
    split <;> rfl

theorem lexes_of_items {cursor : Cursor} {items : List Located}
    (h : collect cursor.items = .ok items) : Lexes cursor.rest (items.map Located.token) := by
  fun_induction Cursor.items cursor generalizing items with
  | case1 => cases h
  | case2 cursor item after hnext hend =>
    cases h
    have hread := reads_of_next hnext
    rw [hend] at hread
    rw [List.map_singleton, hend]
    exact .last hread
  | case3 cursor item after hnext hend _ ih =>
    obtain ⟨others, hothers, heq⟩ := exists_of_map_eq_ok h
    rw [← heq]
    exact .step (reads_of_next hnext) hend (ih hothers)

theorem items_of_lexes (cursor : Cursor) {tokens : List Token} (h : Lexes cursor.rest tokens) :
    ∃ items, collect cursor.items = .ok items ∧ items.map Located.token = tokens := by
  generalize htext : cursor.rest = text at h
  induction h generalizing cursor with
  | last hread =>
    rw [← htext] at hread
    obtain ⟨item, after, hnext, hitem, -⟩ := next_of_reads cursor hread
    refine ⟨[item], ?_, by simp [hitem]⟩
    rw [items_eq hnext, if_pos hitem]
    rfl
  | step hread hne _ ih =>
    rw [← htext] at hread
    obtain ⟨item, after, hnext, hitem, hrest⟩ := next_of_reads cursor hread
    obtain ⟨others, hothers, htokens⟩ := ih after hrest
    refine ⟨item :: others, ?_, by simp [hitem, htokens]⟩
    rw [items_eq hnext, if_neg (hitem ▸ hne), collect, hothers]
    rfl

end Cursor

/-- Reading a text into tokens finds the tokens that it is read as. -/
theorem tokenize_iff {text : String} {tokens : List Token} :
    (∃ items, tokenize text = .ok items ∧ items.map Located.token = tokens) ↔
      Lexes (Source.ofText text) tokens := by
  constructor
  · rintro ⟨items, htokenize, rfl⟩
    exact Cursor.lexes_of_items htokenize
  · exact Cursor.items_of_lexes (Cursor.ofChars (Source.ofText text))

end DeepScope
