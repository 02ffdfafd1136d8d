import DeepScope.Proofs.Token.Cases
import DeepScope.Proofs.Token.Comment
import DeepScope.Proofs.Token.Seam

/-!
The tokens of two texts put together. A token that can end a rule also ends by itself, so the
tokens of the first text are read as before if one of these stands last among them.
-/

namespace DeepScope

/-- The tokens that can stand last in a stylesheet. -/
def Token.endsRule : Token → Bool
  | .whitespace | .semicolon | .closeBrace | .commentOpen | .commentClose => true
  | _ => false

namespace Token

variable {text rest : List Char} {token : Token} {n : Nat}

/-- What ends a rule is a blank, or it stands in the text as it is written. -/
theorem begins_of_scan (hends : token.endsRule = true) (h : scan text = .ok (token, n)) :
    (token = .whitespace ∧ ∃ c rest, text = c :: rest ∧ isBlank c = true) ∨
      (token ≠ .whitespace ∧ token.chars <+: text ∧ n = token.chars.length) := by
  by_cases hblank : token = .whitespace
  · subst hblank
    exact .inl ⟨rfl, isBlank_of_scan h⟩
  · refine .inr ⟨hblank, prefix_of_scan_fixed ?_ h⟩
    cases token <;> cases hends <;> first
      | rfl
      | exact absurd rfl hblank

theorem settled_of_scan (hends : token.endsRule = true) (h : scan text = .ok (token, n)) :
    Settled text := by
  rcases begins_of_scan hends h with ⟨-, c, rest, rfl, hblank⟩ | ⟨hne, ⟨rest, rfl⟩, -⟩
  · right
    simp [isStop, hblank]
  · cases token <;> cases hends <;> first
      | exact absurd rfl hne
      | exact .inr rfl
      | exact .inl (by simp [chars])

theorem eq_whitespace_of_lineFeed (hends : token.endsRule = true)
    (hlast : token.chars.getLast? = some '\n') : token = .whitespace := by
  cases token <;> cases hends <;> first
    | rfl
    | cases hlast

/-- A token that ends a rule is written in one way only, and needs nothing
    behind it. -/
theorem scan_endsRule (hends : token.endsRule = true) (hne : token ≠ .whitespace)
    (rest : List Char) : Comment.size (token.chars ++ rest) = .ok 0 ∧
      scan (token.chars ++ rest) = .ok (token, token.chars.length) := by
  cases token <;> cases hends <;> first
    | exact absurd rfl hne
    | exact scan_chars_append trivial trivial

end Token

namespace Token.Reads

variable {text rest : List Char} {token : Token}

theorem suffix (h : Reads text token rest) : rest <:+ text := by
  obtain ⟨n, k, -, -, rfl⟩ := h
  rw [List.drop_drop]
  exact List.drop_suffix _ _

theorem settled (h : Reads text token rest) (hends : token.endsRule = true) : Settled text := by
  obtain ⟨n, k, -, hscan, rfl⟩ := h
  exact (settled_of_scan hends hscan).of_drop

theorem more {more : List Char} (h : Reads text token rest) (hend : token ≠ .eof)
    (hrest : Firm rest more) (hgoes : token = .whitespace → rest ≠ []) :
    Reads (text ++ more) token (rest ++ more) := by
  obtain ⟨n, k, hsize, hscan, rfl⟩ := h
  have hn : text.drop n ≠ [] := by
    intro hnil
    rw [hnil] at hscan
    cases hscan
    exact hend rfl
  refine ⟨n, k, Comment.size_append hsize hrest.of_drop hn, ?_, ?_⟩
  · rw [List.drop_append_of_le_length (Comment.size_le hsize)]
    exact scan_more hscan hend hrest hgoes
  · rw [List.drop_append_of_le_length (Comment.size_le hsize),
      List.drop_append_of_le_length (scan_le hscan)]

/-- Anything but a blank that ends a rule is read in front of any text. -/
theorem more_of_endsRule (h : Reads text token rest) (hends : token.endsRule = true)
    (hne : token ≠ .whitespace) (more : List Char) : Reads (text ++ more) token (rest ++ more) := by
  obtain ⟨n, k, hsize, hscan, rfl⟩ := h
  rcases begins_of_scan hends hscan with ⟨rfl, -⟩ | ⟨-, ⟨rest, hrest⟩, rfl⟩
  · exact absurd rfl hne
  · have hsettled := settled_of_scan hends hscan
    refine ⟨n, token.chars.length, Comment.size_append hsize (.inl hsettled) hsettled.ne_nil, ?_, ?_⟩
    · rw [List.drop_append_of_le_length (Comment.size_le hsize), ← hrest, List.append_assoc]
      exact (scan_endsRule hends hne _).2
    · rw [List.drop_append_of_le_length (Comment.size_le hsize), ← hrest, List.append_assoc,
        List.drop_left, List.drop_left]

/-- A comment in front of a text adds no token. -/
theorem comment_iff {n : Nat} (hclose : Comment.sizeToClose text = some n) :
    Reads ('/' :: '*' :: text) token rest ↔ Reads (text.drop n) token rest := by
  constructor
  · rintro ⟨m, k, hsize, hscan, rfl⟩
    rw [Comment.size, hclose] at hsize
    obtain ⟨j, hj, hpure⟩ := exists_of_bind_eq_ok hsize
    cases hpure
    rw [Comment.drop_comment] at hscan ⊢
    exact ⟨j, k, hj, hscan, rfl⟩
  · rintro ⟨m, k, hsize, hscan, rfl⟩
    refine ⟨n + 2 + m, k, Comment.size_cons hclose hsize, ?_, ?_⟩
    · rwa [Comment.drop_comment]
    · rw [Comment.drop_comment]

end Token.Reads

/-- The tokens without a white space that may stand in front of them. -/
def dropBlank : List Token → List Token
  | .whitespace :: tokens => tokens
  | tokens => tokens

theorem dropBlank_of_ne {tokens : List Token} (h : ∀ others, tokens ≠ .whitespace :: others) :
    dropBlank tokens = tokens := by
  unfold dropBlank
  split
  · exact absurd rfl (h _)
  · rfl

theorem dropBlank_cases (tokens : List Token) :
    dropBlank tokens = tokens ∨ tokens = .whitespace :: dropBlank tokens := by
  unfold dropBlank
  split
  · exact .inr rfl
  · exact .inl rfl

namespace Lexes

variable {text more : List Char} {front tokens : List Token} {token : Token}

/-- Only the first token of a text depends on how the text begins. -/
theorem of_reads (h : Lexes text tokens)
    (hreads : ∀ token rest, Token.Reads text token rest → Token.Reads more token rest) :
    Lexes more tokens := by
  cases h with
  | last hfirst => exact .last (hreads _ _ hfirst)
  | step hfirst hne hrest => exact .step (hreads _ _ hfirst) hne hrest

theorem comment_iff {n : Nat} (hclose : Comment.sizeToClose text = some n) :
    Lexes ('/' :: '*' :: text) tokens ↔ Lexes (text.drop n) tokens :=
  ⟨fun h => h.of_reads fun _ _ => (Token.Reads.comment_iff hclose).1,
    fun h => h.of_reads fun _ _ => (Token.Reads.comment_iff hclose).2⟩

theorem settled (h : Lexes text tokens) (htoken : token ∈ tokens) (hends : token.endsRule = true) :
    Settled text := by
  induction h with
  | last hread =>
    obtain rfl := List.mem_singleton.1 htoken
    cases hends
  | step hread _ _ ih =>
    rcases List.mem_cons.1 htoken with rfl | htoken
    · exact hread.settled hends
    · obtain ⟨front, rfl⟩ := hread.suffix
      exact (ih htoken).append

theorem cons_inv (h : Lexes text (token :: tokens)) (hne : tokens ≠ []) :
    ∃ rest, Token.Reads text token rest ∧ token ≠ .eof ∧ Lexes rest tokens := by
  cases h with
  | last => exact absurd rfl hne
  | step hread hend hrest => exact ⟨_, hread, hend, hrest⟩

/-- All tokens but the last one are read as before, if the last one ends a
    rule. -/
theorem exists_suffix (h : Lexes text (front ++ [token, .eof])) (hends : token.endsRule = true) :
    ∃ before last rest, text = before ++ last ∧ Token.Reads last token rest ∧ Lexes rest [.eof] ∧
      ∀ more tokens, Lexes (last ++ more) (token :: tokens) →
        Lexes (text ++ more) (front ++ token :: tokens) := by
  induction front generalizing text with
  | nil =>
    cases h with
    | step hread _ hrest => exact ⟨[], text, _, rfl, hread, hrest, fun _ _ hmore => hmore⟩
  | cons first front ih =>
    obtain ⟨left, hread, hne, hrest⟩ := h.cons_inv (by simp)
    obtain ⟨before, last, rest, rfl, hlast, hend, hstep⟩ := ih hrest
    obtain ⟨skipped, rfl⟩ := hread.suffix
    refine ⟨skipped ++ before, last, rest, by rw [List.append_assoc], hlast, hend, ?_⟩
    intro more tokens hmore
    have hsettled := hrest.settled (by simp) hends
    exact .step (hread.more hne (.inl hsettled) fun _ => hsettled.ne_nil) hne
      (hstep more tokens hmore)

/-- A text without tokens is nothing but comments. -/
theorem size_of_eof (h : Lexes text [.eof]) : Comment.size text = .ok text.length := by
  cases h with
  | last hread =>
    obtain ⟨n, k, hsize, hscan, -⟩ := hread
    have hle := Comment.size_le hsize
    have hnil := List.drop_eq_nil_iff.1 (Token.eq_nil_of_scan hscan)
    rw [hsize, Nat.le_antisymm hle hnil]
  | step _ _ hrest => cases hrest

/-- Comments in front of a text add no tokens. -/
theorem comments_append (h : Lexes text [.eof]) (hmore : Lexes more tokens) :
    Lexes (text ++ more) tokens := by
  refine hmore.of_reads ?_
  rintro token rest ⟨n, k, hsize, hscan, rfl⟩
  refine ⟨text.length + n, k, Comment.size_append_of_length h.size_of_eof hsize, ?_, ?_⟩ <;>
    rw [← List.drop_drop, List.drop_left]
  exact hscan

/-- Comments in front of a text may be dropped. -/
theorem drop_comments {n : Nat} (h : Lexes text tokens) (hsize : Comment.size text = .ok n) :
    Lexes (text.drop n) tokens := by
  refine h.of_reads ?_
  rintro token rest ⟨m, k, hm, hscan, rfl⟩
  obtain rfl := Except.ok.inj (hsize.symm.trans hm)
  exact ⟨0, k, Comment.size_drop hsize, hscan, rfl⟩

/-- A blank at the front of a text is read as white space. -/
theorem cons_blank_inv {c : Char} {rest : List Char} (hblank : isBlank c = true)
    (h : Lexes (c :: rest) tokens) :
    ∃ n tokens', Comment.sizeWithBlanks rest = .ok n ∧ Lexes (rest.drop n) tokens' ∧
      tokens = .whitespace :: tokens' := by
  have hsize : Comment.size (c :: rest) = .ok 0 := by
    refine Comment.size_cons_eq_zero ?_ rest
    rintro rfl
    cases hblank
  cases h with
  | last hfirst =>
    obtain ⟨m, k, hm, hscan, -⟩ := hfirst
    obtain rfl := Except.ok.inj (hsize.symm.trans hm)
    cases Token.eq_nil_of_scan hscan
  | step hfirst _ hrest =>
    obtain ⟨m, k, hm, hscan, rfl⟩ := hfirst
    obtain rfl := Except.ok.inj (hsize.symm.trans hm)
    rw [List.drop_zero, Token.scan_blank hblank] at hscan
    obtain ⟨j, hj, hpair⟩ := exists_of_map_eq_ok hscan
    cases hpair
    exact ⟨j, _, hj, hrest, rfl⟩

/-- Where neither blanks nor comments begin a text, white space is not read first. -/
theorem dropBlank_eq_self (h : Lexes text tokens) (hzero : Comment.sizeWithBlanks text = .ok 0) :
    dropBlank tokens = tokens := by
  refine dropBlank_of_ne ?_
  rintro others rfl
  obtain ⟨hblank, hcomment⟩ := Comment.sizeWithBlanks_eq_zero_iff.1 hzero
  cases h with
  | step hfirst _ _ =>
    obtain ⟨n, k, hsize, hscan, -⟩ := hfirst
    obtain rfl := Except.ok.inj ((Comment.size_eq_zero hcomment).symm.trans hsize)
    obtain ⟨c, rest, hc, hcBlank⟩ := Token.isBlank_of_scan hscan
    rw [List.drop_zero] at hc
    simp [hc, hcBlank] at hblank

/-- Blanks at the front of a text give at most one token. -/
theorem skipBlanks (h : Lexes text tokens) :
    ∃ n, Comment.sizeWithBlanks text = .ok n ∧ Lexes (text.drop n) (dropBlank tokens) := by
  have hsize : ∃ n, Comment.size text = .ok n := by
    cases h with
    | last hfirst | step hfirst _ _ =>
      obtain ⟨n, k, hsize, -⟩ := hfirst
      exact ⟨n, hsize⟩
  obtain ⟨n, hsize⟩ := hsize
  have hdrop := h.drop_comments hsize
  by_cases hblank : (text.drop n).head?.any isBlank = true
  · obtain ⟨c, hc, hcBlank⟩ := (Option.any_eq_true _ _).1 hblank
    obtain ⟨rest, hrest⟩ := List.head?_eq_some_iff.1 hc
    rw [hrest] at hdrop
    obtain ⟨m, tokens', hm, hlexes, rfl⟩ := hdrop.cons_blank_inv hcBlank
    refine ⟨n + (m + 1), ?_, ?_⟩
    · refine Comment.sizeWithBlanks_of_size hsize ?_
      rw [hrest, Comment.sizeWithBlanks_blank hcBlank, hm]
      rfl
    · rw [← List.drop_drop, hrest]
      exact hlexes
  · have hzero : Comment.sizeWithBlanks (text.drop n) = .ok 0 := by
      rw [Comment.sizeWithBlanks_eq_zero_iff]
      exact ⟨by simpa using hblank, Comment.not_prefix_of_size (Comment.size_drop hsize)⟩
    refine ⟨n + 0, Comment.sizeWithBlanks_of_size hsize hzero, ?_⟩
    rwa [hdrop.dropBlank_eq_self hzero]

/-- What is read behind blanks is read from them on, with one token more at most. -/
theorem of_sizeWithBlanks {n : Nat} (hsize : Comment.sizeWithBlanks text = .ok n)
    (h : Lexes (text.drop n) tokens) : ∃ all, Lexes text all ∧ dropBlank all = tokens := by
  fun_induction Comment.sizeWithBlanks text generalizing n with
  | case1 => cases hsize
  | case2 rest k hclose ih =>
    obtain ⟨m, hm, hpure⟩ := exists_of_bind_eq_ok hsize
    cases hpure
    rw [Comment.drop_comment] at h
    obtain ⟨all, hall, hdrop⟩ := ih hm h
    exact ⟨all, (comment_iff hclose).2 hall, hdrop⟩
  | case3 c rest hcomment hblank ih =>
    obtain ⟨m, hm, hpure⟩ := exists_of_bind_eq_ok hsize
    cases hpure
    have hslash : c ≠ '/' := by
      rintro rfl
      cases hblank
    refine ⟨.whitespace :: tokens, .step ⟨0, m + 1, Comment.size_cons_eq_zero hslash rest, ?_, rfl⟩
      (by simp) h, rfl⟩
    rw [List.drop_zero, Token.scan_blank hblank, hm]
    rfl
  | case4 c rest hcomment hblank =>
    cases hsize
    refine ⟨tokens, h, h.dropBlank_eq_self ?_⟩
    refine Comment.sizeWithBlanks_eq_zero_iff.2 ⟨by simpa using hblank, ?_⟩
    rintro ⟨tail, htail⟩
    cases htail
    exact hcomment tail rfl rfl
  | case5 =>
    cases hsize
    cases h.unique Lexes.nil
    exact ⟨[.eof], Lexes.nil, rfl⟩

/-- A blank in front of a text is white space, and takes in the white space that
    the text begins with. -/
theorem cons_blank_iff {c : Char} (hblank : isBlank c = true) :
    Lexes (c :: text) tokens ↔ ∃ others, Lexes text others ∧ tokens = .whitespace :: dropBlank others := by
  constructor
  · intro h
    obtain ⟨n, others, hsize, hothers, rfl⟩ := h.cons_blank_inv hblank
    obtain ⟨all, hall, hdrop⟩ := of_sizeWithBlanks hsize hothers
    exact ⟨all, hall, by rw [hdrop]⟩
  · rintro ⟨others, hothers, rfl⟩
    obtain ⟨n, hsize, hdrop⟩ := hothers.skipBlanks
    have hslash : c ≠ '/' := by
      rintro rfl
      cases hblank
    refine .step ⟨0, n + 1, Comment.size_cons_eq_zero hslash text, ?_, rfl⟩ (by simp) hdrop
    rw [List.drop_zero, Token.scan_blank hblank, hsize]
    rfl

/-- White space at the end of a text goes on in the blanks of the next. -/
theorem whitespace_append {rest : List Char} {n : Nat} (hread : Token.Reads text .whitespace rest)
    (hrest : Lexes rest [.eof]) (hsize : Comment.sizeWithBlanks more = .ok n)
    (hmore : Lexes (more.drop n) tokens) : Lexes (text ++ more) (.whitespace :: tokens) := by
  obtain ⟨m, k, hm, hscan, rfl⟩ := hread
  rcases Token.begins_of_scan rfl hscan with ⟨-, c, tail, hc, hblank⟩ | ⟨hne, -⟩
  · have hsettled := Token.settled_of_scan rfl hscan
    rw [hc, Token.scan_blank hblank] at hscan
    obtain ⟨j, hj, hpair⟩ := exists_of_map_eq_ok hscan
    cases hpair
    have hnil : tail.drop j = [] := by
      rw [hc, List.drop_succ_cons] at hrest
      have hzero := Comment.size_of_sizeWithBlanks (Comment.sizeWithBlanks_drop hj)
      exact List.length_eq_zero_iff.1 (Except.ok.inj (hrest.size_of_eof.symm.trans hzero))
    have hlength : j = tail.length :=
      Nat.le_antisymm (Comment.sizeWithBlanks_le hj) (List.drop_eq_nil_iff.1 hnil)
    subst hlength
    have hdrop : (text ++ more).drop m = c :: (tail ++ more) := by
      rw [List.drop_append_of_le_length (Comment.size_le hm), hc]
      rfl
    have hm' : Comment.size (text ++ more) = .ok m :=
      Comment.size_append hm (.inl hsettled) hsettled.ne_nil
    refine .step ⟨m, tail.length + n + 1, hm', ?_, ?_⟩ (by simp) hmore
    · rw [hdrop, Token.scan_blank hblank, Comment.sizeWithBlanks_append_of_length hj hsize]
      rfl
    · rw [hdrop, List.drop_succ_cons, ← List.drop_drop, List.drop_left]
  · exact absurd rfl hne

/-- Two texts put together give the tokens of both, if the first one ends in a
    token that can end a rule. A run of blanks where they meet counts once. -/
theorem append (h : Lexes text (front ++ [token, .eof])) (hends : token.endsRule = true)
    (hmore : Lexes more tokens) :
    ∃ tokens', Lexes (text ++ more) (front ++ token :: tokens') ∧
      (tokens' = tokens ∨ tokens = .whitespace :: tokens') := by
  obtain ⟨before, last, rest, rfl, hlast, hend, hstep⟩ := h.exists_suffix hends
  by_cases hblank : token = .whitespace
  · subst hblank
    obtain ⟨n, hsize, hdrop⟩ := hmore.skipBlanks
    exact ⟨dropBlank tokens, hstep _ _ (whitespace_append hlast hend hsize hdrop),
      dropBlank_cases tokens⟩
  · refine ⟨tokens, hstep _ _ ?_, .inl rfl⟩
    refine .step (hlast.more_of_endsRule hends hblank more) ?_ (hend.comments_append hmore)
    rintro rfl
    cases hends

/-- A line feed at the end of a text is white space, and another one behind it
    makes no difference. -/
theorem append_of_lineFeed (h : Lexes text (front ++ [token, .eof])) (hends : token.endsRule = true)
    (hlast : text.getLast? = some '\n') (hmore : Lexes ('\n' :: more) tokens) :
    ∃ tokens', Lexes (text ++ more) (front ++ token :: tokens') ∧
      tokens = .whitespace :: tokens' := by
  obtain ⟨before, last, rest, rfl, hread, hend, hstep⟩ := h.exists_suffix hends
  obtain ⟨n, tokens', hsize, hdrop, htokens⟩ := hmore.cons_blank_inv (by decide)
  have hblank : token = .whitespace := by
    obtain ⟨m, k, -, hscan, rfl⟩ := hread
    rcases Token.begins_of_scan hends hscan with ⟨heq, -⟩ | ⟨hne, ⟨rest, hrest⟩, rfl⟩
    · exact heq
    · have hne : last.drop m ≠ [] := (Token.settled_of_scan hends hscan).ne_nil
      rw [← hrest, List.drop_left] at hend
      have hfinal : (token.chars ++ rest).getLast? = some '\n' := by
        rw [hrest, List.getLast?_drop, if_neg (by rwa [← List.drop_eq_nil_iff])]
        rw [List.getLast?_append] at hlast
        cases hcases : last.getLast? with
        | none =>
          rw [List.getLast?_eq_none_iff.1 hcases, List.drop_nil] at hne
          exact absurd rfl hne
        | some c => simpa [hcases] using hlast
      by_cases hnil : rest = []
      · rw [hnil, List.append_nil] at hfinal
        exact Token.eq_whitespace_of_lineFeed hends hfinal
      · rw [List.getLast?_append, Comment.getLast?_of_size hend.size_of_eof hnil] at hfinal
        cases hfinal
  subst hblank
  exact ⟨tokens', hstep _ _ (whitespace_append hread hend hsize hdrop), htokens⟩

end Lexes

end DeepScope
