import DeepScope.Proofs.Rule.Forms
import DeepScope.Proofs.Token.Concat
import DeepScope.StyleSheet.Reader

namespace DeepScope

/-- Whether the last of the tokens, if there is one, can end a rule. -/
def EndsRules (tokens : List Token) : Prop :=
  ∀ t ∈ tokens.getLast?, t.endsRule = true

namespace EndsRules

variable {front back : List Token}

theorem append (hfront : EndsRules front) (hback : EndsRules back) : EndsRules (front ++ back) := by
  intro t ht
  rw [List.getLast?_append] at ht
  cases hcases : back.getLast? with
  | none => exact hfront t (by simpa [hcases] using ht)
  | some u => exact hback t (by simpa [hcases] using ht)

theorem concat {t : Token} (h : t.endsRule = true) (front : List Token) :
    EndsRules (front ++ [t]) := by
  intro u hu
  rw [List.getLast?_concat] at hu
  cases hu
  exact h

/-- Tokens that end a rule are all the tokens up to the first end. -/
theorem eq_of_append_eof {tokens rest : List Token} (h : EndsRules tokens)
    (hrest : rest.head?.getD .eof = .eof) (heq : tokens ++ rest = front ++ [.eof])
    (hend : .eof ∉ front) : tokens = front := by
  rcases List.eq_nil_or_concat rest with rfl | ⟨before, last, rfl⟩
  · rw [List.append_nil] at heq
    subst heq
    cases h .eof (by simp)
  · rw [List.concat_eq_append] at hrest heq
    rw [← List.append_assoc] at heq
    obtain ⟨hfront, -⟩ := List.append_inj' heq rfl
    cases before with
    | nil => simpa using hfront
    | cons t before =>
      obtain rfl : t = .eof := hrest
      exact absurd (by simp [← hfront]) hend

end EndsRules

variable {limit : Option Nat} {depth : Nat} {tokens : List Token} {rules : List Rule}

/-- An at-rule ends with its semicolon, or with its block. -/
theorem AtRule.BodyForms.endsRules {name : String} {front body : List Token} {prelude : Prelude}
    {rule : Option Rule} (hfront : Prelude.Forms limit depth front prelude)
    (h : AtRule.BodyForms limit depth name prelude body rule) :
    EndsRules (.atKeyword name :: (front ++ body)) := by
  obtain ⟨_, hasBlock⟩ := prelude
  have hblock : ∀ inner, EndsRules (.atKeyword name :: (front ++ (inner ++ [.closeBrace]))) := by
    intro inner
    rw [← List.append_assoc, ← List.cons_append]
    exact .concat rfl _
  cases h with
  | charset | statement =>
    cases hfront with
    | intro =>
      rw [List.append_nil, ← List.cons_append]
      exact .concat rfl _
  | page | keyframes | descriptors | verbatim => exact hblock _

namespace Rule.Forms

/-- Rules end in a token that ends by itself. -/
theorem endsRules (h : Forms limit depth tokens rules) : EndsRules tokens := by
  induction h with
  | nil => exact fun t ht => nomatch ht
  | @blank _ tokens _ _ ih => exact EndsRules.append (.concat rfl []) ih
  | @mark _ token _ _ _ hmark _ ih =>
    exact EndsRules.append (.concat (by rcases hmark with rfl | rfl <;> rfl) []) ih
  | style hstyle _ _ ih =>
    cases hstyle with
    | intro =>
      refine EndsRules.append ?_ ih
      rw [← List.append_assoc]
      exact .concat rfl _
  | atRule hprelude hbody _ ih =>
    rw [← List.append_assoc, ← List.cons_append]
    exact (hbody.endsRules hprelude).append ih
  | @group _ name _ front inner back _ _ _ _ _ _ _ _ _ ih =>
    have hfront := EndsRules.concat (t := .closeBrace) rfl (.atKeyword name :: (front ++ inner))
    simpa using hfront.append ih

/-- White space in front of rules is no part of them. -/
theorem of_blank (h : Forms limit depth (.whitespace :: tokens) rules) :
    Forms limit depth tokens rules := by
  generalize htokens : Token.whitespace :: tokens = all at h
  cases h with
  | nil => cases htokens
  | blank h =>
    cases htokens
    exact h
  | mark _ hmark _ =>
    cases htokens
    rcases hmark with hmark | hmark <;> cases hmark
  | @style _ front back _ _ hstyle hhead _ =>
    obtain ⟨t, rest, rfl, -⟩ := hstyle.head
    cases htokens
    cases hhead .whitespace rfl
  | atRule => cases htokens
  | group => cases htokens

end Rule.Forms

namespace StyleSheet

/-- Tokens that make up a stylesheet. -/
inductive Forms (limit : Option Nat) : List Token → StyleSheet → Prop where
  | plain {tokens : List Token} {rules : List Rule} :
    tokens.head? ≠ some (.atKeyword "charset") → Rule.Forms limit 0 tokens rules →
    Forms limit tokens ⟨rules, none⟩
  | charset {label : String} {front back : List Token} {rules : List Rule} :
    Prelude.Forms limit 0 front ⟨[.token (.string label)], false⟩ → Rule.Forms limit 0 back rules →
    Forms limit (.atKeyword "charset" :: (front ++ back)) ⟨rules, some label⟩

variable {limit : Option Nat} {tokens : List Token} {sheet : StyleSheet}

/-- The charset rule is a rule like any other, but leaves none. -/
theorem Forms.toRules (h : Forms limit tokens sheet) : Rule.Forms limit 0 tokens sheet.rules := by
  cases h with
  | plain _ hrules => exact hrules
  | charset hfront hback => exact .atRule hfront (.charset rfl) hback

theorem readCharset_sound {reader after : Reader} {charset : Option String}
    (h : readCharset limit reader = .ok (charset, after)) :
    (charset = none ∧ after = reader ∧ reader.peek ≠ .atKeyword "charset") ∨
      ∃ label front, charset = some label ∧
        Prelude.Forms limit 0 front ⟨[.token (.string label)], false⟩ ∧
        reader.tokens = .atKeyword "charset" :: (front ++ after.tokens) := by
  unfold readCharset at h
  split at h
  · next hpeek =>
    split at h
    · cases h
    · next label middle hprelude =>
      cases h
      obtain ⟨front, hfront, hform⟩ := Prelude.read_sound hprelude
      refine .inr ⟨label, front, rfl, hform, ?_⟩
      rw [Reader.tokens_eq_of_peek hpeek (by simp), hfront]
    · cases h
  · next hpeek =>
    cases h
    exact .inl ⟨rfl, rfl, hpeek⟩

theorem readTokens_sound {items : List Located} {after : Reader}
    (h : (readTokens limit items).2 = .ok (sheet, after)) :
    ∃ tokens rest, items.map Located.token = tokens ++ rest ∧ rest.head?.getD .eof = .eof ∧
      Forms limit tokens sheet := by
  unfold readTokens at h
  split at h
  · cases h
  · next charset middle hcharset =>
    obtain ⟨⟨rules, final⟩, hread, hpair⟩ := exists_of_map_eq_ok h
    cases hpair
    obtain ⟨tokens, rest, hmiddle, hrest, hcloses⟩ := readRules_sound hread
    cases hcloses with
    | outermost hform =>
      rcases readCharset_sound hcharset with ⟨rfl, rfl, hpeek⟩ | ⟨label, lead, rfl, hlead, hall⟩
      · refine ⟨tokens, rest, hmiddle, hrest, .plain (fun hhead => ?_) hform⟩
        obtain ⟨more, rfl⟩ := List.head?_eq_some_iff.1 hhead
        exact hpeek (Reader.peek_of_tokens hmiddle)
      · refine ⟨_, rest, ?_, hrest, .charset hlead hform⟩
        rw [hmiddle] at hall
        rw [List.cons_append, List.append_assoc]
        exact hall

theorem readRules_complete {tokens rest : List Token} {rules : List Rule} {reader : Reader}
    (h : Rule.Forms limit 0 tokens rules) (hrest : rest.head?.getD .eof = .eof)
    (htokens : reader.tokens = tokens ++ rest) :
    ∃ after, (readRules limit [] [] reader).2 = .ok (rules, after) := by
  obtain ⟨middle, hmiddle, hread⟩ := @DeepScope.readRules_complete limit [] [] _ _ _ _ h rfl _ htokens
  refine ⟨middle.advance, ?_⟩
  have hpeek : middle.peek = .eof := by rw [Reader.peek_eq, hmiddle, hrest]
  rw [hread, readRules]
  split <;> simp_all [pushRules]

theorem readTokens_complete {items : List Located} {rest : List Token}
    (h : Forms limit tokens sheet) (hrest : rest.head?.getD .eof = .eof)
    (htokens : items.map Located.token = tokens ++ rest) :
    ∃ after, (readTokens limit items).2 = .ok (sheet, after) := by
  have hreader : (Reader.ofTokens items).tokens = tokens ++ rest := htokens
  cases h with
  | plain hhead hrules =>
    obtain ⟨after, hread⟩ := readRules_complete hrules hrest hreader
    refine ⟨after, ?_⟩
    have hpeek : (Reader.ofTokens items).peek ≠ .atKeyword "charset" := by
      rw [Reader.peek_eq, hreader]
      cases tokens with
      | nil => simp [hrest]
      | cons t tokens => simpa using hhead
    simp [readTokens, readCharset, hpeek, hread, Except.map]
  | charset hfront hback =>
    rw [List.cons_append, List.append_assoc] at hreader
    obtain ⟨middle, hprelude, hmiddle⟩ :=
      Prelude.read_complete hfront (Reader.tokens_advance hreader)
    obtain ⟨after, hread⟩ := readRules_complete hback hrest hmiddle
    refine ⟨after, ?_⟩
    simp [readTokens, readCharset, Reader.peek_of_tokens hreader, hprelude, hread, Except.map]

/-- Reading tokens succeeds with exactly the stylesheets that the tokens in
    front of the first end make up. -/
theorem ofTokens_eq_ok_iff {items : List Located} :
    ofTokens items = .ok sheet ↔ ∃ tokens rest, items.map Located.token = tokens ++ rest ∧
      rest.head?.getD .eof = .eof ∧ Forms (some nestingLimit) tokens sheet := by
  unfold ofTokens ofTokensNoted
  constructor
  · intro h
    split at h
    · cases h
    · next hread =>
      cases h
      exact readTokens_sound (congrArg Prod.snd hread)
  · rintro ⟨tokens, rest, htokens, hrest, hforms⟩
    obtain ⟨after, hread⟩ := readTokens_complete hforms hrest htokens
    split
    · next hfail =>
      rw [hfail] at hread
      cases hread
    · next hok =>
      rw [hok] at hread
      cases hread
      rfl

/-- Reading a text succeeds with exactly the stylesheets that its tokens make
    up. -/
theorem parse_eq_ok_iff {text : String} :
    parse text = .ok sheet ↔ ∃ tokens, Lexes (Source.ofText text) (tokens ++ [.eof]) ∧
      Forms (some nestingLimit) tokens sheet := by
  unfold parse parseNoted
  constructor
  · intro h
    split at h
    · cases h
    · next items htokenize =>
      have hlexes := tokenize_iff.1 ⟨items, htokenize, rfl⟩
      obtain ⟨front, hfront, hend⟩ := hlexes.exists_append_eof
      obtain ⟨tokens, rest, htokens, hrest, hforms⟩ := ofTokens_eq_ok_iff.1 h
      rw [hfront] at hlexes htokens
      rw [← hforms.toRules.endsRules.eq_of_append_eof hrest htokens.symm hend] at hlexes
      exact ⟨tokens, hlexes, hforms⟩
  · rintro ⟨tokens, hlexes, hforms⟩
    obtain ⟨items, htokenize, hitems⟩ := tokenize_iff.2 hlexes
    rw [htokenize]
    exact ofTokens_eq_ok_iff.2 ⟨tokens, [.eof], hitems, rfl, hforms⟩

end StyleSheet

end DeepScope
