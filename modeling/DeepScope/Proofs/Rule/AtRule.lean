import DeepScope.Proofs.Rule.Keyframes
import DeepScope.Proofs.Rule.Page
import DeepScope.Rule.Reader

namespace DeepScope

variable {limit : Option Nat} {depth : Nat}

/-- Tokens that make up a style rule. -/
inductive StyleRule.Forms (limit : Option Nat) (depth : Nat) : List Token → StyleRule → Prop where
  | intro {front body : List Token} {values : List Value} {selectors : List Selector}
    {declarations : List Declaration} :
    Prelude.Forms limit depth front ⟨values, true⟩ → Selector.readAll values = .ok selectors →
    Declaration.BlockForms limit depth body declarations →
    Forms limit depth (front ++ (body ++ [.closeBrace])) ⟨selectors, declarations⟩

theorem StyleRule.Forms.head {tokens : List Token} {rule : StyleRule}
    (h : Forms limit depth tokens rule) :
    ∃ t rest, tokens = t :: rest ∧ t ≠ .closeBrace ∧ t ≠ .eof := by
  cases h with
  | intro hfront _ _ =>
    obtain ⟨t, rest, rfl, ht⟩ := hfront.head
    exact ⟨t, _, rfl, ht⟩

theorem StyleRule.read_sound {reader after : Reader} {rule : StyleRule}
    (h : StyleRule.read limit depth reader = .ok (rule, after)) :
    ∃ tokens, reader.tokens = tokens ++ after.tokens ∧ Forms limit depth tokens rule := by
  obtain ⟨⟨values, inside⟩, hbefore, hrest⟩ := exists_of_bind_eq_ok h
  obtain ⟨front, hfront, hform⟩ := Prelude.readBeforeBlock_sound hbefore
  dsimp only at hrest
  split at hrest
  · cases hrest
  · next selectors hselectors =>
    obtain ⟨⟨declarations, final⟩, hblock, hpure⟩ := exists_of_bind_eq_ok hrest
    cases hpure
    obtain ⟨body, hbody, hforms⟩ := Declaration.readBlock_sound hblock
    refine ⟨_, ?_, .intro hform hselectors hforms⟩
    rw [hfront, hbody]
    simp

theorem StyleRule.read_complete {tokens rest : List Token} {rule : StyleRule}
    (h : Forms limit depth tokens rule) {reader : Reader}
    (htokens : reader.tokens = tokens ++ rest) :
    ∃ after, StyleRule.read limit depth reader = .ok (rule, after) ∧ after.tokens = rest := by
  cases h with
  | @intro front body values selectors declarations hfront hselectors hbody =>
    rw [List.append_assoc, List.append_assoc, List.singleton_append] at htokens
    obtain ⟨inside, hbefore, hinside⟩ := Prelude.readBeforeBlock_complete hfront htokens
    obtain ⟨after, hblock, hafter⟩ := Declaration.readBlock_complete hbody hinside
    refine ⟨after, ?_, hafter⟩
    simp [StyleRule.read, hbefore, hselectors, hblock, bind, Except.bind, pure, Except.pure]

/-- The tokens that end a block that has no grammar. -/
def endsVerbatim (token : Token) : Bool :=
  token = .closeBrace || token = .eof

/-- Tokens of a block that has no grammar, without its braces. -/
inductive VerbatimForms (limit : Option Nat) (depth : Nat) : List Token → List Value → Prop where
  | intro {tokens : List Token} {values : List Value} :
    Value.Gathers limit depth tokens values →
    VerbatimForms limit depth tokens (Value.normalize values)

theorem readVerbatim_sound {reader after : Reader} {values : List Value}
    (h : readVerbatim limit depth reader = .ok (values, after)) :
    ∃ tokens, reader.tokens = tokens ++ .closeBrace :: after.tokens ∧
      VerbatimForms limit depth tokens values := by
  unfold readVerbatim at h
  dsimp only at h
  split at h
  · cases h
  · next found middle hvalues =>
    obtain ⟨tokens, htokens, hgathers, -, -⟩ := Value.readUntil_sound hvalues
    split at h
    · next hpeek =>
      cases h
      refine ⟨tokens, ?_, .intro hgathers⟩
      rw [htokens, Reader.tokens_eq_of_peek hpeek (by simp)]
    · cases h

theorem readVerbatim_complete {tokens rest : List Token} {values : List Value}
    (h : VerbatimForms limit depth tokens values) {reader : Reader}
    (htokens : reader.tokens = tokens ++ .closeBrace :: rest) :
    ∃ after, readVerbatim limit depth reader = .ok (values, after) ∧ after.tokens = rest := by
  cases h with
  | @intro found hgathers =>
    have hheads : ∀ v ∈ found, endsVerbatim v.head = false := by
      intro v hv
      obtain ⟨hcloses, hend⟩ := hgathers.head_ne v hv
      have hbrace : v.head ≠ .closeBrace := by
        intro hbrace
        rw [hbrace] at hcloses
        cases hcloses
      simp [endsVerbatim, hbrace, hend]
    obtain ⟨middle, hread, hmiddle⟩ := Value.readUntil_complete hgathers hheads rfl htokens
    refine ⟨middle.advance, ?_, Reader.tokens_advance hmiddle⟩
    unfold readVerbatim endsVerbatim at *
    dsimp only
    rw [hread]
    dsimp only
    rw [if_pos (Reader.peek_of_tokens hmiddle)]

/-- What follows the prelude of an at-rule that is no group, and the rule that
    it amounts to, if any. -/
inductive AtRule.BodyForms (limit : Option Nat) (depth : Nat) (name : String) :
    Prelude → List Token → Option Rule → Prop where
  | charset {values : List Value} :
    AtRuleKind.ofKeyword (asciiLower name) = .charset →
    BodyForms limit depth name ⟨values, false⟩ [] none
  | statement {values : List Value} :
    AtRuleKind.ofKeyword (asciiLower name) = .blockless ∨
      AtRuleKind.ofKeyword (asciiLower name) = .other →
    BodyForms limit depth name ⟨values, false⟩ [] (some (.statement name values))
  | page {values : List Value} {body : List Token} {declarations : List Declaration}
    {margins : List MarginRule} :
    AtRuleKind.ofKeyword (asciiLower name) = .page →
    PageRule.BlockForms limit depth body declarations margins →
    BodyForms limit depth name ⟨values, true⟩ (body ++ [.closeBrace])
      (some (.page ⟨values, declarations, margins⟩))
  | keyframes {values : List Value} {body : List Token} {blocks : List KeyframeBlock} :
    AtRuleKind.ofKeyword (asciiLower name) = .keyframes →
    KeyframesRule.BlockForms limit depth body blocks →
    BodyForms limit depth name ⟨values, true⟩ (body ++ [.closeBrace])
      (some (.keyframes ⟨name, values, blocks⟩))
  | descriptors {values : List Value} {body : List Token} {declarations : List Declaration} :
    AtRuleKind.ofKeyword (asciiLower name) = .descriptors →
    Declaration.BlockForms limit depth body declarations →
    BodyForms limit depth name ⟨values, true⟩ (body ++ [.closeBrace])
      (some (.descriptors name values declarations))
  | verbatim {values block : List Value} {body : List Token} :
    AtRuleKind.ofKeyword (asciiLower name) = .other → VerbatimForms limit depth body block →
    BodyForms limit depth name ⟨values, true⟩ (body ++ [.closeBrace])
      (some (.verbatim name values block))

/-- What an at-rule that is no group amounts to. -/
def AtRule.ofOption : Option Rule → AtRule
  | none => .dropped
  | some found => .rule found

theorem AtRule.readBody_sound {name : String} {prelude : Prelude} {reader after : Reader}
    {result : AtRule} (h : readBody limit depth name prelude reader = .ok (result, after)) :
    (∃ kind, AtRuleKind.ofKeyword (asciiLower name) = .group kind ∧ prelude.hasBlock = true ∧
        mayNest limit depth = true ∧ after = reader ∧
        result = .opens kind (Value.normalizeCondition prelude.values)) ∨
      ∃ tokens rule, reader.tokens = tokens ++ after.tokens ∧ result = ofOption rule ∧
        BodyForms limit depth name prelude tokens rule := by
  obtain ⟨values, hasBlock⟩ := prelude
  unfold readBody at h
  dsimp only at h
  split at h
  · next hblock =>
    obtain rfl : hasBlock = true := hblock
    split at h
    · cases h
    · next kind hkind =>
      split at h
      · next hnest =>
        cases h
        exact .inl ⟨kind, hkind, rfl, hnest, rfl, rfl⟩
      · cases h
    · next hkind =>
      obtain ⟨⟨⟨declarations, margins⟩, final⟩, hread, hpure⟩ := exists_of_bind_eq_ok h
      cases hpure
      obtain ⟨body, hbody, hforms⟩ := PageRule.readBlock_sound hread
      exact .inr ⟨_, _, by rw [hbody]; simp, rfl, .page hkind hforms⟩
    · next hkind =>
      obtain ⟨⟨blocks, final⟩, hread, hpure⟩ := exists_of_bind_eq_ok h
      cases hpure
      obtain ⟨body, hbody, hforms⟩ := KeyframesRule.readBlocks_sound hread
      exact .inr ⟨_, _, by rw [hbody]; simp, rfl, .keyframes hkind hforms⟩
    · next hkind =>
      obtain ⟨⟨declarations, final⟩, hread, hpure⟩ := exists_of_bind_eq_ok h
      cases hpure
      obtain ⟨body, hbody, hforms⟩ := Declaration.readBlock_sound hread
      exact .inr ⟨_, _, by rw [hbody]; simp, rfl, .descriptors hkind hforms⟩
    · cases h
    · next hkind =>
      obtain ⟨⟨block, final⟩, hread, hpure⟩ := exists_of_bind_eq_ok h
      cases hpure
      obtain ⟨body, hbody, hforms⟩ := readVerbatim_sound hread
      exact .inr ⟨_, _, by rw [hbody]; simp, rfl, .verbatim hkind hforms⟩
  · next hblock =>
    obtain rfl : hasBlock = false := by simpa using hblock
    split at h
    · next hkind =>
      cases h
      exact .inr ⟨[], none, rfl, rfl, .charset hkind⟩
    · next hkind =>
      cases h
      exact .inr ⟨[], _, rfl, rfl, .statement (.inl hkind)⟩
    · next hkind =>
      cases h
      exact .inr ⟨[], _, rfl, rfl, .statement (.inr hkind)⟩
    · cases h

theorem AtRule.readBody_complete {name : String} {prelude : Prelude} {tokens rest : List Token}
    {rule : Option Rule} (h : BodyForms limit depth name prelude tokens rule) {reader : Reader}
    (htokens : reader.tokens = tokens ++ rest) :
    ∃ after, readBody limit depth name prelude reader = .ok (ofOption rule, after) ∧
      after.tokens = rest := by
  unfold readBody
  cases h with
  | charset hkind => exact ⟨reader, by simp [hkind, ofOption], htokens⟩
  | statement hkind =>
    refine ⟨reader, ?_, htokens⟩
    rcases hkind with hkind | hkind <;> simp [hkind, ofOption]
  | page hkind hbody =>
    rw [List.append_assoc, List.singleton_append] at htokens
    obtain ⟨after, hread, hafter⟩ := PageRule.readBlock_complete hbody htokens
    refine ⟨after, ?_, hafter⟩
    simp [hkind, hread, ofOption, bind, Except.bind, pure, Except.pure]
  | keyframes hkind hbody =>
    rw [List.append_assoc, List.singleton_append] at htokens
    obtain ⟨after, hread, hafter⟩ := KeyframesRule.readBlocks_complete hbody htokens
    refine ⟨after, ?_, hafter⟩
    simp [hkind, hread, ofOption, bind, Except.bind, pure, Except.pure]
  | descriptors hkind hbody =>
    rw [List.append_assoc, List.singleton_append] at htokens
    obtain ⟨after, hread, hafter⟩ := Declaration.readBlock_complete hbody htokens
    refine ⟨after, ?_, hafter⟩
    simp [hkind, hread, ofOption, bind, Except.bind, pure, Except.pure]
  | verbatim hkind hbody =>
    rw [List.append_assoc, List.singleton_append] at htokens
    obtain ⟨after, hread, hafter⟩ := readVerbatim_complete hbody htokens
    refine ⟨after, ?_, hafter⟩
    simp [hkind, hread, ofOption, bind, Except.bind, pure, Except.pure]

/-- Reading an at-rule takes all of its tokens, or those in front of the block
    of a group. -/
theorem AtRule.read_sound {name : String} {reader after : Reader} {result : AtRule}
    (hpeek : reader.peek = .atKeyword name)
    (h : (AtRule.read limit depth reader).2 = .ok (result, after)) :
    ∃ front prelude, Prelude.Forms limit depth front prelude ∧
      ((∃ kind, AtRuleKind.ofKeyword (asciiLower name) = .group kind ∧ prelude.hasBlock = true ∧
          mayNest limit depth = true ∧
          reader.tokens = .atKeyword name :: (front ++ after.tokens) ∧
          result = .opens kind (Value.normalizeCondition prelude.values)) ∨
        ∃ body rule, reader.tokens = .atKeyword name :: (front ++ (body ++ after.tokens)) ∧
          result = ofOption rule ∧ BodyForms limit depth name prelude body rule) := by
  unfold AtRule.read at h
  rw [hpeek] at h
  dsimp only at h
  split at h
  · cases h
  · next prelude middle hprelude =>
    obtain ⟨front, hfront, hform⟩ := Prelude.read_sound hprelude
    have htokens := Reader.tokens_eq_of_peek hpeek (by simp)
    refine ⟨front, prelude, hform, ?_⟩
    rcases readBody_sound h with
      ⟨kind, hkind, hblock, hnest, rfl, rfl⟩ | ⟨body, rule, hbody, rfl, hforms⟩
    · exact .inl ⟨kind, hkind, hblock, hnest, by rw [htokens, hfront], rfl⟩
    · exact .inr ⟨body, rule, by rw [htokens, hfront, hbody], rfl, hforms⟩

theorem AtRule.read_complete {name : String} {front body rest : List Token} {prelude : Prelude}
    {rule : Option Rule} (hfront : Prelude.Forms limit depth front prelude)
    (hbody : BodyForms limit depth name prelude body rule) {reader : Reader}
    (htokens : reader.tokens = .atKeyword name :: (front ++ (body ++ rest))) :
    ∃ after, (AtRule.read limit depth reader).2 = .ok (ofOption rule, after) ∧
      after.tokens = rest := by
  obtain ⟨middle, hread, hmiddle⟩ :=
    Prelude.read_complete hfront (Reader.tokens_advance htokens)
  obtain ⟨after, hdone, hafter⟩ := readBody_complete hbody hmiddle
  refine ⟨after, ?_, hafter⟩
  unfold AtRule.read
  rw [Reader.peek_of_tokens htokens]
  dsimp only
  rw [hread]
  exact hdone

theorem AtRule.read_group {name : String} {kind : GroupKind} {front rest : List Token}
    {values : List Value} (hkind : AtRuleKind.ofKeyword (asciiLower name) = .group kind)
    (hnest : mayNest limit depth = true) (hfront : Prelude.Forms limit depth front ⟨values, true⟩)
    {reader : Reader} (htokens : reader.tokens = .atKeyword name :: (front ++ rest)) :
    ∃ after, (AtRule.read limit depth reader).2 =
        .ok (.opens kind (Value.normalizeCondition values), after) ∧ after.tokens = rest := by
  obtain ⟨after, hread, hafter⟩ :=
    Prelude.read_complete hfront (Reader.tokens_advance htokens)
  refine ⟨after, ?_, hafter⟩
  unfold AtRule.read
  rw [Reader.peek_of_tokens htokens]
  dsimp only
  rw [hread]
  simp [readBody, hkind, hnest]

end DeepScope
