import DeepScope.Proofs.Rule.AtRule

namespace DeepScope

/-- The tokens that may begin a style rule. The marks of an old comment are
    dropped between the rules that stand in no group. -/
def Token.beginsStyle (depth : Nat) : Token → Bool
  | .whitespace | .atKeyword _ | .closeBrace | .eof => false
  | .commentOpen | .commentClose => depth ≠ 0
  | _ => true

namespace Rule

/-- Tokens that make up rules, inside so many groups. -/
inductive Forms (limit : Option Nat) : Nat → List Token → List Rule → Prop where
  | nil {depth : Nat} : Forms limit depth [] []
  | blank {depth : Nat} {tokens : List Token} {rules : List Rule} :
    Forms limit depth tokens rules → Forms limit depth (.whitespace :: tokens) rules
  | mark {depth : Nat} {token : Token} {tokens : List Token} {rules : List Rule} :
    depth = 0 → token = .commentOpen ∨ token = .commentClose → Forms limit depth tokens rules →
    Forms limit depth (token :: tokens) rules
  | style {depth : Nat} {front back : List Token} {rule : StyleRule} {rules : List Rule} :
    StyleRule.Forms limit depth front rule → (∀ t ∈ front.head?, t.beginsStyle depth = true) →
    Forms limit depth back rules → Forms limit depth (front ++ back) (.style rule :: rules)
  | atRule {depth : Nat} {name : String} {front body back : List Token} {prelude : Prelude}
    {rule : Option Rule} {rules : List Rule} :
    Prelude.Forms limit depth front prelude →
    AtRule.BodyForms limit depth name prelude body rule → Forms limit depth back rules →
    Forms limit depth (.atKeyword name :: (front ++ (body ++ back))) (rule.toList ++ rules)
  | group {depth : Nat} {name : String} {kind : GroupKind} {front inner back : List Token}
    {values : List Value} {inside rules : List Rule} :
    AtRuleKind.ofKeyword (asciiLower name) = .group kind → mayNest limit depth = true →
    Prelude.Forms limit depth front ⟨values, true⟩ → Forms limit (depth + 1) inner inside →
    Forms limit depth back rules →
    Forms limit depth (.atKeyword name :: (front ++ (inner ++ .closeBrace :: back)))
      (.group kind (Value.normalizeCondition values) inside :: rules)

variable {limit : Option Nat} {depth : Nat}

/-- Rules end by themselves, whatever rules stand behind them. -/
theorem Forms.append {front back : List Token} {rules others : List Rule}
    (h : Forms limit depth front rules) (h' : Forms limit depth back others) :
    Forms limit depth (front ++ back) (rules ++ others) := by
  induction h with
  | nil => exact h'
  | blank _ ih => exact .blank (ih h')
  | mark hdepth hmark _ ih => exact .mark hdepth hmark (ih h')
  | style hstyle hhead _ ih =>
    rw [List.append_assoc]
    exact .style hstyle hhead (ih h')
  | atRule hprelude hbody _ ih =>
    have hform := Forms.atRule hprelude hbody (ih h')
    simpa only [List.cons_append, List.append_assoc] using hform
  | group hkind hnest hprelude hinner _ _ ih =>
    have hform := Forms.group hkind hnest hprelude hinner (ih h')
    simpa only [List.cons_append, List.append_assoc] using hform

end Rule

/-- More rules inside of an open group. -/
def OpenGroup.extend (group : OpenGroup) (found : List Rule) : OpenGroup :=
  { group with rules := found.reverse ++ group.rules }

/-- More rules in the innermost open group, or in the list of rules outside of
    all groups. -/
def pushRules (found : List Rule) (open_ : List OpenGroup) (rules : List Rule) :
    List OpenGroup × List Rule :=
  match open_ with
  | [] => ([], found.reverse ++ rules)
  | group :: others => (group.extend found :: others, rules)

theorem pushRule_eq (rule : Rule) (open_ : List OpenGroup) (rules : List Rule) :
    pushRule rule open_ rules = pushRules [rule] open_ rules := by
  cases open_ <;> rfl

theorem pushRules_nil (open_ : List OpenGroup) (rules : List Rule) :
    pushRules [] open_ rules = (open_, rules) := by
  cases open_ <;> rfl

theorem pushRules_pushRules (first second : List Rule) (open_ : List OpenGroup)
    (rules : List Rule) :
    pushRules second (pushRules first open_ rules).1 (pushRules first open_ rules).2 =
      pushRules (first ++ second) open_ rules := by
  cases open_ <;> simp [pushRules, OpenGroup.extend]

theorem length_pushRules (found : List Rule) (open_ : List OpenGroup) (rules : List Rule) :
    (pushRules found open_ rules).1.length = open_.length := by
  cases open_ <;> rfl

/-- Tokens that close the groups that are open, each behind more rules, and end
    in rules outside of all groups. -/
inductive ClosesGroups (limit : Option Nat) :
    List OpenGroup → List Rule → List Token → List Rule → Prop where
  | outermost {rules found : List Rule} {tokens : List Token} :
    Rule.Forms limit 0 tokens found →
    ClosesGroups limit [] rules tokens (rules.reverse ++ found)
  | inside {group : OpenGroup} {others : List OpenGroup} {rules found all : List Rule}
    {inner tokens : List Token} :
    Rule.Forms limit (others.length + 1) inner found →
    ClosesGroups limit (pushRules [(group.extend found).close] others rules).1
      (pushRules [(group.extend found).close] others rules).2 tokens all →
    ClosesGroups limit (group :: others) rules (inner ++ .closeBrace :: tokens) all

variable {limit : Option Nat} {open_ : List OpenGroup} {rules all : List Rule}

/-- Rules may be pushed before the groups are closed. -/
theorem ClosesGroups.of_pushRules {front tokens : List Token} {found : List Rule}
    (hfront : Rule.Forms limit open_.length front found)
    (h : ClosesGroups limit (pushRules found open_ rules).1 (pushRules found open_ rules).2
      tokens all) :
    ClosesGroups limit open_ rules (front ++ tokens) all := by
  cases open_ with
  | nil =>
    cases h with
    | outermost htokens =>
      have hall : ClosesGroups limit [] rules _ _ := .outermost (hfront.append htokens)
      simpa [pushRules] using hall
  | cons group others =>
    cases h with
    | inside hinner hrest =>
      rw [← List.append_assoc]
      refine .inside (hfront.append hinner) ?_
      rw [show (pushRules found (group :: others) rules).2 = rules from rfl] at hrest
      simpa [OpenGroup.extend, OpenGroup.close] using hrest

/-- The groups that a rule closes, or goes into, are closed behind it. -/
theorem ClosesGroups.of_opens {name : String} {kind : GroupKind} {front tokens : List Token}
    {values : List Value} (hkind : AtRuleKind.ofKeyword (asciiLower name) = .group kind)
    (hnest : mayNest limit open_.length = true)
    (hfront : Prelude.Forms limit open_.length front ⟨values, true⟩)
    (h : ClosesGroups limit (⟨kind, Value.normalizeCondition values, []⟩ :: open_) rules
      tokens all) :
    ClosesGroups limit open_ rules (.atKeyword name :: (front ++ tokens)) all := by
  cases h with
  | @inside _ _ _ found _ inner rest hinner hrest =>
    have hgroup := Rule.Forms.group hkind hnest hfront hinner .nil
    have hclosed := ClosesGroups.of_pushRules hgroup
      (by simpa [OpenGroup.close, OpenGroup.extend] using hrest)
    simpa using hclosed

/-- Where an at-rule puts what it turned out to be. -/
def AtRule.place (result : AtRule) (open_ : List OpenGroup) (rules : List Rule) :
    List OpenGroup × List Rule :=
  match result with
  | .rule found => pushRules [found] open_ rules
  | .opens kind condition => (⟨kind, condition, []⟩ :: open_, rules)
  | .dropped => (open_, rules)

theorem AtRule.place_ofOption (rule : Option Rule) (open_ : List OpenGroup) (rules : List Rule) :
    (ofOption rule).place open_ rules = pushRules rule.toList open_ rules := by
  cases rule with
  | none => exact (pushRules_nil open_ rules).symm
  | some found => rfl

/-- The tokens of an at-rule, or of the beginning of a group, in front of those
    that close the groups behind it. -/
theorem exists_of_atKeyword {name : String} {reader after : Reader} {result : AtRule}
    {tokens rest : List Token} (hpeek : reader.peek = .atKeyword name)
    (hread : (AtRule.read limit open_.length reader).2 = .ok (result, after))
    (htokens : after.tokens = tokens ++ rest)
    (h : ClosesGroups limit (result.place open_ rules).1 (result.place open_ rules).2 tokens all) :
    ∃ front, reader.tokens = front ++ rest ∧ ClosesGroups limit open_ rules front all := by
  obtain ⟨front, prelude, hfront, hcases⟩ := AtRule.read_sound hpeek hread
  rcases hcases with ⟨kind, hkind, hblock, hnest, hall, rfl⟩ | ⟨body, found, hall, rfl, hbody⟩
  · obtain ⟨values, hasBlock⟩ := prelude
    obtain rfl : hasBlock = true := hblock
    refine ⟨.atKeyword name :: (front ++ tokens), ?_, .of_opens hkind hnest hfront h⟩
    rw [hall, htokens]
    simp
  · rw [AtRule.place_ofOption, ← List.append_nil found.toList] at h
    refine ⟨.atKeyword name :: (front ++ (body ++ [])) ++ tokens, ?_,
      .of_pushRules (.atRule hfront hbody .nil) h⟩
    rw [hall, htokens]
    simp

/-- What begins a style rule is no mark that may stand between rules. -/
theorem not_mark_of_beginsStyle {token : Token} (h : token.beginsStyle open_.length = true) :
    ¬(open_.isEmpty && (decide (token = .commentOpen) || decide (token = .commentClose))) := by
  cases open_ with
  | nil =>
    intro hmark
    simp only [List.isEmpty_nil, Bool.true_and, Bool.or_eq_true, decide_eq_true_eq] at hmark
    rcases hmark with rfl | rfl <;> cases h
  | cons => simp

theorem beginsStyle_of_not_mark {token : Token} (hend : token ≠ .eof)
    (hblank : token ≠ .whitespace) (hbrace : token ≠ .closeBrace)
    (hat : ∀ name, token ≠ .atKeyword name)
    (hmark : ¬(open_.isEmpty && (decide (token = .commentOpen) || decide (token = .commentClose)))) :
    token.beginsStyle open_.length = true := by
  cases token with
  | eof | whitespace | closeBrace => contradiction
  | atKeyword name => exact absurd rfl (hat name)
  | commentOpen | commentClose =>
    cases open_ with
    | nil => simp at hmark
    | cons group others => rfl
  | _ => rfl

/-- The tokens of a style rule in front of those that close the groups behind
    it. -/
theorem exists_of_style {reader after : Reader} {rule : StyleRule} {tokens rest : List Token}
    (hread : StyleRule.read limit open_.length reader = .ok (rule, after))
    (hbegins : reader.peek.beginsStyle open_.length = true)
    (htokens : after.tokens = tokens ++ rest)
    (h : ClosesGroups limit (pushRules [.style rule] open_ rules).1
      (pushRules [.style rule] open_ rules).2 tokens all) :
    ∃ front, reader.tokens = front ++ rest ∧ ClosesGroups limit open_ rules front all := by
  obtain ⟨front, hfront, hform⟩ := StyleRule.read_sound hread
  have hhead : ∀ t ∈ front.head?, t.beginsStyle open_.length = true := by
    intro t ht
    rwa [Reader.peek_of_head? hfront ht] at hbegins
  refine ⟨front ++ [] ++ tokens, ?_, .of_pushRules (.style hform hhead .nil) h⟩
  rw [hfront, htokens]
  simp

theorem readRules_sound {reader after : Reader}
    (h : (readRules limit open_ rules reader).2 = .ok (all, after)) :
    ∃ tokens rest, reader.tokens = tokens ++ rest ∧ rest.head?.getD .eof = .eof ∧
      ClosesGroups limit open_ rules tokens all := by
  fun_induction readRules limit open_ rules reader with
  | case1 open_ rules reader hpeek hopen =>
    cases h
    obtain rfl : open_ = [] := List.isEmpty_iff.1 hopen
    refine ⟨[], reader.tokens, rfl, reader.peek_eq.symm.trans hpeek, ?_⟩
    simpa using ClosesGroups.outermost (.nil : Rule.Forms limit 0 [] [])
  | case3 open_ rules reader hpeek _ ih =>
    obtain ⟨tokens, rest, htokens, hend, hcloses⟩ := ih h
    refine ⟨.whitespace :: tokens, rest, ?_, hend,
      .of_pushRules (.blank .nil) (by rwa [pushRules_nil])⟩
    rw [Reader.tokens_eq_of_peek hpeek (by simp), htokens]
    rfl
  | case5 rules reader hpeek group others _ open' rules' hpush ih =>
    obtain ⟨tokens, rest, htokens, hend, hcloses⟩ := ih h
    refine ⟨.closeBrace :: tokens, rest, ?_, hend, ?_⟩
    · rw [Reader.tokens_eq_of_peek hpeek (by simp), htokens]
      rfl
    · rw [pushRule_eq] at hpush
      refine .inside .nil ?_
      simpa [OpenGroup.extend, hpush] using hcloses
  | case7 open_ rules reader name hpeek step rule middle hread _ open' rules' hnext notes result
      hrest ih =>
    obtain ⟨tokens, rest, htokens, hend, hcloses⟩ := ih (by rw [hrest]; exact h)
    have hplace : rule.place open_ rules = (open', rules') := by
      rw [← hnext]
      cases rule <;> simp [AtRule.place, pushRule_eq]
    obtain ⟨front, hfront, hall⟩ := exists_of_atKeyword hpeek hread htokens (by rwa [hplace])
    exact ⟨front, rest, hfront, hend, hall⟩
  | case8 open_ rules reader _ _ _ _ hmark _ ih =>
    obtain ⟨tokens, rest, htokens, hend, hcloses⟩ := ih h
    simp only [Bool.and_eq_true, List.isEmpty_iff, Bool.or_eq_true, decide_eq_true_eq] at hmark
    refine ⟨reader.peek :: tokens, rest, ?_, hend,
      .of_pushRules (.mark (by simp [hmark.1]) hmark.2 .nil) (by rwa [pushRules_nil])⟩
    rw [Reader.tokens_eq_of_peek rfl (by rcases hmark.2 with h | h <;> simp [h]), htokens]
    rfl
  | case10 open_ rules reader rule middle hread _ open' rules' hpush hend' hblank hbrace hat
      hmark ih =>
    obtain ⟨tokens, rest, htokens, hend, hcloses⟩ := ih h
    rw [pushRule_eq] at hpush
    obtain ⟨front, hfront, hall⟩ := exists_of_style hread
      (beginsStyle_of_not_mark hend' hblank hbrace hat hmark) htokens (by rwa [hpush])
    exact ⟨front, rest, hfront, hend, hall⟩
  | _ => simp_all [Reader.fail]

theorem readRules_blank {reader : Reader} (hpeek : reader.peek = .whitespace) :
    (readRules limit open_ rules reader).2 = (readRules limit open_ rules reader.advance).2 := by
  rw [readRules]
  split <;> simp_all

theorem readRules_mark {reader : Reader}
    (hpeek : reader.peek = .commentOpen ∨ reader.peek = .commentClose) :
    (readRules limit [] rules reader).2 = (readRules limit [] rules reader.advance).2 := by
  rw [readRules]
  split
  case h_5 => rw [dif_pos (by simp [hpeek])]
  all_goals simp_all

theorem readRules_closeBrace {group : OpenGroup} {others : List OpenGroup} {reader : Reader}
    (hpeek : reader.peek = .closeBrace) :
    (readRules limit (group :: others) rules reader).2 =
      (readRules limit (pushRules [group.close] others rules).1
        (pushRules [group.close] others rules).2 reader.advance).2 := by
  rw [readRules, ← pushRule_eq]
  split <;> simp_all

theorem readRules_style {reader after : Reader} {rule : StyleRule}
    (hpeek : reader.peek.beginsStyle open_.length = true)
    (hread : StyleRule.read limit open_.length reader = .ok (rule, after)) :
    (readRules limit open_ rules reader).2 =
      (readRules limit (pushRules [.style rule] open_ rules).1
        (pushRules [.style rule] open_ rules).2 after).2 := by
  rw [readRules, ← pushRule_eq]
  split
  case h_5 =>
    rw [dif_neg (not_mark_of_beginsStyle hpeek)]
    split
    · next hfail =>
      rw [hread] at hfail
      cases hfail
    · next hok =>
      rw [hread] at hok
      cases hok
      rfl
  all_goals simp_all [Token.beginsStyle]

theorem readRules_atKeyword (rules : List Rule) {name : String} {reader after : Reader} {result : AtRule}
    (hpeek : reader.peek = .atKeyword name)
    (hread : (AtRule.read limit open_.length reader).2 = .ok (result, after)) :
    (readRules limit open_ rules reader).2 =
      (readRules limit (result.place open_ rules).1 (result.place open_ rules).2 after).2 := by
  rw [readRules]
  split
  case h_4 =>
    dsimp only
    split
    · next hfail =>
      rw [hread] at hfail
      cases hfail
    · next hok =>
      rw [hread] at hok
      cases hok
      cases result <;> simp [AtRule.place, ← pushRule_eq]
  all_goals simp_all

theorem readRules_atKeyword_error {name : String} {reader : Reader} {failure : Failure}
    (hpeek : reader.peek = .atKeyword name)
    (hread : (AtRule.read limit open_.length reader).2 = .error failure) :
    (readRules limit open_ rules reader).2 = .error failure := by
  rw [readRules]
  split
  case h_4 =>
    dsimp only
    split
    · next hfail =>
      rw [hread] at hfail
      cases hfail
      rfl
    · next hok =>
      rw [hread] at hok
      cases hok
  all_goals simp_all

theorem readRules_style_error {reader : Reader} {failure : Failure}
    (hpeek : reader.peek.beginsStyle open_.length = true)
    (hread : StyleRule.read limit open_.length reader = .error failure) :
    (readRules limit open_ rules reader).2 = .error failure := by
  rw [readRules]
  split
  case h_5 =>
    rw [dif_neg (not_mark_of_beginsStyle hpeek)]
    split
    · next hfail =>
      rw [hread] at hfail
      cases hfail
      rfl
    · next hok =>
      rw [hread] at hok
      cases hok
  all_goals simp_all [Token.beginsStyle]

theorem readRules_eof {reader : Reader} (hpeek : reader.peek = .eof) :
    (readRules limit open_ rules reader).2 =
      if open_.isEmpty then .ok (rules.reverse, reader.advance)
      else reader.advance.fail .unclosedBlock := by
  rw [readRules]
  split
  case h_1 => split <;> rfl
  all_goals simp_all

theorem readRules_stray {reader : Reader} (hpeek : reader.peek = .closeBrace) :
    (readRules limit [] rules reader).2 = reader.advance.fail .strayBrace := by
  rw [readRules]
  split <;> simp_all

/-- Reading rules takes the tokens that they are made of, and goes on behind
    them with the rules in place. -/
theorem readRules_complete {tokens rest : List Token} {found : List Rule} {depth : Nat}
    (h : Rule.Forms limit depth tokens found) (hdepth : open_.length = depth) {reader : Reader}
    (htokens : reader.tokens = tokens ++ rest) :
    ∃ middle, middle.tokens = rest ∧ (readRules limit open_ rules reader).2 =
      (readRules limit (pushRules found open_ rules).1 (pushRules found open_ rules).2 middle).2 := by
  induction h generalizing open_ rules reader rest with
  | nil => exact ⟨reader, htokens, by rw [pushRules_nil]⟩
  | blank _ ih =>
    obtain ⟨middle, hmiddle, hread⟩ := ih hdepth (Reader.tokens_advance htokens)
    refine ⟨middle, hmiddle, ?_⟩
    rw [readRules_blank (Reader.peek_of_tokens htokens), hread]
  | @mark depth token tokens found hzero hmark _ ih =>
    obtain rfl : open_ = [] := List.length_eq_zero_iff.1 (hdepth.trans hzero)
    obtain ⟨middle, hmiddle, hread⟩ := ih hdepth (Reader.tokens_advance htokens)
    refine ⟨middle, hmiddle, ?_⟩
    rw [readRules_mark (by rwa [Reader.peek_of_tokens htokens]), hread]
  | @style depth front back rule found hstyle hhead _ ih =>
    rw [List.append_assoc] at htokens
    subst hdepth
    obtain ⟨after, hread, hafter⟩ := StyleRule.read_complete hstyle htokens
    obtain ⟨middle, hmiddle, hrest⟩ := ih (length_pushRules [.style rule] open_ rules) hafter
    refine ⟨middle, hmiddle, ?_⟩
    have hpeek : reader.peek.beginsStyle open_.length = true := by
      obtain ⟨t, more, rfl, -⟩ := hstyle.head
      rw [Reader.peek_of_tokens htokens]
      exact hhead t rfl
    rw [readRules_style hpeek hread, hrest, pushRules_pushRules, List.singleton_append]
  | @atRule depth name front body back prelude rule found hfront hbody _ ih =>
    rw [List.cons_append, List.append_assoc, List.append_assoc] at htokens
    subst hdepth
    obtain ⟨after, hread, hafter⟩ := AtRule.read_complete hfront hbody htokens
    have hstep := readRules_atKeyword rules (Reader.peek_of_tokens htokens) hread
    obtain ⟨middle, hmiddle, hrest⟩ := ih (length_pushRules rule.toList open_ rules) hafter
    refine ⟨middle, hmiddle, ?_⟩
    rw [hstep, AtRule.place_ofOption, hrest, pushRules_pushRules]
  | @group depth name kind front inner back values inside found hkind hnest hfront _ _ ihInner ih =>
    rw [List.cons_append, List.append_assoc, List.append_assoc, List.cons_append] at htokens
    subst hdepth
    obtain ⟨after, hread, hafter⟩ := AtRule.read_group hkind hnest hfront htokens
    have hstep := readRules_atKeyword rules (Reader.peek_of_tokens htokens) hread
    let group : OpenGroup := ⟨kind, Value.normalizeCondition values, []⟩
    have hclose : (group.extend inside).close =
        .group kind (Value.normalizeCondition values) inside := by
      simp [group, OpenGroup.extend, OpenGroup.close]
    obtain ⟨bottom, hbottom, hinside⟩ := @ihInner (group :: open_) rules _ rfl after hafter
    obtain ⟨middle, hmiddle, hrest⟩ := @ih (pushRules [(group.extend inside).close] open_ rules).1
      (pushRules [(group.extend inside).close] open_ rules).2 _ (length_pushRules _ open_ rules)
      _ (Reader.tokens_advance hbottom)
    refine ⟨middle, hmiddle, ?_⟩
    calc (readRules limit open_ rules reader).2
        = (readRules limit (group.extend inside :: open_) rules bottom).2 := by
          rw [hstep]
          exact hinside
      _ = (readRules limit (pushRules [(group.extend inside).close] open_ rules).1
            (pushRules [(group.extend inside).close] open_ rules).2 bottom.advance).2 :=
          readRules_closeBrace (Reader.peek_of_tokens hbottom)
      _ = _ := by rw [hrest, pushRules_pushRules, hclose, List.singleton_append]

end DeepScope
