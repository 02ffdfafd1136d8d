import DeepScope.Proofs.Rule.Block

namespace DeepScope

/-- Whether no mark of an old comment stands in the value. -/
def Declaration.isUnmarked (declaration : Declaration) : Bool :=
  Value.isUnmarked declaration.value

def StyleRule.isUnmarked (rule : StyleRule) : Bool :=
  rule.selectors.all Selector.isUnmarked && rule.declarations.all Declaration.isUnmarked

def PageRule.isUnmarked (rule : PageRule) : Bool :=
  Value.isUnmarked rule.selector && rule.declarations.all Declaration.isUnmarked &&
    rule.margins.all fun margin => margin.declarations.all Declaration.isUnmarked

def KeyframeBlock.isUnmarked (block : KeyframeBlock) : Bool :=
  block.selectors.all Value.isUnmarked && block.declarations.all Declaration.isUnmarked

def KeyframesRule.isUnmarked (rule : KeyframesRule) : Bool :=
  Value.isUnmarked rule.name && rule.blocks.all KeyframeBlock.isUnmarked

namespace Rule

mutual

/-- Whether no mark of an old comment stands among the values of the rule, and
    none could be read in the names of its selectors. -/
def isUnmarked : Rule → Bool
  | .style rule => rule.isUnmarked
  | .group _ condition rules => Value.isUnmarked condition && areUnmarked rules
  | .page rule => rule.isUnmarked
  | .keyframes rule => rule.isUnmarked
  | .descriptors _ prelude declarations =>
    Value.isUnmarked prelude && declarations.all Declaration.isUnmarked
  | .statement _ prelude => Value.isUnmarked prelude
  | .verbatim _ prelude block => Value.isUnmarked prelude && Value.isUnmarked block

def areUnmarked : List Rule → Bool
  | [] => true
  | rule :: rest => isUnmarked rule && areUnmarked rest

end

theorem areUnmarked_iff {rules : List Rule} :
    areUnmarked rules = true ↔ ∀ r ∈ rules, r.isUnmarked = true := by
  induction rules with
  | nil => simp [areUnmarked]
  | cons rule rest ih => simp [areUnmarked, ih]

end Rule

/-- Tokens that a charset rule does not begin. -/
def LacksCharset (tokens : List Token) : Prop :=
  tokens.head? ≠ some (.atKeyword "charset")

theorem LacksCharset.append {front back : List Token} (h : LacksCharset front) (h' : LacksCharset back) :
    LacksCharset (front ++ back) := by
  cases front with
  | nil => exact h'
  | cons t front => exact h

theorem IsGap.lacksCharset {gap : List Token} (h : IsGap gap) : LacksCharset gap := by
  cases h <;> simp [LacksCharset]

variable {limit : Option Nat} {depth : Nat} {more blanks : List Char} {tokens : List Token}

theorem AtRule.BodyForms.ne_charset {name : String} {prelude : Prelude} {rule : Rule}
    (h : BodyForms limit depth name prelude tokens (some rule)) : name ≠ "charset" := by
  rintro rfl
  have hkind : AtRuleKind.ofKeyword (asciiLower "charset") = .charset := by decide
  cases h with
  | statement hother => rcases hother with hother | hother <;> simp [hkind] at hother
  | page hother | keyframes hother | descriptors hother | verbatim hother => simp [hkind] at hother

theorem Rule.Forms.of_gap {gap : List Token} (hgap : IsGap gap) {rules : List Rule}
    (h : Forms limit depth tokens rules) : Forms limit depth (gap ++ tokens) rules := by
  cases hgap with
  | none => exact h
  | blank => exact .blank h

theorem IsGap.rules {gap : List Token} (h : IsGap gap) : Rule.Forms limit depth gap [] := by
  simpa using Rule.Forms.of_gap h .nil

namespace Rule

/-- The rule is read back inside so many groups, whatever is written behind it. -/
def ReadsBack (layout : Layout) (limit : Option Nat) (depth : Nat) (rule : Rule) : Prop :=
  ∀ {indent : Nat} {more : List Char} {tokens : List Token}, Spells more tokens →
    ∃ front, Spells (Piece.charsAll (rule.pieces layout indent) ++ more) (front ++ tokens) ∧
      Forms limit depth front [rule] ∧ LacksCharset front

/-- Rules are read back if each of them is. -/
theorem readsBack_all {layout : Layout} {rules : List Rule}
    (hrules : ∀ r ∈ rules, r.ReadsBack layout limit depth) {indent : Nat}
    (h : Spells more tokens) :
    ∃ front, Spells (Piece.charsAll (piecesAll layout indent rules) ++ more) (front ++ tokens) ∧
      Forms limit depth front rules ∧ LacksCharset front := by
  induction rules with
  | nil =>
    refine ⟨[], ?_, .nil, by simp [LacksCharset]⟩
    rw [piecesAll]
    exact h
  | cons rule rest ih =>
    obtain ⟨below, hbelow, hforms, hhead⟩ := ih fun r hr => hrules r (List.mem_cons_of_mem rule hr)
    have hblank : ∀ c ∈ Piece.charsAll (if indent = 0 && !rest.isEmpty then layout.newline else []),
        isBlank c = true := by
      intro c hc
      split at hc
      · exact layout.isBlank_of_mem_newline hc
      · cases hc
    obtain ⟨gap, hgap, hline⟩ := hbelow.gap_append hblank
    obtain ⟨front, hfront, hform, hfrontHead⟩ := hrules rule List.mem_cons_self hline
    refine ⟨front ++ (gap ++ below), ?_, hform.append (.of_gap hgap hforms),
      hfrontHead.append (hgap.lacksCharset.append hhead)⟩
    rw [piecesAll]
    simpa using hfront

end Rule

namespace Spells

/-- An at-rule that is no group is read back if what stands behind its prelude is. -/
theorem atRule_append {name : String} {values : List Value} {hasBlock : Bool}
    {body behind : List Token} {rule : Rule} (h : Spells more (body ++ (behind ++ tokens)))
    (hbehind : IsGap behind)
    (hbody : AtRule.BodyForms limit depth name ⟨values, hasBlock⟩ body (some rule))
    (layout : Layout) (indent : Nat) (hname : IsName name)
    (hstretch : Value.Stretch endsPrelude limit depth values)
    (hunmarked : Value.isUnmarked values = true) (hblanks : ∀ c ∈ blanks, isBlank c = true) :
    ∃ front, Spells (Piece.charsAll (layout.indent indent) ++
        (Piece.charsAll (preludePieces layout name values) ++
          (blanks ++ ((Prelude.ender hasBlock).chars ++ more)))) (front ++ tokens) ∧
      Rule.Forms limit depth front [rule] ∧ LacksCharset front := by
  obtain ⟨front, hspells, hfront⟩ :=
    h.stretch_append layout hname hstretch hunmarked hblanks hasBlock
  obtain ⟨lead, hlead, hall⟩ := hspells.gap_append (fun c => layout.isBlank_of_mem_indent indent)
  refine ⟨lead ++ .atKeyword name :: (front ++ (body ++ behind)), ?_,
    .of_gap hlead (.atRule hfront hbody hbehind.rules), hlead.lacksCharset.append ?_⟩
  · simpa using hall
  · simpa [LacksCharset] using hbody.ne_charset

/-- A block that has no grammar is read back behind its opening brace. -/
theorem verbatim_append (h : Spells more tokens) (layout : Layout) {block : List Value}
    (hsound : Value.Sound limit depth block) (htidy : Value.Tidy block)
    (hunmarked : Value.isUnmarked block = true) :
    ∃ body behind, IsGap behind ∧
      Spells (Piece.charsAll (if block.isEmpty then [] else
          layout.space ++ (layout.values block ++ layout.space)) ++
        ((Token.closeBrace).chars ++ (Piece.charsAll layout.newline ++ more)))
        (body ++ .closeBrace :: (behind ++ tokens)) ∧
      VerbatimForms limit depth body block := by
  obtain ⟨behind, hbehind, hline⟩ := h.gap_append (fun c => layout.isBlank_of_mem_newline)
  have hclose := @cons_chars _ _ hline .closeBrace trivial (by simp) trivial
  cases hempty : block.isEmpty with
  | true =>
    obtain rfl := List.isEmpty_iff.1 hempty
    exact ⟨[], behind, hbehind, hclose, .intro .nil⟩
  | false =>
    have hspace : ∀ c ∈ Piece.charsAll layout.space, isBlank c = true :=
      fun c => layout.isBlank_of_mem_space
    obtain ⟨gap, hgap, hbrace⟩ := hclose.gap_append hspace
    obtain ⟨spread, others, hvalues, hgathers, halike, -⟩ :=
      hbrace.values_append layout (hsound.readsAs htidy hunmarked)
        (Separated.blanks_append (separated_cons rfl (by decide)) hspace)
    obtain ⟨lead, hlead, hall⟩ := hvalues.gap_append hspace
    obtain ⟨before, hbefore, -, hbeforeEq⟩ := hlead.gathers limit depth
    obtain ⟨after, hafter, -, hafterEq⟩ := hgap.gathers limit depth
    have hform := VerbatimForms.intro (hbefore.append (hgathers.append hafter))
    rw [(hbeforeEq _).1, (hafterEq _).2, halike.normalize_eq, htidy.normalize_eq] at hform
    refine ⟨_, behind, hbehind, ?_, hform⟩
    simpa using hall

/-- An at-rule is read back if its block is, which its closing brace ends. -/
theorem blockRule_append {name : String} {values : List Value} {body behind : List Token}
    {rule : Rule} (h : Spells more (body ++ .closeBrace :: (behind ++ tokens)))
    (hbehind : IsGap behind)
    (hbody : AtRule.BodyForms limit depth name ⟨values, true⟩ (body ++ [.closeBrace]) (some rule))
    (layout : Layout) (indent : Nat) (hname : IsName name)
    (hstretch : Value.Stretch endsPrelude limit depth values)
    (hunmarked : Value.isUnmarked values = true) :
    ∃ front, Spells (Piece.charsAll (layout.indent indent) ++
        (Piece.charsAll (preludePieces layout name values) ++
          (Piece.charsAll layout.space ++ ((Prelude.ender true).chars ++ more)))) (front ++ tokens) ∧
      Rule.Forms limit depth front [rule] ∧ LacksCharset front := by
  rw [List.append_cons] at h
  exact h.atRule_append hbehind hbody layout indent hname hstretch hunmarked
    fun c => layout.isBlank_of_mem_space

end Spells

namespace Rule

theorem readsBack_style (layout : Layout) {rule : StyleRule} (hsound : rule.Sound limit depth)
    (hunmarked : rule.isUnmarked = true) : (Rule.style rule).ReadsBack layout limit depth := by
  intro indent more tokens h
  simp only [StyleRule.isUnmarked, Bool.and_eq_true, List.all_eq_true] at hunmarked
  obtain ⟨hselectors, hdeclarations⟩ := hunmarked
  obtain ⟨body, behind, hbehind, hblock, hbody⟩ :=
    h.block_append layout indent hsound.declarations hdeclarations
  obtain ⟨gap, front, hgap, hspells, hfront, hhead⟩ := hblock.selectors_append layout indent
    hsound.ne_nil hsound.selectors hselectors (fun c => layout.isBlank_of_mem_space)
  have hread := Selector.readAll_listValues layout hsound.ne_nil hsound.selectors
  have hform := StyleRule.Forms.intro hfront hread hbody
  obtain ⟨t, rest, rfl, -⟩ := hfront.head
  have hbegins := hhead t rfl
  refine ⟨gap ++ (t :: rest ++ (body ++ [.closeBrace]) ++ behind), ?_,
    .of_gap hgap (.style hform hhead hbehind.rules), hgap.lacksCharset.append ?_⟩
  · simpa [pieces, StyleRule.pieces, Declaration.charsAll_blockPieces] using hspells
  · intro hcharset
    rw [Option.some.inj hcharset] at hbegins
    cases hbegins

/-- A group is read back if the rules that it holds are. -/
theorem readsBack_group (layout : Layout) {kind : GroupKind} {condition : List Value}
    {rules : List Rule} (hnest : mayNest limit depth = true)
    (hstretch : Value.Stretch endsPrelude limit depth condition)
    (hconditioned : Value.Conditioned condition) (hunmarked : Value.isUnmarked condition = true)
    (hrules : ∀ r ∈ rules, r.ReadsBack layout limit (depth + 1)) :
    (Rule.group kind condition rules).ReadsBack layout limit depth := by
  intro indent more tokens h
  obtain ⟨before, behind, hbefore, hbehind, hclose, -⟩ := h.closeBlock_append layout indent
  obtain ⟨inside, hinside, hforms, -⟩ := Rule.readsBack_all hrules hclose
  obtain ⟨gap, hgap, hblock⟩ := hinside.gap_append (fun c => layout.isBlank_of_mem_newline)
  have hname : IsName kind.keyword := by cases kind <;> decide
  have hkind : AtRuleKind.ofKeyword (asciiLower kind.keyword) = .group kind := by
    cases kind <;> decide
  have hreads := @Value.Conditioned.readsAs layout _ _ _ hstretch.sound hstretch.tidy hconditioned
    hunmarked
  have hheads : ∀ v ∈ condition.map (Value.regather layout), endsPrelude v.head = false := by
    intro w hw
    obtain ⟨v, hv, rfl⟩ := List.mem_map.1 hw
    rw [Value.head_regather]
    exact hstretch.heads v hv
  obtain ⟨front, hopen, hfront⟩ := hblock.prelude_append layout hname hreads hheads
    (fun c => layout.isBlank_of_mem_space) true
  obtain ⟨lead, hlead, hall⟩ := hopen.gap_append (fun c => layout.isBlank_of_mem_indent indent)
  have hinner : Rule.Forms limit (depth + 1) (gap ++ (inside ++ before)) rules := by
    simpa using Rule.Forms.of_gap hgap (hforms.append hbefore.rules)
  have hform := Rule.Forms.group hkind hnest hfront hinner hbehind.rules
  rw [hconditioned.normalizeCondition_normalize hstretch.sound hstretch.tidy] at hform
  refine ⟨_, ?_, .of_gap hlead hform, hlead.lacksCharset.append ?_⟩
  · simpa [Rule.pieces, Layout.openBlock, Prelude.ender] using hall
  · cases kind <;> simp [LacksCharset, GroupKind.keyword]

theorem readsBack_page (layout : Layout) {rule : PageRule} (h : rule.Sound limit depth)
    (hunmarked : rule.isUnmarked = true) : (Rule.page rule).ReadsBack layout limit depth := by
  intro indent more tokens hmore
  simp only [PageRule.isUnmarked, Bool.and_eq_true, List.all_eq_true] at hunmarked
  obtain ⟨⟨hselector, hdeclarations⟩, hmargins⟩ := hunmarked
  obtain ⟨body, behind, hbehind, hblock, hbody⟩ :=
    hmore.page_append layout indent h hdeclarations hmargins
  have hform := @AtRule.BodyForms.page limit depth "page" rule.selector _ _ _ (by decide) hbody
  obtain ⟨front, hall, hfront⟩ :=
    hblock.blockRule_append hbehind hform layout indent (by decide) h.selector hselector
  refine ⟨front, ?_, hfront⟩
  simpa [pieces, PageRule.pieces, Layout.openBlock, Prelude.ender] using hall

theorem readsBack_keyframes (layout : Layout) {rule : KeyframesRule} (h : rule.Sound limit depth)
    (hunmarked : rule.isUnmarked = true) : (Rule.keyframes rule).ReadsBack layout limit depth := by
  intro indent more tokens hmore
  simp only [KeyframesRule.isUnmarked, KeyframeBlock.isUnmarked, Bool.and_eq_true,
    List.all_eq_true] at hunmarked
  obtain ⟨body, behind, hbehind, hblock, hbody⟩ :=
    hmore.animation_append layout indent h.blocks hunmarked.2
  have hform := @AtRule.BodyForms.keyframes limit depth _ rule.name _ _ h.kind hbody
  obtain ⟨front, hall, hfront⟩ :=
    hblock.blockRule_append hbehind hform layout indent h.keyword h.name hunmarked.1
  refine ⟨front, ?_, hfront⟩
  simpa [pieces, KeyframesRule.pieces, Layout.openBlock, Prelude.ender] using hall

theorem readsBack_descriptors (layout : Layout) {name : String} {values : List Value}
    {declarations : List Declaration} (hname : IsName name)
    (hkind : AtRuleKind.ofKeyword (asciiLower name) = .descriptors)
    (hstretch : Value.Stretch endsPrelude limit depth values)
    (hdeclarations : ∀ d ∈ declarations, d.Sound limit depth)
    (hunmarked : (Rule.descriptors name values declarations).isUnmarked = true) :
    (Rule.descriptors name values declarations).ReadsBack layout limit depth := by
  intro indent more tokens hmore
  simp only [isUnmarked, Bool.and_eq_true, List.all_eq_true] at hunmarked
  obtain ⟨body, behind, hbehind, hblock, hbody⟩ :=
    hmore.block_append layout indent hdeclarations hunmarked.2
  have hform := @AtRule.BodyForms.descriptors limit depth name values _ _ hkind hbody
  obtain ⟨front, hall, hfront⟩ :=
    hblock.blockRule_append hbehind hform layout indent hname hstretch hunmarked.1
  refine ⟨front, ?_, hfront⟩
  simpa [pieces, Declaration.charsAll_blockPieces] using hall

theorem readsBack_statement (layout : Layout) {name : String} {values : List Value}
    (hname : IsName name) (hkind : AtRuleKind.ofKeyword (asciiLower name) = .blockless ∨
      AtRuleKind.ofKeyword (asciiLower name) = .other)
    (hstretch : Value.Stretch endsPrelude limit depth values)
    (hunmarked : Value.isUnmarked values = true) :
    (Rule.statement name values).ReadsBack layout limit depth := by
  intro indent more tokens hmore
  obtain ⟨behind, hbehind, hline⟩ := hmore.gap_append (fun c => layout.isBlank_of_mem_newline)
  have hform := @AtRule.BodyForms.statement limit depth name values hkind
  obtain ⟨front, hall, hfront⟩ := Spells.atRule_append hline hbehind hform layout indent hname
    hstretch hunmarked (List.forall_mem_nil _)
  refine ⟨front, ?_, hfront⟩
  simpa [pieces, Prelude.ender] using hall

theorem readsBack_verbatim (layout : Layout) {name : String} {values block : List Value}
    (hname : IsName name) (hkind : AtRuleKind.ofKeyword (asciiLower name) = .other)
    (hstretch : Value.Stretch endsPrelude limit depth values)
    (hsound : Value.Sound limit depth block) (htidy : Value.Tidy block)
    (hunmarked : (Rule.verbatim name values block).isUnmarked = true) :
    (Rule.verbatim name values block).ReadsBack layout limit depth := by
  intro indent more tokens hmore
  simp only [isUnmarked, Bool.and_eq_true] at hunmarked
  obtain ⟨body, behind, hbehind, hblock, hbody⟩ :=
    hmore.verbatim_append layout hsound htidy hunmarked.2
  have hform := @AtRule.BodyForms.verbatim limit depth name values _ _ hkind hbody
  obtain ⟨front, hall, hfront⟩ :=
    hblock.blockRule_append hbehind hform layout indent hname hstretch hunmarked.1
  refine ⟨front, ?_, hfront⟩
  simpa [pieces, verbatimPieces, Prelude.ender] using hall

/-- Every rule that can be read from a text is read back as it is written. -/
theorem Sound.readsBack (layout : Layout) {rule : Rule} (h : rule.Sound limit depth)
    (hunmarked : rule.isUnmarked = true) : rule.ReadsBack layout limit depth := by
  induction h with
  | style hrule => exact readsBack_style layout hrule hunmarked
  | group hnest hstretch hconditioned _ ih =>
    simp only [isUnmarked, Bool.and_eq_true, areUnmarked_iff] at hunmarked
    exact readsBack_group layout hnest hstretch hconditioned hunmarked.1
      fun r hr => ih r hr (hunmarked.2 r hr)
  | page hrule => exact readsBack_page layout hrule hunmarked
  | keyframes hrule => exact readsBack_keyframes layout hrule hunmarked
  | descriptors hname hkind hstretch hdeclarations =>
    exact readsBack_descriptors layout hname hkind hstretch hdeclarations hunmarked
  | statement hname hkind hstretch =>
    exact readsBack_statement layout hname hkind hstretch hunmarked
  | verbatim hname hkind hstretch hsound htidy =>
    exact readsBack_verbatim layout hname hkind hstretch hsound htidy hunmarked

end Rule

end DeepScope
