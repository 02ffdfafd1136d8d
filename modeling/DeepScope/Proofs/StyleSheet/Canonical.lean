import DeepScope.Proofs.Selector.Shape
import DeepScope.Proofs.StyleSheet.Forms

namespace DeepScope

/-- A declaration as reading makes it. Only a custom property may have no value. -/
structure Declaration.Canonical (declaration : Declaration) : Prop where
  value : Value.CanonicalList declaration.value
  filled : declaration.value ≠ [] ∨ "--".toList <+: declaration.name.toList

/-- A style rule as reading makes it. -/
structure StyleRule.Canonical (rule : StyleRule) : Prop where
  ne_nil : rule.selectors ≠ []
  selectors : ∀ s ∈ rule.selectors, s.Canonical
  declarations : ∀ d ∈ rule.declarations, d.Canonical

/-- A page rule as reading makes it. -/
structure PageRule.Canonical (rule : PageRule) : Prop where
  selector : Value.CanonicalList rule.selector
  declarations : ∀ d ∈ rule.declarations, d.Canonical
  margins : ∀ margin ∈ rule.margins, ∀ d ∈ margin.declarations, d.Canonical

/-- A block of an animation as reading makes it: it has a selector, and none of
    them is empty. -/
structure KeyframeBlock.Canonical (block : KeyframeBlock) : Prop where
  ne_nil : block.selectors ≠ []
  selectors : ∀ s ∈ block.selectors, s ≠ [] ∧ Value.CanonicalList s
  declarations : ∀ d ∈ block.declarations, d.Canonical

/-- An animation as reading makes it. -/
structure KeyframesRule.Canonical (rule : KeyframesRule) : Prop where
  name : Value.CanonicalList rule.name
  blocks : ∀ b ∈ rule.blocks, b.Canonical

/-- A rule as reading makes it, with all that it holds. -/
inductive Rule.Canonical : Rule → Prop where
  | style {rule : StyleRule} : rule.Canonical → Canonical (.style rule)
  | group {kind : GroupKind} {condition : List Value} {rules : List Rule} :
    Value.CanonicalList condition → Value.Conditioned condition → (∀ r ∈ rules, Canonical r) →
    Canonical (.group kind condition rules)
  | page {rule : PageRule} : rule.Canonical → Canonical (.page rule)
  | keyframes {rule : KeyframesRule} :
    asciiLower rule.keyword ≠ "charset" → rule.Canonical → Canonical (.keyframes rule)
  | descriptors {name : String} {values : List Value} {declarations : List Declaration} :
    asciiLower name ≠ "charset" → Value.CanonicalList values → (∀ d ∈ declarations, d.Canonical) →
    Canonical (.descriptors name values declarations)
  | statement {name : String} {values : List Value} :
    asciiLower name ≠ "charset" → Value.CanonicalList values → Canonical (.statement name values)
  | verbatim {name : String} {values block : List Value} :
    asciiLower name ≠ "charset" → Value.CanonicalList values → Value.CanonicalList block →
    Canonical (.verbatim name values block)

variable {limit : Option Nat} {depth : Nat} {tokens : List Token}

theorem Prelude.Forms.canonical {prelude : Prelude} (h : Prelude.Forms limit depth tokens prelude) :
    Value.CanonicalList prelude.values := by
  cases h with
  | intro hgathers _ => exact .normalize hgathers.canonical

theorem VerbatimForms.canonical {values : List Value} (h : VerbatimForms limit depth tokens values) :
    Value.CanonicalList values := by
  cases h with
  | intro hgathers => exact .normalize hgathers.canonical

namespace Declaration

theorem Forms.canonical {declaration : Declaration} (h : Forms limit depth tokens declaration) :
    declaration.Canonical := by
  cases h with
  | @intro name blanks tokens values _ hgathers _ hempty =>
    obtain ⟨back, hback, hlast⟩ := exists_normalize_eq name values
    have hvalue := Value.CanonicalList.normalize hgathers.canonical
    rw [hback] at hvalue
    refine ⟨hvalue.of_append hlast, ?_⟩
    by_cases hnil : (ofValues name values).value = []
    · exact .inr (List.isPrefixOf_iff_prefix.1 (hempty hnil))
    · exact .inl hnil

theorem BlockForms.canonical {declarations : List Declaration}
    (h : BlockForms limit depth tokens declarations) : ∀ d ∈ declarations, d.Canonical := by
  induction h with
  | nil => exact nofun
  | skip _ _ ih => exact ih
  | declaration hform _ _ ih => exact List.forall_mem_cons.2 ⟨hform.canonical, ih⟩

end Declaration

theorem StyleRule.Forms.canonical {rule : StyleRule} (h : Forms limit depth tokens rule) :
    rule.Canonical := by
  cases h with
  | intro hfront hselectors hbody =>
    obtain ⟨hne, hcanonical⟩ := Selector.readAll_canonical hfront.canonical.each hselectors
    exact ⟨hne, hcanonical, hbody.canonical⟩

theorem PageRule.BlockForms.canonical {declarations : List Declaration} {margins : List MarginRule}
    (h : BlockForms limit depth tokens declarations margins) :
    (∀ d ∈ declarations, d.Canonical) ∧
      ∀ margin ∈ margins, ∀ d ∈ margin.declarations, d.Canonical := by
  induction h with
  | nil => exact ⟨nofun, nofun⟩
  | skip _ _ ih => exact ih
  | declaration hform _ _ ih => exact ⟨List.forall_mem_cons.2 ⟨hform.canonical, ih.1⟩, ih.2⟩
  | margin _ hbody _ ih => exact ⟨ih.1, List.forall_mem_cons.2 ⟨hbody.canonical, ih.2⟩⟩

theorem KeyframesRule.BlockForms.canonical {blocks : List KeyframeBlock}
    (h : BlockForms limit depth tokens blocks) : ∀ b ∈ blocks, b.Canonical := by
  induction h with
  | nil => exact nofun
  | skip _ ih => exact ih
  | block hfront _ hpieces hbody _ ih =>
    refine List.forall_mem_cons.2 ⟨⟨splitOn_ne_nil _ _, fun s hs => ⟨hpieces s hs, ?_⟩, ?_⟩, ih⟩
    · exact hfront.canonical.splitOn s hs
    · exact hbody.canonical

theorem AtRule.BodyForms.canonical {name : String} {prelude : Prelude} {rule : Option Rule}
    (hprelude : Value.CanonicalList prelude.values)
    (h : BodyForms limit depth name prelude tokens rule) : ∀ r ∈ rule, r.Canonical := by
  -- The name of a rule that is kept decides on another kind than that of charset rules.
  have hname : ∀ {kind}, AtRuleKind.ofKeyword (asciiLower name) = kind → kind ≠ .charset →
      asciiLower name ≠ "charset" := by
    rintro kind rfl hkind hcharset
    exact hkind (if_pos hcharset)
  intro r hr
  cases h with
  | charset => cases hr
  | statement hkind =>
    cases hr
    exact .statement (hkind.elim (fun h => hname h (by simp)) fun h => hname h (by simp)) hprelude
  | page _ hbody =>
    cases hr
    exact .page ⟨hprelude, hbody.canonical.1, hbody.canonical.2⟩
  | keyframes hkind hbody =>
    cases hr
    exact .keyframes (hname hkind (by simp)) ⟨hprelude, hbody.canonical⟩
  | descriptors hkind hbody =>
    cases hr
    exact .descriptors (hname hkind (by simp)) hprelude hbody.canonical
  | verbatim hkind hbody =>
    cases hr
    exact .verbatim (hname hkind (by simp)) hprelude hbody.canonical

theorem Rule.Forms.canonical {rules : List Rule} (h : Forms limit depth tokens rules) :
    ∀ r ∈ rules, r.Canonical := by
  induction h with
  | nil => exact nofun
  | blank _ ih => exact ih
  | mark _ _ _ ih => exact ih
  | style hstyle _ _ ih => exact List.forall_mem_cons.2 ⟨.style hstyle.canonical, ih⟩
  | atRule hprelude hbody _ ih =>
    intro r hr
    rcases List.mem_append.1 hr with hr | hr
    · exact hbody.canonical hprelude.canonical r (Option.mem_toList.1 hr)
    · exact ih r hr
  | group _ _ hprelude _ _ ihInner ih =>
    obtain ⟨hcondition, htight⟩ := hprelude.canonical.normalizeCondition
    exact List.forall_mem_cons.2 ⟨.group hcondition htight ihInner, ih⟩

namespace StyleSheet

/-- Whatever tokens a stylesheet is read from, all of its rules have the form that
    reading makes. -/
theorem canonical_of_ofTokens {items : List Located} {sheet : StyleSheet}
    (h : ofTokens items = .ok sheet) : ∀ r ∈ sheet.rules, r.Canonical := by
  obtain ⟨tokens, rest, -, -, hforms⟩ := ofTokens_eq_ok_iff.1 h
  exact hforms.toRules.canonical

/-- In `a > b { c : d !important }` the white space in front of the mark goes with
    it. -/
theorem canonical_important : (Rule.style ⟨[⟨[.simple (.type none "a"), .combinator .child,
    .simple (.type none "b")]⟩], [⟨"c", [.token (.ident "d")], true⟩]⟩).Canonical := by
  let tokens : List Token := [.ident "a", .whitespace, .delim '>', .whitespace, .ident "b",
    .whitespace, .openBrace, .whitespace, .ident "c", .whitespace, .colon, .whitespace, .ident "d",
    .whitespace, .delim '!', .ident "important", .whitespace, .closeBrace]
  have hread : ofTokens (tokens.map fun t => ⟨t, ⟨1, 1⟩⟩) = .ok ⟨[.style ⟨[⟨[.simple (.type none "a"),
      .combinator .child, .simple (.type none "b")]⟩],
      [⟨"c", [.token (.ident "d")], true⟩]⟩], none⟩ :=
    eq_ok_of_toOption (by decide +kernel)
  exact canonical_of_ofTokens hread _ List.mem_cons_self

end StyleSheet

end DeepScope
