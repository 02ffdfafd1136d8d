import DeepScope.Proofs.Rule.Forms
import DeepScope.Proofs.Selector.Sound

namespace DeepScope

/-- Tokens of a text: they can be written, and an address in quotes stands behind
    each function that reads one. -/
structure Genuine (tokens : List Token) : Prop where
  legible : ∀ t ∈ tokens, t.Legible
  quoted : UrlsQuoted tokens

namespace Genuine

variable {front back : List Token}

theorem of_append (h : Genuine (front ++ back)) : Genuine back :=
  ⟨fun t ht => h.legible t (List.mem_append_right front ht),
    h.quoted.of_suffix (List.suffix_append front back)⟩

theorem of_cons {t : Token} (h : Genuine (t :: back)) : Genuine back :=
  ⟨fun u hu => h.legible u (List.mem_cons_of_mem t hu), h.quoted.of_suffix (List.suffix_cons t back)⟩

end Genuine

variable {limit : Option Nat} {depth : Nat} {tokens back : List Token}

namespace Value

/-- Values up to a token that would end them, as reading leaves them. -/
structure Stretch (ends : Token → Bool) (limit : Option Nat) (depth : Nat) (values : List Value) :
    Prop where
  sound : Sound limit depth values
  tidy : Tidy values
  heads : ∀ v ∈ values, ends v.head = false

theorem Stretch.normalize {ends : Token → Bool} {values : List Value}
    (hblank : ends .whitespace = false) (hsound : Sound limit depth values)
    (hheads : ∀ v ∈ values, ends v.head = false) :
    Stretch ends limit depth (normalize values) :=
  ⟨hsound.normalize, tidy_normalize values,
    heads_of_mem hblank (fun _ hv => mem_normalizeFrom hv) hheads⟩

/-- Values in front of a brace or a semicolon. -/
theorem Gathers.sound_of_genuine {values : List Value} {t : Token}
    (h : Gathers limit depth tokens values) (hgenuine : Genuine (tokens ++ t :: back))
    (ht : t = .semicolon ∨ t = .openBrace ∨ t = .closeBrace) : Sound limit depth values := by
  refine h.sound (fun u hu => hgenuine.legible u (List.mem_append_left _ hu))
    (hgenuine.quoted.of_append ?_ fun text => ?_)
  all_goals rcases ht with rfl | rfl | rfl <;> simp

end Value

open Value (Stretch)

/-- A declaration as it is read from a text. No mark of importance is left in a
    value that is not marked. -/
structure Declaration.Sound (limit : Option Nat) (depth : Nat) (declaration : Declaration) :
    Prop where
  name : IsName declaration.name
  value : Stretch endsDeclaration limit depth declaration.value
  filled : declaration.value = [] → allowsEmpty declaration.name = true
  plain : declaration.important = false → stripImportant declaration.value = none

theorem Declaration.Sound.kept {declaration : Declaration} (h : declaration.Sound limit depth) :
    declaration.Kept limit depth :=
  ⟨h.value.sound.gathers, h.value.tidy, h.value.heads, h.filled, h.plain⟩

/-- A style rule as it is read from a text. -/
structure StyleRule.Sound (limit : Option Nat) (depth : Nat) (rule : StyleRule) : Prop where
  ne_nil : rule.selectors ≠ []
  selectors : ∀ s ∈ rule.selectors, Selector.SoundMembers limit depth s.members
  declarations : ∀ d ∈ rule.declarations, d.Sound limit depth

/-- A margin box as it is read from a text. -/
structure MarginRule.Sound (limit : Option Nat) (depth : Nat) (margin : MarginRule) : Prop where
  name : IsName margin.name
  declarations : ∀ d ∈ margin.declarations, d.Sound limit depth

/-- A page rule as it is read from a text. -/
structure PageRule.Sound (limit : Option Nat) (depth : Nat) (rule : PageRule) : Prop where
  selector : Stretch endsPrelude limit depth rule.selector
  declarations : ∀ d ∈ rule.declarations, d.Sound limit depth
  margins : ∀ margin ∈ rule.margins, margin.Sound limit depth

/-- A block of an animation as it is read from a text: its selectors are the
    pieces of what stands in front of it. -/
structure KeyframeBlock.Sound (limit : Option Nat) (depth : Nat) (block : KeyframeBlock) : Prop where
  selectors : ∃ values, Stretch endsPrelude limit depth values ∧
    block.selectors = splitOn Value.isComma values
  filled : ∀ s ∈ block.selectors, s ≠ []
  declarations : ∀ d ∈ block.declarations, d.Sound limit depth

/-- An animation as it is read from a text. -/
structure KeyframesRule.Sound (limit : Option Nat) (depth : Nat) (rule : KeyframesRule) : Prop where
  keyword : IsName rule.keyword
  kind : AtRuleKind.ofKeyword (asciiLower rule.keyword) = .keyframes
  name : Stretch endsPrelude limit depth rule.name
  blocks : ∀ b ∈ rule.blocks, b.Sound limit depth

/-- A rule as it is read from a text inside so many groups, with all that it holds. -/
inductive Rule.Sound (limit : Option Nat) : Nat → Rule → Prop where
  | style {depth : Nat} {rule : StyleRule} : rule.Sound limit depth → Sound limit depth (.style rule)
  | group {depth : Nat} {kind : GroupKind} {condition : List Value} {rules : List Rule} :
    mayNest limit depth = true → Stretch endsPrelude limit depth condition →
    Value.Conditioned condition → (∀ r ∈ rules, Sound limit (depth + 1) r) →
    Sound limit depth (.group kind condition rules)
  | page {depth : Nat} {rule : PageRule} : rule.Sound limit depth → Sound limit depth (.page rule)
  | keyframes {depth : Nat} {rule : KeyframesRule} :
    rule.Sound limit depth → Sound limit depth (.keyframes rule)
  | descriptors {depth : Nat} {name : String} {values : List Value}
    {declarations : List Declaration} :
    IsName name → AtRuleKind.ofKeyword (asciiLower name) = .descriptors →
    Stretch endsPrelude limit depth values → (∀ d ∈ declarations, d.Sound limit depth) →
    Sound limit depth (.descriptors name values declarations)
  | statement {depth : Nat} {name : String} {values : List Value} :
    IsName name → AtRuleKind.ofKeyword (asciiLower name) = .blockless ∨
      AtRuleKind.ofKeyword (asciiLower name) = .other →
    Stretch endsPrelude limit depth values → Sound limit depth (.statement name values)
  | verbatim {depth : Nat} {name : String} {values block : List Value} :
    IsName name → AtRuleKind.ofKeyword (asciiLower name) = .other →
    Stretch endsPrelude limit depth values → Value.Sound limit depth block → Value.Tidy block →
    Sound limit depth (.verbatim name values block)

theorem Prelude.Forms.stretch {prelude : Prelude} (h : Prelude.Forms limit depth tokens prelude)
    (hgenuine : Genuine (tokens ++ back)) : Stretch endsPrelude limit depth prelude.values := by
  cases h with
  | @intro tokens values hasBlock hgathers hheads =>
    rw [List.append_assoc, List.singleton_append] at hgenuine
    refine .normalize rfl (hgathers.sound_of_genuine hgenuine ?_) hheads
    cases hasBlock <;> simp [ender]

namespace Declaration

theorem Forms.sound {declaration : Declaration} {t : Token}
    (h : Forms limit depth tokens declaration) (hgenuine : Genuine (tokens ++ t :: back))
    (ht : t = .semicolon ∨ t = .closeBrace) : declaration.Sound limit depth := by
  have hkept := h.kept
  cases h with
  | @intro name blanks tokens values _ hgathers =>
    have hname : IsName name := hgenuine.legible _ List.mem_cons_self
    have hvalues : Genuine (tokens ++ t :: back) := by
      rw [List.cons_append, List.append_assoc] at hgenuine
      exact hgenuine.of_cons.of_append.of_cons
    have hvalue : Value.Sound limit depth (ofValues name values).value :=
      (hgathers.sound_of_genuine hvalues (ht.imp_right .inr)).of_mem trivial
        fun _ => mem_value_ofValues
    exact ⟨hname, ⟨hvalue, hkept.tidy, hkept.heads⟩, hkept.filled, hkept.plain⟩

theorem BlockForms.sound {declarations : List Declaration}
    (h : BlockForms limit depth tokens declarations)
    (hgenuine : Genuine (tokens ++ .closeBrace :: back)) : ∀ d ∈ declarations, d.Sound limit depth := by
  induction h with
  | nil => simp
  | skip _ _ ih => exact ih hgenuine.of_cons
  | @declaration front behind d declarations hform hhead _ ih =>
    rw [List.append_assoc] at hgenuine
    refine List.forall_mem_cons.2 ⟨?_, ih hgenuine.of_append⟩
    cases behind with
    | nil => exact hform.sound hgenuine (.inr rfl)
    | cons t behind => exact hform.sound hgenuine (.inl (hhead t rfl))

end Declaration

theorem StyleRule.Forms.sound {rule : StyleRule} (h : Forms limit depth tokens rule)
    (hgenuine : Genuine (tokens ++ back)) : rule.Sound limit depth := by
  cases h with
  | intro hfront hselectors hbody =>
    simp only [List.append_assoc, List.singleton_append] at hgenuine
    obtain ⟨hne, hsound⟩ := Selector.readAll_sound (hfront.stretch hgenuine).sound hselectors
    exact ⟨hne, hsound, hbody.sound hgenuine.of_append⟩

theorem PageRule.BlockForms.sound {declarations : List Declaration} {margins : List MarginRule}
    (h : BlockForms limit depth tokens declarations margins)
    (hgenuine : Genuine (tokens ++ .closeBrace :: back)) :
    (∀ d ∈ declarations, d.Sound limit depth) ∧ ∀ margin ∈ margins, margin.Sound limit depth := by
  induction h with
  | nil => simp
  | skip _ _ ih => exact ih hgenuine.of_cons
  | @declaration front behind d declarations margins hform hhead _ ih =>
    rw [List.append_assoc] at hgenuine
    obtain ⟨hdeclarations, hmargins⟩ := ih hgenuine.of_append
    refine ⟨List.forall_mem_cons.2 ⟨?_, hdeclarations⟩, hmargins⟩
    cases behind with
    | nil => exact hform.sound hgenuine (.inr rfl)
    | cons t behind => exact hform.sound hgenuine (.inl (hhead t rfl))
  | margin _ hbody _ ih =>
    have hname := hgenuine.legible _ List.mem_cons_self
    simp only [List.cons_append, List.append_assoc] at hgenuine
    have hinside := hgenuine.of_cons.of_append
    obtain ⟨hdeclarations, hmargins⟩ := ih hinside.of_append.of_cons
    exact ⟨hdeclarations, List.forall_mem_cons.2 ⟨⟨hname, hbody.sound hinside⟩, hmargins⟩⟩

theorem KeyframesRule.BlockForms.sound {blocks : List KeyframeBlock}
    (h : BlockForms limit depth tokens blocks) (hgenuine : Genuine (tokens ++ .closeBrace :: back)) :
    ∀ b ∈ blocks, b.Sound limit depth := by
  induction h with
  | nil => simp
  | skip _ ih => exact ih hgenuine.of_cons
  | block hfront _ hpieces hbody _ ih =>
    simp only [List.append_assoc, List.cons_append] at hgenuine
    have hinside := hgenuine.of_append
    exact List.forall_mem_cons.2 ⟨⟨⟨_, hfront.stretch hgenuine, rfl⟩, hpieces, hbody.sound hinside⟩,
      ih hinside.of_append.of_cons⟩

theorem AtRule.BodyForms.sound {name : String} {prelude : Prelude} {rule : Option Rule}
    (hname : IsName name) (hprelude : Stretch endsPrelude limit depth prelude.values)
    (h : BodyForms limit depth name prelude tokens rule) (hgenuine : Genuine (tokens ++ back)) :
    ∀ r ∈ rule, r.Sound limit depth := by
  intro r hr
  cases h with
  | charset => cases hr
  | statement hkind =>
    cases hr
    exact .statement hname hkind hprelude
  | page hkind hbody =>
    cases hr
    rw [List.append_assoc, List.singleton_append] at hgenuine
    obtain ⟨hdeclarations, hmargins⟩ := hbody.sound hgenuine
    exact .page ⟨hprelude, hdeclarations, hmargins⟩
  | keyframes hkind hbody =>
    cases hr
    rw [List.append_assoc, List.singleton_append] at hgenuine
    exact .keyframes ⟨hname, hkind, hprelude, hbody.sound hgenuine⟩
  | descriptors hkind hbody =>
    cases hr
    rw [List.append_assoc, List.singleton_append] at hgenuine
    exact .descriptors hname hkind hprelude (hbody.sound hgenuine)
  | verbatim hkind hbody =>
    cases hr
    cases hbody with
    | intro hgathers =>
      rw [List.append_assoc, List.singleton_append] at hgenuine
      have hblock := hgathers.sound_of_genuine hgenuine (.inr (.inr rfl))
      exact .verbatim hname hkind hprelude hblock.normalize (Value.tidy_normalize _)

/-- What is read as a condition has its colons tightened. -/
theorem Value.Stretch.normalizeCondition {values : List Value}
    (h : Stretch endsPrelude limit depth values) :
    Stretch endsPrelude limit depth (normalizeCondition values) ∧
      Conditioned (normalizeCondition values) := by
  obtain ⟨hsound, hconditioned⟩ := h.sound.normalizeCondition
  refine ⟨⟨hsound, ?_, fun w hw => ?_⟩, hconditioned⟩ <;> rw [normalizeCondition_eq] at *
  · exact (similar_onParens _).tidy_map h.tidy
  · obtain ⟨v, hv, rfl⟩ := List.mem_map.1 hw
    rw [head_onParens]
    exact h.heads v hv

/-- Rules that are read from a text are sound, with all that they hold. -/
theorem Rule.Forms.sound {rules : List Rule} (h : Forms limit depth tokens rules)
    (hgenuine : Genuine (tokens ++ back)) : ∀ r ∈ rules, r.Sound limit depth := by
  induction h generalizing back with
  | nil => simp
  | blank _ ih => exact ih hgenuine.of_cons
  | mark _ _ _ ih => exact ih hgenuine.of_cons
  | style hstyle _ _ ih =>
    rw [List.append_assoc] at hgenuine
    exact List.forall_mem_cons.2 ⟨.style (hstyle.sound hgenuine), ih hgenuine.of_append⟩
  | atRule hprelude hbody _ ih =>
    have hname := hgenuine.legible _ List.mem_cons_self
    simp only [List.cons_append, List.append_assoc] at hgenuine
    have hinside := hgenuine.of_cons.of_append
    intro r hr
    rcases List.mem_append.1 hr with hr | hr
    · exact hbody.sound hname (hprelude.stretch hgenuine.of_cons) hinside r (Option.mem_toList.1 hr)
    · exact ih hinside.of_append r hr
  | group _ hnest hprelude _ _ ihInner ih =>
    simp only [List.cons_append, List.append_assoc] at hgenuine
    have hinside := hgenuine.of_cons.of_append
    obtain ⟨hstretch, hconditioned⟩ := (hprelude.stretch hgenuine.of_cons).normalizeCondition
    exact List.forall_mem_cons.2 ⟨.group hnest hstretch hconditioned (ihInner hinside),
      ih hinside.of_append.of_cons⟩

end DeepScope
