import DeepScope.Proofs.Rule.Forms
import DeepScope.Proofs.Selector.Nesting

/-!
How deep rules are nested, and that a limit of levels refuses the rules that are deeper and no
others. The braces around declarations are no level, and neither are those of a rule that has no
grammar.
-/

namespace DeepScope

/-- How deep the value of a declaration is nested. -/
def Declaration.nesting (declaration : Declaration) : Nat :=
  Value.nesting declaration.value

/-- How deep a style rule is nested. -/
def StyleRule.nesting (rule : StyleRule) : Nat :=
  max (deepest Selector.nesting rule.selectors) (deepest Declaration.nesting rule.declarations)

/-- How deep a margin box is nested. -/
def MarginRule.nesting (margin : MarginRule) : Nat :=
  deepest Declaration.nesting margin.declarations

/-- How deep a page rule is nested. -/
def PageRule.nesting (rule : PageRule) : Nat :=
  max (Value.nesting rule.selector)
    (max (deepest Declaration.nesting rule.declarations) (deepest MarginRule.nesting rule.margins))

/-- How deep the declarations for some moments of an animation are nested. -/
def KeyframeBlock.nesting (block : KeyframeBlock) : Nat :=
  max (deepest Value.nesting block.selectors) (deepest Declaration.nesting block.declarations)

/-- How deep an animation is nested. -/
def KeyframesRule.nesting (rule : KeyframesRule) : Nat :=
  max (Value.nesting rule.name) (deepest KeyframeBlock.nesting rule.blocks)

/-- How many functions, blocks and groups stand around the innermost part of the
    rules. A group stands around the rules in it, not around its condition. -/
def Rule.nesting : List Rule → Nat
  | [] => 0
  | .style rule :: rest => max rule.nesting (nesting rest)
  | .group _ condition rules :: rest =>
    max (max (Value.nesting condition) (nesting rules + 1)) (nesting rest)
  | .page rule :: rest => max rule.nesting (nesting rest)
  | .keyframes rule :: rest => max rule.nesting (nesting rest)
  | .descriptors _ prelude declarations :: rest =>
    max (max (Value.nesting prelude) (deepest Declaration.nesting declarations)) (nesting rest)
  | .statement _ prelude :: rest => max (Value.nesting prelude) (nesting rest)
  | .verbatim _ prelude block :: rest =>
    max (max (Value.nesting prelude) (Value.nesting block)) (nesting rest)

theorem Rule.nesting_append (front back : List Rule) :
    nesting (front ++ back) = max (nesting front) (nesting back) := by
  induction front with
  | nil => rw [List.nil_append, nesting, Nat.zero_max]
  | cons rule front ih =>
    rw [List.cons_append]
    cases rule <;> simp only [nesting, ih, Nat.max_assoc]

/-- How deep the rules are nested if a group stands around its condition too. -/
def Rule.levels : List Rule → Nat
  | [] => 0
  | .group _ condition rules :: rest =>
    max (max (Value.nesting condition) (levels rules) + 1) (levels rest)
  | rule :: rest => max (nesting [rule]) (levels rest)

/-- It is at most the condition of the innermost group that is one level
    deeper. -/
theorem Rule.levels_le (rules : List Rule) : levels rules ≤ nesting rules + 1 := by
  fun_induction levels rules with
  | case1 => exact Nat.zero_le _
  | case2 kind condition rules rest ihRules ih =>
    rw [nesting]
    omega
  | case3 rule rest _ ih =>
    have := nesting_append [rule] rest
    rw [List.singleton_append] at this
    omega

variable {limit depth : Nat} {tokens : List Token}

theorem Prelude.forms_some_iff {prelude : Prelude} :
    Prelude.Forms (some limit) depth tokens prelude ↔
      Prelude.Forms none depth tokens prelude ∧ Fits limit depth (Value.nesting prelude.values) := by
  constructor
  · rintro ⟨hgathers, hheads⟩
    rw [Value.gathers_some_iff] at hgathers
    exact ⟨.intro hgathers.1 hheads, by simpa using hgathers.2⟩
  · rintro ⟨⟨hgathers, hheads⟩, hfits⟩
    exact .intro (Value.gathers_some_iff.2 ⟨hgathers, by simpa using hfits⟩) hheads

namespace Declaration

/-- The mark that is taken off a value is made of tokens. -/
theorem nesting_stripImportant {value front : List Value} (h : stripImportant value = some front) :
    Value.nesting front = Value.nesting value := by
  rw [← Value.nesting_reverse value]
  unfold stripImportant at h
  split at h
  · next word before hreverse =>
    split at h
    · split at h
      · next last hbefore =>
        cases h
        rw [Value.nesting_reverse, Value.nesting_dropWhile_isBlank, hreverse, Value.nesting_token,
          ← Value.nesting_dropWhile_isBlank before, hbefore, Value.nesting_token]
      · cases h
    · cases h
  · cases h

@[simp] theorem nesting_ofValues (name : String) (values : List Value) :
    (ofValues name values).nesting = Value.nesting values := by
  unfold ofValues nesting
  dsimp only
  cases hstrip : stripImportant (Value.normalize values) with
  | none => exact Value.nesting_normalize values
  | some front => exact (nesting_stripImportant hstrip).trans (Value.nesting_normalize values)

theorem forms_some_iff {declaration : Declaration} :
    Forms (some limit) depth tokens declaration ↔
      Forms none depth tokens declaration ∧ Fits limit depth declaration.nesting := by
  constructor
  · rintro ⟨hblanks, hgathers, hheads, hempty⟩
    rw [Value.gathers_some_iff] at hgathers
    exact ⟨.intro hblanks hgathers.1 hheads hempty, by simpa using hgathers.2⟩
  · rintro ⟨⟨hblanks, hgathers, hheads, hempty⟩, hfits⟩
    exact .intro hblanks (Value.gathers_some_iff.2 ⟨hgathers, by simpa using hfits⟩) hheads hempty

theorem blockForms_some_iff {declarations : List Declaration} :
    BlockForms (some limit) depth tokens declarations ↔
      BlockForms none depth tokens declarations ∧ Fits limit depth (deepest nesting declarations) := by
  constructor
  · intro h
    induction h with
    | nil => exact ⟨.nil, .zero⟩
    | skip hskip _ ih => exact ⟨.skip hskip ih.1, ih.2⟩
    | declaration hform hhead _ ih =>
      rw [forms_some_iff] at hform
      exact ⟨.declaration hform.1 hhead ih.1, Fits.max_iff.2 ⟨hform.2, ih.2⟩⟩
  · rintro ⟨h, hfits⟩
    induction h with
    | nil => exact .nil
    | skip hskip _ ih => exact .skip hskip (ih hfits)
    | declaration hform hhead _ ih =>
      rw [deepest_cons, Fits.max_iff] at hfits
      exact .declaration (forms_some_iff.2 ⟨hform, hfits.1⟩) hhead (ih hfits.2)

end Declaration

theorem StyleRule.forms_some_iff {rule : StyleRule} :
    Forms (some limit) depth tokens rule ↔
      Forms none depth tokens rule ∧ Fits limit depth rule.nesting := by
  constructor
  · rintro ⟨hfront, hselectors, hbody⟩
    rw [Prelude.forms_some_iff] at hfront
    rw [Declaration.blockForms_some_iff] at hbody
    refine ⟨.intro hfront.1 hselectors hbody.1, Fits.max_iff.2 ⟨?_, hbody.2⟩⟩
    exact Selector.nesting_readAll hselectors ▸ hfront.2
  · rintro ⟨⟨hfront, hselectors, hbody⟩, hfits⟩
    rw [StyleRule.nesting, Fits.max_iff, ← Selector.nesting_readAll hselectors] at hfits
    exact .intro (Prelude.forms_some_iff.2 ⟨hfront, hfits.1⟩) hselectors
      (Declaration.blockForms_some_iff.2 ⟨hbody, hfits.2⟩)

theorem PageRule.blockForms_some_iff {declarations : List Declaration} {margins : List MarginRule} :
    BlockForms (some limit) depth tokens declarations margins ↔
      BlockForms none depth tokens declarations margins ∧
        Fits limit depth
          (max (deepest Declaration.nesting declarations) (deepest MarginRule.nesting margins)) := by
  constructor
  · intro h
    induction h with
    | nil => exact ⟨.nil, .zero⟩
    | skip hskip _ ih => exact ⟨.skip hskip ih.1, ih.2⟩
    | declaration hform hhead _ ih =>
      rw [Declaration.forms_some_iff] at hform
      rw [deepest_cons, Nat.max_assoc]
      exact ⟨.declaration hform.1 hhead ih.1, Fits.max_iff.2 ⟨hform.2, ih.2⟩⟩
    | margin hfront hbody _ ih =>
      rw [Prelude.forms_some_iff] at hfront
      rw [Declaration.blockForms_some_iff] at hbody
      rw [deepest_cons, Nat.max_left_comm]
      exact ⟨.margin hfront.1 hbody.1 ih.1, Fits.max_iff.2 ⟨hbody.2, ih.2⟩⟩
  · rintro ⟨h, hfits⟩
    induction h with
    | nil => exact .nil
    | skip hskip _ ih => exact .skip hskip (ih hfits)
    | declaration hform hhead _ ih =>
      rw [deepest_cons, Nat.max_assoc, Fits.max_iff] at hfits
      exact .declaration (Declaration.forms_some_iff.2 ⟨hform, hfits.1⟩) hhead (ih hfits.2)
    | margin hfront hbody _ ih =>
      rw [deepest_cons, Nat.max_left_comm, Fits.max_iff] at hfits
      exact .margin (Prelude.forms_some_iff.2 ⟨hfront, by simp⟩)
        (Declaration.blockForms_some_iff.2 ⟨hbody, hfits.1⟩) (ih hfits.2)

theorem KeyframesRule.blockForms_some_iff {blocks : List KeyframeBlock} :
    BlockForms (some limit) depth tokens blocks ↔
      BlockForms none depth tokens blocks ∧
        Fits limit depth (deepest KeyframeBlock.nesting blocks) := by
  constructor
  · intro h
    induction h with
    | nil => exact ⟨.nil, .zero⟩
    | skip _ ih => exact ⟨.skip ih.1, ih.2⟩
    | block hfront hhead hpieces hbody _ ih =>
      rw [Prelude.forms_some_iff] at hfront
      rw [Declaration.blockForms_some_iff] at hbody
      refine ⟨.block hfront.1 hhead hpieces hbody.1 ih.1, ?_⟩
      rw [deepest_cons, Fits.max_iff, KeyframeBlock.nesting, Fits.max_iff, Value.deepest_splitOn]
      exact ⟨⟨hfront.2, hbody.2⟩, ih.2⟩
  · rintro ⟨h, hfits⟩
    induction h with
    | nil => exact .nil
    | skip _ ih => exact .skip (ih hfits)
    | block hfront hhead hpieces hbody _ ih =>
      rw [deepest_cons, Fits.max_iff, KeyframeBlock.nesting, Fits.max_iff,
        Value.deepest_splitOn] at hfits
      exact .block (Prelude.forms_some_iff.2 ⟨hfront, hfits.1.1⟩) hhead hpieces
        (Declaration.blockForms_some_iff.2 ⟨hbody, hfits.1.2⟩) (ih hfits.2)

theorem verbatimForms_some_iff {values : List Value} :
    VerbatimForms (some limit) depth tokens values ↔
      VerbatimForms none depth tokens values ∧ Fits limit depth (Value.nesting values) := by
  constructor
  · rintro ⟨hgathers⟩
    rw [Value.gathers_some_iff] at hgathers
    exact ⟨.intro hgathers.1, by simpa using hgathers.2⟩
  · rintro ⟨⟨hgathers⟩, hfits⟩
    exact .intro (Value.gathers_some_iff.2 ⟨hgathers, by simpa using hfits⟩)

namespace AtRule

/-- A name that is not that of a charset rule is of another kind. -/
theorem kind_ne_charset {name : String} (h : asciiLower name ≠ "charset") :
    AtRuleKind.ofKeyword (asciiLower name) ≠ .charset := by
  unfold AtRuleKind.ofKeyword
  rw [if_neg h]
  repeat' split
  all_goals nofun

/-- A rule that is kept is as deep as its prelude and its body. -/
theorem bodyForms_some_iff {name : String} {prelude : Prelude} {rule : Rule} :
    BodyForms (some limit) depth name prelude tokens (some rule) ∧
        Fits limit depth (Value.nesting prelude.values) ↔
      BodyForms none depth name prelude tokens (some rule) ∧
        Fits limit depth (Rule.nesting [rule]) := by
  constructor
  · rintro ⟨hbody, hprelude⟩
    cases hbody with
    | statement hkind => exact ⟨.statement hkind, by simpa [Rule.nesting] using hprelude⟩
    | page hkind hbody =>
      rw [PageRule.blockForms_some_iff] at hbody
      rw [Rule.nesting, Rule.nesting, Nat.max_zero]
      exact ⟨.page hkind hbody.1, Fits.max_iff.2 ⟨hprelude, hbody.2⟩⟩
    | keyframes hkind hbody =>
      rw [KeyframesRule.blockForms_some_iff] at hbody
      rw [Rule.nesting, Rule.nesting, Nat.max_zero]
      exact ⟨.keyframes hkind hbody.1, Fits.max_iff.2 ⟨hprelude, hbody.2⟩⟩
    | descriptors hkind hbody =>
      rw [Declaration.blockForms_some_iff] at hbody
      rw [Rule.nesting, Rule.nesting, Nat.max_zero]
      exact ⟨.descriptors hkind hbody.1, Fits.max_iff.2 ⟨hprelude, hbody.2⟩⟩
    | verbatim hkind hbody =>
      rw [verbatimForms_some_iff] at hbody
      rw [Rule.nesting, Rule.nesting, Nat.max_zero]
      exact ⟨.verbatim hkind hbody.1, Fits.max_iff.2 ⟨hprelude, hbody.2⟩⟩
  · rintro ⟨hbody, hfits⟩
    cases hbody with
    | statement hkind => exact ⟨.statement hkind, by simpa [Rule.nesting] using hfits⟩
    | page hkind hbody =>
      rw [Rule.nesting, Rule.nesting, Nat.max_zero, PageRule.nesting, Fits.max_iff] at hfits
      exact ⟨.page hkind (PageRule.blockForms_some_iff.2 ⟨hbody, hfits.2⟩), hfits.1⟩
    | keyframes hkind hbody =>
      rw [Rule.nesting, Rule.nesting, Nat.max_zero, KeyframesRule.nesting, Fits.max_iff] at hfits
      exact ⟨.keyframes hkind (KeyframesRule.blockForms_some_iff.2 ⟨hbody, hfits.2⟩), hfits.1⟩
    | descriptors hkind hbody =>
      rw [Rule.nesting, Rule.nesting, Nat.max_zero, Fits.max_iff] at hfits
      exact ⟨.descriptors hkind (Declaration.blockForms_some_iff.2 ⟨hbody, hfits.2⟩), hfits.1⟩
    | verbatim hkind hbody =>
      rw [Rule.nesting, Rule.nesting, Nat.max_zero, Fits.max_iff] at hfits
      exact ⟨.verbatim hkind (verbatimForms_some_iff.2 ⟨hbody, hfits.2⟩), hfits.1⟩

end AtRule

namespace Rule

variable {rules : List Rule}

/-- Under a limit nothing is read that is deeper, and what is read would be so
    without a limit. -/
theorem Forms.of_some (h : Forms (some limit) depth tokens rules) :
    Forms none depth tokens rules ∧ Fits limit depth (nesting rules) := by
  induction h with
  | nil => exact ⟨.nil, by rw [nesting]; exact .zero⟩
  | blank _ ih => exact ⟨.blank ih.1, ih.2⟩
  | mark hdepth hmark _ ih => exact ⟨.mark hdepth hmark ih.1, ih.2⟩
  | style hstyle hhead _ ih =>
    rw [StyleRule.forms_some_iff] at hstyle
    rw [nesting]
    exact ⟨.style hstyle.1 hhead ih.1, Fits.max_iff.2 ⟨hstyle.2, ih.2⟩⟩
  | @atRule _ _ _ _ _ _ rule _ hprelude hbody _ ih =>
    rw [Prelude.forms_some_iff] at hprelude
    cases rule with
    | none =>
      cases hbody with
      | charset hkind => exact ⟨.atRule hprelude.1 (.charset hkind) ih.1, ih.2⟩
    | some rule =>
      have hrule := AtRule.bodyForms_some_iff.1 ⟨hbody, hprelude.2⟩
      rw [nesting_append]
      exact ⟨.atRule hprelude.1 hrule.1 ih.1, Fits.max_iff.2 ⟨hrule.2, ih.2⟩⟩
  | group hkind hnest hprelude _ _ ihInner ih =>
    rw [Prelude.forms_some_iff] at hprelude
    rw [nesting, Value.nesting_normalizeCondition, Fits.max_iff, Fits.max_iff, Fits.succ_iff]
    exact ⟨.group hkind rfl hprelude.1 ihInner.1 ih.1,
      ⟨hprelude.2, of_decide_eq_true hnest, ihInner.2⟩, ih.2⟩

/-- What is not too deep is read under a limit as well. What a charset rule holds
    leaves no trace among the rules, so there must be none. -/
theorem Forms.within (h : Forms none depth tokens rules)
    (hcharset : ∀ name, .atKeyword name ∈ tokens → asciiLower name ≠ "charset")
    (hfits : Fits limit depth (nesting rules)) : Forms (some limit) depth tokens rules := by
  induction h with
  | nil => exact .nil
  | blank _ ih => exact .blank (ih (fun name hname => hcharset name (.tail _ hname)) hfits)
  | mark hdepth hmark _ ih =>
    exact .mark hdepth hmark (ih (fun name hname => hcharset name (.tail _ hname)) hfits)
  | style hstyle hhead _ ih =>
    rw [nesting, Fits.max_iff] at hfits
    exact .style (StyleRule.forms_some_iff.2 ⟨hstyle, hfits.1⟩) hhead
      (ih (fun name hname => hcharset name (List.mem_append_right _ hname)) hfits.2)
  | @atRule _ name _ _ _ _ rule _ hprelude hbody _ ih =>
    rw [nesting_append, Fits.max_iff] at hfits
    have hback := ih (fun name hname => hcharset name (by simp [hname])) hfits.2
    cases rule with
    | none =>
      cases hbody with
      | charset hkind => exact absurd hkind (AtRule.kind_ne_charset (hcharset name (by simp)))
    | some rule =>
      obtain ⟨hbody, hvalues⟩ := AtRule.bodyForms_some_iff.2 ⟨hbody, hfits.1⟩
      exact .atRule (Prelude.forms_some_iff.2 ⟨hprelude, hvalues⟩) hbody hback
  | group hkind _ hprelude _ _ ihInner ih =>
    rw [nesting, Value.nesting_normalizeCondition, Fits.max_iff, Fits.max_iff, Fits.succ_iff] at hfits
    exact .group hkind (decide_eq_true hfits.1.2.1)
      (Prelude.forms_some_iff.2 ⟨hprelude, hfits.1.1⟩)
      (ihInner (fun name hname => hcharset name (by simp [hname])) hfits.1.2.2)
      (ih (fun name hname => hcharset name (by simp [hname])) hfits.2)

end Rule

end DeepScope
