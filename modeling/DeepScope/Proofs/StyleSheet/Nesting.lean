import DeepScope.Proofs.Rule.Nesting
import DeepScope.Proofs.Script.Depth
import DeepScope.Proofs.StyleSheet.Forms
import DeepScope.Proofs.StyleSheet.Lookahead

namespace DeepScope

namespace StyleSheet

open Script

/-- How deep a stylesheet is nested. -/
def nesting (sheet : StyleSheet) : Nat :=
  Rule.nesting sheet.rules

variable {limit : Nat} {tokens : List Token} {sheet : StyleSheet}

theorem Forms.of_some (h : Forms (some limit) tokens sheet) :
    Forms none tokens sheet ∧ sheet.nesting ≤ limit := by
  cases h with
  | plain hhead hrules =>
    obtain ⟨hrules, hfits⟩ := hrules.of_some
    exact ⟨.plain hhead hrules, Fits.outermost_iff.1 hfits⟩
  | charset hfront hback =>
    obtain ⟨hback, hfits⟩ := hback.of_some
    exact ⟨.charset (Prelude.forms_some_iff.1 hfront).1 hback, Fits.outermost_iff.1 hfits⟩

theorem Forms.within (h : Forms none tokens sheet)
    (hcharset : ∀ name, .atKeyword name ∈ tokens → asciiLower name ≠ "charset")
    (hnesting : sheet.nesting ≤ limit) : Forms (some limit) tokens sheet := by
  cases h with
  | plain hhead hrules => exact .plain hhead (hrules.within hcharset (Fits.outermost_iff.2 hnesting))
  | charset => exact absurd (by decide) (hcharset "charset" List.mem_cons_self)

/-- What is read is not too deep. -/
theorem nesting_le_of_ofTokens {items : List Located} (h : ofTokens items = .ok sheet) :
    sheet.nesting ≤ nestingLimit := by
  obtain ⟨tokens, rest, -, -, hforms⟩ := ofTokens_eq_ok_iff.1 h
  exact hforms.of_some.2

/-- The limit has reading go on as it does without one, or fail because of the
    depth. -/
theorem ofTokens_or_tooDeep {items : List Located} {after : Reader}
    (h : (readTokens none items).2 = .ok (sheet, after)) :
    ofTokens items = .ok sheet ∨ ∃ position, ofTokens items = .error (.grammar position .tooDeep) := by
  have hsteps := Nat.lt_succ_self items.length
  rw [readTokens_eq hsteps] at h
  rw [ofTokens_eq_run hsteps]
  obtain ⟨pair, hrun, hpair⟩ := exists_of_map_eq_ok h
  cases hpair
  rcases run_limit (styleSheet items.length.succ) nestingLimit 0 (Reader.ofTokens items) with
    hsame | ⟨failure, herror, hreason⟩
  · rw [hsame, hrun]
    exact .inl rfl
  · rw [herror, verdict, Failure.toError, hreason]
    exact .inr ⟨failure.position, rfl⟩

/-- A path that goes through a group into its own condition has one level more
    than the limit allows elsewhere. -/
theorem levels_le_of_ofTokens {items : List Located} (h : ofTokens items = .ok sheet) :
    Rule.levels sheet.rules ≤ nestingLimit + 1 :=
  Nat.le_trans (Rule.levels_le sheet.rules) (Nat.succ_le_succ (nesting_le_of_ofTokens h))

/-- Whether a list of tokens is free of charset rules, in any letter case. -/
def NoCharset (items : List Located) : Prop :=
  ∀ item ∈ items, ∀ name, item.token = .atKeyword name → asciiLower name ≠ "charset"

/-- What is not too deep is read as it is without the limit. -/
theorem ofTokens_of_nesting_le {items : List Located} {after : Reader} (hcharset : NoCharset items)
    (h : (readTokens none items).2 = .ok (sheet, after)) (hnesting : sheet.nesting ≤ nestingLimit) :
    ofTokens items = .ok sheet := by
  obtain ⟨tokens, rest, htokens, hrest, hforms⟩ := readTokens_sound h
  refine ofTokens_eq_ok_iff.2 ⟨tokens, rest, htokens, hrest, hforms.within ?_ hnesting⟩
  intro name hname
  have hname : .atKeyword name ∈ items.map Located.token :=
    htokens ▸ List.mem_append_left rest hname
  obtain ⟨item, hitem, htoken⟩ := List.mem_map.1 hname
  exact hcharset item hitem name htoken

/-- The limit on nesting is exact, where no charset rule is dropped. A stylesheet
    that is read without the limit is read with it if no path in it goes through
    more than 128 functions, blocks and bodies of groups, and is refused as too
    deep otherwise. What is read is never deeper, and has one level more at most on
    a path through a group into its own condition. And however a script goes on,
    the levels it counts are those it began with when it is through; the script
    of a stylesheet, read in this way, gives what reading gives. -/
theorem ofTokens_nesting (items : List Located)
    (hcharset : NoCharset items) :
    (∀ sheet after, (readTokens none items).2 = .ok (sheet, after) →
      (sheet.nesting ≤ nestingLimit → ofTokens items = .ok sheet) ∧
      (nestingLimit < sheet.nesting →
        ∃ position, ofTokens items = .error (.grammar position .tooDeep))) ∧
    (∀ sheet, ofTokens items = .ok sheet →
      sheet.nesting ≤ nestingLimit ∧ Rule.levels sheet.rules ≤ nestingLimit + 1) ∧
    (∀ {α : Type} (script : Script α) (limit : Option Nat) (state : Counted),
      (script.execute limit state).2.depth = state.depth) ∧
    ∀ steps, items.length < steps →
      ((styleSheet steps).execute (some nestingLimit) ⟨Reader.ofTokens items, 0⟩).1.mapError
        Failure.toError = ofTokens items := by
  refine ⟨fun sheet after h => ⟨ofTokens_of_nesting_le hcharset h, fun hdeep => ?_⟩,
    fun sheet h =>
    ⟨nesting_le_of_ofTokens h, levels_le_of_ofTokens h⟩, fun script limit => execute_depth limit script,
    fun steps hsteps => ?_⟩
  · refine (ofTokens_or_tooDeep h).resolve_left fun hok => ?_
    have := nesting_le_of_ofTokens hok
    omega
  · rw [execute_run, ofTokens_eq_run hsteps]
    cases (styleSheet steps).run (some nestingLimit) 0 (Reader.ofTokens items) <;> rfl

/-- Parentheses around nothing, so many times. -/
def parens : Nat → List Value
  | 0 => []
  | count + 1 => [.block .openParen (parens count)]

/-- The tokens of so many parentheses around nothing. -/
def parenTokens (count : Nat) : List Token :=
  List.replicate count .openParen ++ List.replicate count .closeParen

@[simp] theorem nesting_parens (count : Nat) : Value.nesting (parens count) = count := by
  induction count with
  | zero => rw [parens, Value.nesting_nil]
  | succ count ih => simp [parens, ih]

theorem normalize_parens (count : Nat) : Value.normalize (parens count) = parens count := by
  cases count <;> rfl

theorem normalizeCondition_parens (count : Nat) :
    Value.normalizeCondition (parens count) = parens count := by
  induction count with
  | zero => rw [parens, Value.normalizeCondition]
  | succ count ih =>
    rw [parens, Value.normalizeCondition, ih, Value.normalizeCondition]
    cases count <;> rfl

theorem gathers_parens (depth count : Nat) :
    Value.Gathers none depth (parenTokens count) (parens count) := by
  induction count generalizing depth with
  | zero => exact .nil
  | succ count ih =>
    have hnested : Value.Gathers none depth
        (.openParen :: (parenTokens count ++ OpenValue.closer ⟨.openParen, []⟩ :: []))
        ((OpenValue.extend ⟨.openParen, []⟩ (parens count)).close :: []) :=
      .nested rfl rfl (ih (depth + 1)) .nil
    rw [Value.close_extend, normalize_parens] at hnested
    rw [parenTokens, List.replicate_succ, List.replicate_succ']
    simpa [parenTokens, parens, Value.nest, OpenValue.closer, Token.closer] using hnested

theorem prelude_parens (count : Nat) (hasBlock : Bool) :
    Prelude.Forms none 0 (parenTokens count ++ [Prelude.ender hasBlock]) ⟨parens count, hasBlock⟩ := by
  have hheads : ∀ v ∈ parens count, endsPrelude v.head = false := by
    cases count <;> simp [parens, Value.head, endsPrelude]
  rw [← normalize_parens count]
  exact .intro (gathers_parens 0 count) hheads

/-- The tokens of an at-rule with so many parentheses in front of its end. -/
def ruleOfParens (name : String) (count : Nat) (ending : List Token) : List Located :=
  (.atKeyword name :: (parenTokens count ++ ending)).map (⟨·, ⟨1, 1⟩⟩)

theorem noCharset_ruleOfParens {name : String} {ending : List Token} (count : Nat)
    (hname : asciiLower name ≠ "charset") (hending : ∀ other, .atKeyword other ∉ ending) :
    NoCharset (ruleOfParens name count ending) := by
  intro item hitem other hother
  obtain ⟨token, htoken, rfl⟩ := List.mem_map.1 hitem
  obtain rfl : token = .atKeyword other := hother
  rcases List.mem_cons.1 htoken with heq | hmem
  · cases heq
    exact hname
  · rcases List.mem_append.1 hmem with hmem | hmem
    · rcases List.mem_append.1 hmem with hmem | hmem <;> cases List.eq_of_mem_replicate hmem
    · exact absurd hmem (hending other)

theorem readTokens_import (count : Nat) :
    ∃ after, (readTokens none (ruleOfParens "import" count [.semicolon])).2 =
      .ok (⟨[.statement "import" (parens count)], none⟩, after) := by
  have hrules : Rule.Forms none 0 (.atKeyword "import" :: (parenTokens count ++ [.semicolon] ++ ([] ++ [])))
      [.statement "import" (parens count)] :=
    .atRule (prelude_parens count false) (.statement (.inl (by decide +kernel))) .nil
  have htokens : (ruleOfParens "import" count [.semicolon]).map Located.token =
      .atKeyword "import" :: (parenTokens count ++ [.semicolon] ++ ([] ++ [])) ++ [] := by
    simp [ruleOfParens, Function.comp_def]
  exact readTokens_complete (.plain (by simp) hrules) rfl htokens

theorem readTokens_media (count : Nat) :
    ∃ after, (readTokens none (ruleOfParens "media" count [.openBrace, .closeBrace])).2 =
      .ok (⟨[.group .media (parens count) []], none⟩, after) := by
  have hrules : Rule.Forms none 0
      (.atKeyword "media" :: (parenTokens count ++ [.openBrace] ++ ([] ++ .closeBrace :: [])))
      [.group .media (Value.normalizeCondition (parens count)) []] :=
    .group (by decide +kernel) rfl (prelude_parens count true) .nil .nil
  rw [normalizeCondition_parens] at hrules
  have htokens : (ruleOfParens "media" count [.openBrace, .closeBrace]).map Located.token =
      .atKeyword "media" :: (parenTokens count ++ [.openBrace] ++ ([] ++ .closeBrace :: [])) ++ [] := by
    simp [ruleOfParens, Function.comp_def]
  exact readTokens_complete (.plain (by simp) hrules) rfl htokens

/-- In a rule without a block 128 parentheses may stand inside one another, and
    not one more. -/
theorem ofTokens_import_parens :
    ofTokens (ruleOfParens "import" 128 [.semicolon]) =
        .ok ⟨[.statement "import" (parens 128)], none⟩ ∧
      ∃ position, ofTokens (ruleOfParens "import" 129 [.semicolon]) =
        .error (.grammar position .tooDeep) := by
  have hcharset : ∀ count, NoCharset (ruleOfParens "import" count [.semicolon]) := fun count =>
    noCharset_ruleOfParens count (by decide) (by simp)
  obtain ⟨_, hfits⟩ := readTokens_import 128
  obtain ⟨_, hdeep⟩ := readTokens_import 129
  refine ⟨((ofTokens_nesting _ (hcharset 128)).1 _ _ hfits).1 ?_,
    ((ofTokens_nesting _ (hcharset 129)).1 _ _ hdeep).2 ?_⟩ <;>
    simp [nesting, Rule.nesting, nestingLimit]

/-- The limit holds for what stands in a group, not for a path that goes through
    the group into its own condition. That condition is read before the group
    is opened, so such a path may have one level more. -/
theorem ofTokens_media_parens :
    NoCharset (ruleOfParens "media" 128 [.openBrace, .closeBrace]) ∧
      (∃ after, (readTokens none (ruleOfParens "media" 128 [.openBrace, .closeBrace])).2 =
        .ok (⟨[.group .media (parens 128) []], none⟩, after)) ∧
      nestingLimit < Rule.levels [.group .media (parens 128) []] ∧
      ofTokens (ruleOfParens "media" 128 [.openBrace, .closeBrace]) =
        .ok ⟨[.group .media (parens 128) []], none⟩ := by
  have hcharset : NoCharset (ruleOfParens "media" 128 [.openBrace, .closeBrace]) :=
    noCharset_ruleOfParens 128 (by decide) (by simp)
  obtain ⟨after, hread⟩ := readTokens_media 128
  refine ⟨hcharset, ⟨after, hread⟩, ?_, ofTokens_of_nesting_le hcharset hread ?_⟩
  · simp [Rule.levels, nestingLimit]
  · simp [nesting, Rule.nesting, nestingLimit]

end StyleSheet

end DeepScope
