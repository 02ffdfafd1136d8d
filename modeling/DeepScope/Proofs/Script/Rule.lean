import DeepScope.Proofs.Rule.Forms
import DeepScope.Proofs.Script.Block

namespace DeepScope.Script

/-- Reads the contents of a block that has no grammar, and the brace that closes
    it. -/
def verbatim (steps : Nat) : Script (List Value) := do
  let found ← values (fun token => token = .closeBrace || token = .eof) steps
  if (← look) = .closeBrace then
    step
    return Value.normalize found
  else refuse .unclosedBlock

/-- Reads what follows the prelude of an at-rule; `inside` reads the rules of a
    group. -/
def atRuleBody (inside : Script (List Rule)) (steps : Nat) (name : String) (prelude : Prelude) :
    Script (Option Rule) :=
  let kind := AtRuleKind.ofKeyword (asciiLower name)
  if prelude.hasBlock then
    match kind with
    | .charset => fail none .blockAfterCharset
    | .group kind => do
      let found ← nest inside
      return some (.group kind (Value.normalizeCondition prelude.values) found)
    | .page => do
      let (declarations, margins) ← page steps
      return some (.page ⟨prelude.values, declarations, margins⟩)
    | .keyframes => do
      let blocks ← keyframes steps
      return some (.keyframes ⟨name, prelude.values, blocks⟩)
    | .descriptors => do
      let declarations ← declarations steps
      return some (.descriptors name prelude.values declarations)
    | .blockless => fail none (.unexpectedBlock name)
    | .other => do
      let block ← verbatim steps
      return some (.verbatim name prelude.values block)
  else
    match kind with
    | .charset => return none
    | .blockless | .other => return some (.statement name prelude.values)
    | _ => fail none (.expectedBlock name)

/-- Reads an at-rule, which may leave no rule. -/
def atRule (inside : Script (List Rule)) (steps : Nat) : Script (Option Rule) := do
  match ← look with
  | .atKeyword name =>
    step
    let prelude ← prelude steps
    atRuleBody inside steps name prelude
  | found => refuse (.expectedAtRule found)

/-- Reads a style rule. -/
def styleRule (steps : Nat) : Script StyleRule := do
  let begins ← place
  let values ← beforeBlock steps
  match Selector.readAll values with
  | .error reason => fail (some begins) (.selector reason)
  | .ok selectors => return ⟨selectors, ← declarations steps⟩

/-- Reads rules up to the end that is left, outside of all groups, or up to the
    brace that closes a group. -/
def rules (outermost : Bool) : Nat → Script (List Rule)
  | 0 => exhausted
  | steps + 1 => do
    match ← look with
    | .eof => if outermost then return [] else refuse .unclosedBlock
    | .whitespace =>
      step
      rules outermost steps
    | .closeBrace =>
      if outermost then refuse .strayBrace
      else
        step
        return []
    | .atKeyword _ =>
      let first ← atRule (rules false steps) (steps + 1)
      let others ← rules outermost steps
      return first.toList ++ others
    | token =>
      if outermost && (token = .commentOpen || token = .commentClose) then
        step
        rules outermost steps
      else
        let first ← styleRule (steps + 1)
        let others ← rules outermost steps
        return .style first :: others

variable {limit : Option Nat} {depth steps : Nat} {reader : Reader} {open_ : List OpenGroup}
  {before : List Rule}

theorem run_verbatim (h : reader.rest.length < steps) :
    (verbatim steps).run limit depth reader = readVerbatim limit depth reader := by
  rw [verbatim, run_bind, run_values h, readVerbatim]
  cases Value.readUntil limit (fun token => token = .closeBrace || token = .eof) depth reader with
  | error failure => rfl
  | ok pair =>
    simp only [run_look]
    split
    · next hclose => rw [run_step _ (by simp [hclose]), run_pure]
    · rfl

/-- What an at-rule amounts to once the rules of its group are read. -/
def finishAtRule (limit : Option Nat) (depth : Nat) (inside : Script (List Rule)) :
    AtRule × Reader → Except Failure (Option Rule × Reader)
  | (.rule found, after) => .ok (some found, after)
  | (.dropped, after) => .ok (none, after)
  | (.opens kind condition, after) =>
    match inside.run limit (depth + 1) after with
    | .error failure => .error failure
    | .ok (found, final) => .ok (some (.group kind condition found), final)

theorem run_atRuleBody {inside : Script (List Rule)} {name : String} {prelude : Prelude}
    (h : reader.rest.length < steps) :
    (atRuleBody inside steps name prelude).run limit depth reader =
      AtRule.readBody limit depth name prelude reader >>= finishAtRule limit depth inside := by
  unfold atRuleBody AtRule.readBody
  dsimp only
  split
  · cases AtRuleKind.ofKeyword (asciiLower name) with
    | charset | blockless => rfl
    | group kind =>
      dsimp only
      rw [run_bind, run_nest]
      by_cases hmay : mayNest limit depth
      · rw [if_pos hmay, if_pos hmay]
        show _ = finishAtRule limit depth inside (.opens kind _, reader)
        rw [finishAtRule]
        cases inside.run limit (depth + 1) reader <;> rfl
      · rw [if_neg hmay, if_neg hmay]
        rfl
    | page =>
      dsimp only
      rw [run_bind, run_page h]
      cases PageRule.readBlock limit depth reader <;> rfl
    | keyframes =>
      dsimp only
      rw [run_bind, run_keyframes h]
      cases KeyframesRule.readBlocks limit depth reader <;> rfl
    | descriptors =>
      dsimp only
      rw [run_bind, run_declarations h]
      cases Declaration.readBlock limit depth reader <;> rfl
    | other =>
      dsimp only
      rw [run_bind, run_verbatim h]
      cases readVerbatim limit depth reader <;> rfl
  · cases AtRuleKind.ofKeyword (asciiLower name) <;> rfl

theorem run_atRule {inside : Script (List Rule)} (h : reader.rest.length < steps) :
    (atRule inside steps).run limit depth reader =
      (AtRule.read limit depth reader).2 >>= finishAtRule limit depth inside := by
  rw [atRule, run_look, AtRule.read]
  cases hpeek : reader.peek with
  | atKeyword name =>
    have hne : reader.peek ≠ .eof := by simp [hpeek]
    have hlt := Nat.lt_trans (reader.advance_length_lt hne) h
    dsimp only
    rw [run_step _ hne, run_bind, run_prelude hlt]
    cases hprelude : Prelude.read limit depth reader.advance with
    | error failure => rfl
    | ok pair => exact run_atRuleBody (Nat.lt_of_le_of_lt (Prelude.read_length_le hprelude) hlt)
  | _ => rfl

theorem run_styleRule (h : reader.rest.length < steps) :
    (styleRule steps).run limit depth reader = StyleRule.read limit depth reader := by
  rw [styleRule, run_place, run_bind, run_beforeBlock h, StyleRule.read]
  cases hbefore : readBeforeBlock limit depth reader with
  | error failure => rfl
  | ok pair =>
    have hlt := readBeforeBlock_length_lt hbefore
    conv =>
      rhs
      dsimp only [Bind.bind, Except.bind]
    dsimp only
    cases Selector.readAll pair.1 with
    | error reason => rfl
    | ok selectors =>
      dsimp only
      rw [run_bind, run_declarations (Nat.lt_trans hlt h)]
      cases Declaration.readBlock limit depth pair.2 <;> rfl

/-- Where reading goes on when the rules of the innermost group, or those
    outside of all groups, are read. -/
def closeGroup (limit : Option Nat) (open_ : List OpenGroup) (before : List Rule) :
    List Rule × Reader → Except Failure (List Rule × Reader)
  | (found, after) =>
    match open_ with
    | [] => .ok (before.reverse ++ found, after.advance)
    | group :: others =>
      let (open_, before) := pushRules [(group.extend found).close] others before
      (readRules limit open_ before after).2

/-- A group that was empty is closed with the rules that are found in it. -/
theorem closeGroup_opens (kind : GroupKind) (condition : List Value) (found : List Rule)
    (after : Reader) :
    closeGroup limit (⟨kind, condition, []⟩ :: open_) before (found, after) =
      (readRules limit (pushRules [.group kind condition found] open_ before).1
        (pushRules [.group kind condition found] open_ before).2 after).2 := by
  simp [closeGroup, OpenGroup.extend, OpenGroup.close]

theorem closeGroup_pushRules (first found : List Rule) (open_ : List OpenGroup)
    (before : List Rule) (after : Reader) :
    closeGroup limit (pushRules first open_ before).1 (pushRules first open_ before).2
      (found, after) = closeGroup limit open_ before (first ++ found, after) := by
  cases open_ <;> simp [closeGroup, pushRules, OpenGroup.extend]

theorem isEmpty_pushRules (found : List Rule) (open_ : List OpenGroup) (before : List Rule) :
    (pushRules found open_ before).1.isEmpty = open_.isEmpty := by
  cases open_ <;> rfl

/-- More rules in front of those that are still to be read are put into the
    innermost group first. -/
theorem run_rules_closeGroup (first : List Rule) (after : Reader)
    (h : (readRules limit (pushRules first open_ before).1 (pushRules first open_ before).2
        after).2 =
      (rules (pushRules first open_ before).1.isEmpty steps).run limit
        (pushRules first open_ before).1.length after >>=
          closeGroup limit (pushRules first open_ before).1 (pushRules first open_ before).2) :
    (readRules limit (pushRules first open_ before).1 (pushRules first open_ before).2 after).2 =
      (do let others ← rules open_.isEmpty steps; return first ++ others : Script _).run limit
        open_.length after >>= closeGroup limit open_ before := by
  rw [h, isEmpty_pushRules, length_pushRules, run_bind]
  cases (rules open_.isEmpty steps).run limit open_.length after with
  | error failure => rfl
  | ok pair => exact closeGroup_pushRules first pair.1 open_ before pair.2

/-- Reading rules is reading those of the innermost group, and going on behind
    it. -/
theorem readRules_eq (h : reader.rest.length < steps) :
    (readRules limit open_ before reader).2 =
      (rules open_.isEmpty steps).run limit open_.length reader >>=
        closeGroup limit open_ before := by
  induction steps generalizing open_ before reader with
  | zero => omega
  | succ steps ih =>
    have hle : reader.rest.length ≤ steps := Nat.le_of_lt_succ h
    rw [rules, run_look]
    split
    · next hpeek =>
      rw [readRules_eof hpeek]
      cases open_ with
      | nil => simp [closeGroup, Bind.bind, Except.bind]
      | cons group others => rfl
    · next hpeek =>
      have hne : reader.peek ≠ .eof := by simp [hpeek]
      rw [readRules_blank hpeek, run_step _ hne]
      exact ih (Nat.lt_of_lt_of_le (reader.advance_length_lt hne) hle)
    · next hpeek =>
      cases open_ with
      | nil => exact readRules_stray hpeek
      | cons group others =>
        rw [readRules_closeBrace hpeek, List.isEmpty_cons, if_neg Bool.false_ne_true,
          run_step _ (by simp [hpeek])]
        rfl
    · next name hpeek =>
      rw [run_bind, run_atRule h]
      cases hread : (AtRule.read limit open_.length reader).2 with
      | error failure => exact readRules_atKeyword_error hpeek hread
      | ok pair =>
        obtain ⟨found, after⟩ := pair
        have hlt := Nat.lt_of_lt_of_le (AtRule.read_length_lt hread) hle
        rw [readRules_atKeyword before hpeek hread]
        cases found with
        | rule found => exact run_rules_closeGroup [found] after (ih hlt)
        | dropped =>
          have hrest := @run_rules_closeGroup limit steps open_ before [] after (ih hlt)
          rwa [pushRules_nil] at hrest
        | opens kind condition =>
          have hfinish : (Except.ok (AtRule.opens kind condition, after) >>=
                finishAtRule limit open_.length (rules false steps)) =
              finishAtRule limit open_.length (rules false steps) (.opens kind condition, after) :=
            rfl
          rw [hfinish, finishAtRule, AtRule.place, ih hlt, List.isEmpty_cons, List.length_cons]
          cases hinside : (rules false steps).run limit (open_.length + 1) after with
          | error failure => rfl
          | ok pair =>
            have hfinal := Nat.lt_of_le_of_lt (run_length_le hinside) hlt
            exact (closeGroup_opens kind condition pair.1 pair.2).trans
              (run_rules_closeGroup _ pair.2 (ih hfinal))
    · next hend hblank hbrace hat =>
      split
      · next hmark =>
        rw [Bool.and_eq_true, Bool.or_eq_true, decide_eq_true_eq, decide_eq_true_eq] at hmark
        obtain rfl : open_ = [] := List.isEmpty_iff.1 hmark.1
        rw [readRules_mark hmark.2, run_step _ hend]
        exact ih (Nat.lt_of_lt_of_le (reader.advance_length_lt hend) hle)
      · next hmark =>
        have hbegins := beginsStyle_of_not_mark hend hblank hbrace hat hmark
        rw [run_bind, run_styleRule h]
        cases hread : StyleRule.read limit open_.length reader with
        | error failure => exact readRules_style_error hbegins hread
        | ok pair =>
          have hlt := Nat.lt_of_lt_of_le (StyleRule.read_length_lt hread) hle
          rw [readRules_style hbegins hread]
          exact run_rules_closeGroup [.style pair.1] pair.2 (ih hlt)

end DeepScope.Script
