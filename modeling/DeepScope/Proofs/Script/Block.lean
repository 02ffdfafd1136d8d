import DeepScope.Proofs.Script.Value
import DeepScope.Rule.Keyframes
import DeepScope.Rule.Page

namespace DeepScope.Script

variable {limit : Option Nat} {depth steps : Nat} {reader : Reader}

/-- Reads a declaration. -/
def declaration (steps : Nat) : Script Declaration := do
  match ← look with
  | .ident name =>
    step
    blanks steps
    if (← look) = .colon then
      step
      let value := Value.normalize (← values endsDeclaration steps)
      let stripped := stripImportant value
      let value := stripped.getD value
      if value.isEmpty && !"--".toList.isPrefixOf name.toList then fail none (.emptyValue name)
      else return ⟨name, value, stripped.isSome⟩
    else refuse (.expectedColon name)
  | found => refuse (.expectedProperty found)

/-- Reads the declarations of a block, and the brace that closes it. -/
def declarations : Nat → Script (List Declaration)
  | 0 => exhausted
  | steps + 1 => do
    match ← look with
    | .closeBrace =>
      step
      return []
    | .whitespace | .semicolon =>
      step
      declarations steps
    | .eof => refuse .unclosedDeclarations
    | .atKeyword rule => refuse (.atRuleInDeclarations rule)
    | .ident _ =>
      let first ← declaration steps
      let others ← declarations steps
      return first :: others
    | found => refuse (.unexpectedInDeclarations found)

/-- Reads the prelude of an at-rule, and what ends it. -/
def prelude (steps : Nat) : Script Prelude := do
  let found ← values endsPrelude steps
  match ← look with
  | .semicolon =>
    step
    return ⟨Value.normalize found, false⟩
  | .openBrace =>
    step
    return ⟨Value.normalize found, true⟩
  | .closeBrace => refuse .braceInPrelude
  | _ => refuse .endInPrelude

/-- Reads the values in front of a block, and its opening brace. -/
def beforeBlock (steps : Nat) : Script (List Value) := do
  let found ← values endsPrelude steps
  match ← look with
  | .openBrace =>
    step
    return Value.normalize found
  | .semicolon => refuse .semicolonInSelector
  | .closeBrace => refuse .braceInSelector
  | _ => refuse .endInSelector

/-- Reads a margin box behind its name. -/
def margin (steps : Nat) (name : String) : Script MarginRule := do
  let prelude ← prelude steps
  if !prelude.values.isEmpty || !prelude.hasBlock then fail none (.malformedMargin name)
  else return ⟨name, ← declarations steps⟩

/-- Reads the block of a page rule, and the brace that closes it. -/
def page : Nat → Script (List Declaration × List MarginRule)
  | 0 => exhausted
  | steps + 1 => do
    match ← look with
    | .closeBrace =>
      step
      return ([], [])
    | .whitespace | .semicolon =>
      step
      page steps
    | .eof => refuse .unclosedPage
    | .atKeyword name =>
      step
      let first ← margin steps name
      let (declarations, margins) ← page steps
      return (declarations, first :: margins)
    | .ident _ =>
      let first ← declaration steps
      let (declarations, margins) ← page steps
      return (first :: declarations, margins)
    | found => refuse (.unexpectedInPage found)

/-- Reads the declarations for some moments of an animation. -/
def keyframe (steps : Nat) : Script KeyframeBlock := do
  let selectors := splitOn Value.isComma (← beforeBlock steps)
  if selectors.any List.isEmpty then fail none .emptyKeyframeSelector
  else return ⟨selectors, ← declarations steps⟩

/-- Reads the block of an animation, and the brace that closes it. -/
def keyframes : Nat → Script (List KeyframeBlock)
  | 0 => exhausted
  | steps + 1 => do
    match ← look with
    | .closeBrace =>
      step
      return []
    | .whitespace =>
      step
      keyframes steps
    | .eof => refuse .unclosedKeyframes
    | _ =>
      let first ← keyframe (steps + 1)
      let others ← keyframes steps
      return first :: others

theorem run_declaration (h : reader.rest.length ≤ steps) :
    (declaration steps).run limit depth reader = Declaration.read limit depth reader := by
  rw [declaration, run_look, Declaration.read.eq_def]
  cases hpeek : reader.peek with
  | ident name =>
    have hne : reader.peek ≠ .eof := by simp [hpeek]
    have hlt := reader.advance_length_lt hne
    have hblanks := reader.advance.skipBlanks_length_le
    dsimp only
    rw [run_step _ hne, run_bind, run_blanks (Nat.lt_of_lt_of_le hlt h)]
    simp only [run_look]
    by_cases hcolon : reader.advance.skipBlanks.peek = .colon
    · have hadvance := reader.advance.skipBlanks.advance_length_le
      rw [if_pos hcolon, if_neg (not_not_intro hcolon), run_step _ (by simp [hcolon]),
        run_bind, run_values (by omega)]
      cases Value.readUntil limit endsDeclaration depth reader.advance.skipBlanks.advance with
      | error failure => rfl
      | ok pair =>
        dsimp only
        split <;> rfl
    · rw [if_neg hcolon, if_pos hcolon]
      rfl
  | _ => rfl

/-- A round of declarations that begins with a name. -/
theorem run_declarations_succ {name : String} (hpeek : reader.peek = .ident name)
    (h : reader.rest.length ≤ steps) :
    (declarations (steps + 1)).run limit depth reader =
      match Declaration.read limit depth reader with
      | .error failure => .error failure
      | .ok (first, after) =>
        match (declarations steps).run limit depth after with
        | .error failure => .error failure
        | .ok (others, final) => .ok (first :: others, final) := by
  rw [declarations, run_look, hpeek]
  dsimp only
  rw [run_bind, run_declaration h]
  cases Declaration.read limit depth reader with
  | error failure => rfl
  | ok pair =>
    simp only [run_bind]
    cases (declarations steps).run limit depth pair.2 <;> rfl

theorem run_declarations (h : reader.rest.length < steps) :
    (declarations steps).run limit depth reader = Declaration.readBlock limit depth reader := by
  obtain ⟨left, rfl, hle⟩ := exists_round h
  clear h
  fun_induction Declaration.readBlock limit depth reader generalizing left with
  | case1 reader hpeek =>
    rw [declarations, run_look, hpeek]
    exact run_step _ (by simp [hpeek])
  | case2 reader hpeek hlt ih | case3 reader hpeek hlt ih =>
    obtain ⟨rounds, rfl, hrounds⟩ := exists_round (Nat.lt_of_lt_of_le hlt hle)
    rw [declarations, run_look, hpeek, ← ih rounds hrounds]
    exact run_step _ (by simp [hpeek])
  | case4 reader hpeek | case5 reader rule hpeek =>
    rw [declarations, run_look, hpeek]
    rfl
  | case6 reader name hpeek failure hread => rw [run_declarations_succ hpeek hle, hread]
  | case7 reader name hpeek first after hread hlt failure hothers ih
  | case8 reader name hpeek first after hread hlt others final hothers ih =>
    obtain ⟨rounds, rfl, hrounds⟩ := exists_round (Nat.lt_of_lt_of_le hlt hle)
    rw [run_declarations_succ hpeek hle, hread]
    dsimp only
    rw [ih rounds hrounds, hothers]
  | case9 reader =>
    rw [declarations, run_look]
    split <;> first | rfl | grind

theorem run_prelude (h : reader.rest.length < steps) :
    (prelude steps).run limit depth reader = Prelude.read limit depth reader := by
  rw [prelude, run_bind, run_values h, Prelude.read]
  cases Value.readUntil limit endsPrelude depth reader with
  | error failure => rfl
  | ok pair =>
    simp only [run_look]
    cases hpeek : pair.2.peek with
    | semicolon | openBrace => exact run_step _ (by simp [hpeek])
    | _ => rfl

theorem run_beforeBlock (h : reader.rest.length < steps) :
    (beforeBlock steps).run limit depth reader = readBeforeBlock limit depth reader := by
  rw [beforeBlock, run_bind, run_values h, readBeforeBlock]
  cases Value.readUntil limit endsPrelude depth reader with
  | error failure => rfl
  | ok pair =>
    simp only [run_look]
    cases hpeek : pair.2.peek with
    | openBrace => exact run_step _ (by simp [hpeek])
    | _ => rfl

theorem run_margin {name : String} (h : reader.rest.length < steps) :
    (margin steps name).run limit depth reader = PageRule.readMargin limit depth name reader := by
  rw [margin, run_bind, run_prelude h, PageRule.readMargin]
  cases hprelude : Prelude.read limit depth reader with
  | error failure => rfl
  | ok pair =>
    have hle := Prelude.read_length_le hprelude
    dsimp only
    split
    · rfl
    · rw [run_bind, run_declarations (Nat.lt_of_le_of_lt hle h)]
      cases Declaration.readBlock limit depth pair.2 <;> rfl

/-- A round of a page rule that begins with a name. -/
theorem run_page_declaration {name : String} (hpeek : reader.peek = .ident name)
    (h : reader.rest.length ≤ steps) :
    (page (steps + 1)).run limit depth reader =
      match Declaration.read limit depth reader with
      | .error failure => .error failure
      | .ok (first, after) =>
        match (page steps).run limit depth after with
        | .error failure => .error failure
        | .ok (others, final) => .ok ((first :: others.1, others.2), final) := by
  rw [page, run_look, hpeek]
  dsimp only
  rw [run_bind, run_declaration h]
  cases Declaration.read limit depth reader with
  | error failure => rfl
  | ok pair =>
    simp only [run_bind]
    cases (page steps).run limit depth pair.2 <;> rfl

/-- A round of a page rule that begins with the name of a margin box. -/
theorem run_page_margin {name : String} (hpeek : reader.peek = .atKeyword name)
    (h : reader.rest.length ≤ steps) :
    (page (steps + 1)).run limit depth reader =
      match PageRule.readMargin limit depth name reader.advance with
      | .error failure => .error failure
      | .ok (first, after) =>
        match (page steps).run limit depth after with
        | .error failure => .error failure
        | .ok (others, final) => .ok ((others.1, first :: others.2), final) := by
  have hne : reader.peek ≠ .eof := by simp [hpeek]
  rw [page, run_look, hpeek]
  dsimp only
  rw [run_step _ hne, run_bind, run_margin (Nat.lt_of_lt_of_le (reader.advance_length_lt hne) h)]
  cases PageRule.readMargin limit depth name reader.advance with
  | error failure => rfl
  | ok pair =>
    simp only [run_bind]
    cases (page steps).run limit depth pair.2 <;> rfl

theorem run_page (h : reader.rest.length < steps) :
    (page steps).run limit depth reader = PageRule.readBlock limit depth reader := by
  obtain ⟨left, rfl, hle⟩ := exists_round h
  clear h
  fun_induction PageRule.readBlock limit depth reader generalizing left with
  | case1 reader hpeek =>
    rw [page, run_look, hpeek]
    exact run_step _ (by simp [hpeek])
  | case2 reader hpeek hlt ih | case3 reader hpeek hlt ih =>
    obtain ⟨rounds, rfl, hrounds⟩ := exists_round (Nat.lt_of_lt_of_le hlt hle)
    rw [page, run_look, hpeek, ← ih rounds hrounds]
    exact run_step _ (by simp [hpeek])
  | case4 reader hpeek =>
    rw [page, run_look, hpeek]
    rfl
  | case5 reader name hpeek failure hmargin => rw [run_page_margin hpeek hle, hmargin]
  | case6 reader name hpeek first after hmargin hlt failure hothers ih
  | case7 reader name hpeek first after hmargin hlt declarations margins final hothers ih =>
    obtain ⟨rounds, rfl, hrounds⟩ := exists_round (Nat.lt_of_lt_of_le hlt hle)
    rw [run_page_margin hpeek hle, hmargin]
    dsimp only
    rw [ih rounds hrounds, hothers]
  | case8 reader name hpeek failure hread => rw [run_page_declaration hpeek hle, hread]
  | case9 reader name hpeek first after hread hlt failure hothers ih
  | case10 reader name hpeek first after hread hlt declarations margins final hothers ih =>
    obtain ⟨rounds, rfl, hrounds⟩ := exists_round (Nat.lt_of_lt_of_le hlt hle)
    rw [run_page_declaration hpeek hle, hread]
    dsimp only
    rw [ih rounds hrounds, hothers]
  | case11 reader =>
    rw [page, run_look]
    split <;> first | rfl | grind

theorem run_keyframe (h : reader.rest.length < steps) :
    (keyframe steps).run limit depth reader =
      match readBeforeBlock limit depth reader with
      | .error failure => .error failure
      | .ok (values, inside) =>
        if (splitOn Value.isComma values).any List.isEmpty then inside.fail .emptyKeyframeSelector
        else
          match Declaration.readBlock limit depth inside with
          | .error failure => .error failure
          | .ok (declarations, after) => .ok (⟨splitOn Value.isComma values, declarations⟩, after) := by
  rw [keyframe, run_bind, run_beforeBlock h]
  cases hbefore : readBeforeBlock limit depth reader with
  | error failure => rfl
  | ok pair =>
    have hlt := readBeforeBlock_length_lt hbefore
    dsimp only
    split
    · rfl
    · rw [run_bind, run_declarations (Nat.lt_trans hlt h)]
      cases Declaration.readBlock limit depth pair.2 <;> rfl

/-- A round of an animation that begins with no brace, no blank and no end. -/
theorem run_keyframes_succ {left : Nat} (hbrace : reader.peek ≠ .closeBrace)
    (hblank : reader.peek ≠ .whitespace) (hend : reader.peek ≠ .eof) :
    (keyframes (left + 1)).run limit depth reader =
      match (keyframe (left + 1)).run limit depth reader with
      | .error failure => .error failure
      | .ok (first, after) =>
        match (keyframes left).run limit depth after with
        | .error failure => .error failure
        | .ok (others, final) => .ok (first :: others, final) := by
  rw [keyframes, run_look]
  split
  · contradiction
  · contradiction
  · contradiction
  · rw [run_bind]
    cases (keyframe (left + 1)).run limit depth reader with
    | error failure => rfl
    | ok pair =>
      simp only [run_bind]
      cases (keyframes left).run limit depth pair.2 <;> rfl

theorem run_keyframes (h : reader.rest.length < steps) :
    (keyframes steps).run limit depth reader = KeyframesRule.readBlocks limit depth reader := by
  fun_induction KeyframesRule.readBlocks limit depth reader generalizing steps with
  | case1 reader hpeek =>
    obtain ⟨left, rfl, hle⟩ := exists_round h
    rw [keyframes, run_look, hpeek]
    exact run_step _ (by simp [hpeek])
  | case2 reader hpeek hlt ih =>
    obtain ⟨left, rfl, hle⟩ := exists_round h
    rw [keyframes, run_look, hpeek, ← ih (Nat.lt_of_lt_of_le hlt hle)]
    exact run_step _ (by simp [hpeek])
  | case3 reader hpeek =>
    obtain ⟨left, rfl, -⟩ := exists_round h
    rw [keyframes, run_look, hpeek]
    rfl
  | case4 reader failure hbefore hbrace hblank hend =>
    obtain ⟨left, rfl, -⟩ := exists_round h
    simp only [run_keyframes_succ hbrace hblank hend, run_keyframe h, hbefore]
  | case5 reader values inside hbefore selectors hempty =>
    obtain ⟨left, rfl, -⟩ := exists_round h
    rw [run_keyframes_succ ‹_› ‹_› ‹_›, run_keyframe h, hbefore]
    dsimp only
    rw [if_pos hempty]
    rfl
  | case6 reader values inside hbefore selectors hempty failure hblock =>
    obtain ⟨left, rfl, -⟩ := exists_round h
    rw [run_keyframes_succ ‹_› ‹_› ‹_›, run_keyframe h, hbefore]
    dsimp only
    rw [if_neg hempty, hblock]
  | case7 reader values inside hbefore selectors hempty declarations after hblock hlt =>
    rename_i hothers _ _ _ ih
    obtain ⟨left, rfl, hle⟩ := exists_round h
    rw [run_keyframes_succ ‹_› ‹_› ‹_›, run_keyframe h, hbefore]
    dsimp only
    rw [if_neg hempty, hblock]
    simp only [ih (Nat.lt_of_lt_of_le hlt hle), hothers]
  | case8 reader values inside hbefore selectors hempty declarations after hblock hlt =>
    rename_i hothers _ _ _ ih
    obtain ⟨left, rfl, hle⟩ := exists_round h
    rw [run_keyframes_succ ‹_› ‹_› ‹_›, run_keyframe h, hbefore]
    dsimp only
    rw [if_neg hempty, hblock]
    simp only [ih (Nat.lt_of_lt_of_le hlt hle), hothers, selectors]

end DeepScope.Script
