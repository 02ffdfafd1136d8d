import DeepScope.Rule.Keyframes
import DeepScope.Rule.Page
import DeepScope.Selector.Reader
import DeepScope.Text.Basic
import DeepScope.Value.Condition

/-!
Reading rules. Groups that are still open wait on a stack, so that one pass over the tokens
reads rules at any depth.
-/

namespace DeepScope

/-- What reading has to say about a stylesheet beside its rules. -/
inductive Note where
  | charsetIgnored
  | keptVerbatim (rule : String)
deriving DecidableEq, Repr

/-- What an at-rule turned out to be. -/
inductive AtRule where
  | rule (rule : Rule)
  /-- A group whose block is now open. -/
  | opens (kind : GroupKind) (condition : List Value)
  /-- Something that leaves no rule. -/
  | dropped
deriving Repr

/-- What decides how an at-rule goes on behind its prelude. -/
inductive AtRuleKind where
  | charset
  | group (kind : GroupKind)
  | page
  | keyframes
  | descriptors
  /-- A rule that never has a block. -/
  | blockless
  | other
deriving DecidableEq, Repr

/-- The kind of an at-rule, from its name in lower case. -/
def AtRuleKind.ofKeyword (keyword : String) : AtRuleKind :=
  if keyword = "charset" then .charset
  else if keyword = "media" then .group .media
  else if keyword = "supports" then .group .supports
  else if keyword = "page" then .page
  else if keyword = "keyframes" || endsWith keyword "-keyframes" then .keyframes
  else if keyword = "font-face" || keyword = "counter-style" || endsWith keyword "viewport" then
    .descriptors
  else if keyword = "import" || keyword = "namespace" then .blockless
  else .other

/-- Reads the contents of a block that has no grammar, and the brace that closes
    it. -/
def readVerbatim (limit : Option Nat) (depth : Nat) (reader : Reader) :
    Except Failure (List Value × Reader) :=
  let ends : Token → Bool := fun token => token = .closeBrace || token = .eof
  match Value.readUntil limit ends depth reader with
  | .error failure => .error failure
  | .ok (values, after) =>
    if after.peek = .closeBrace then .ok (Value.normalize values, after.advance)
    else after.advance.fail .unclosedBlock

/-- Reads what follows the prelude of an at-rule. The block of a group is only
    opened. -/
def AtRule.readBody (limit : Option Nat) (depth : Nat) (name : String) (prelude : Prelude)
    (reader : Reader) : Except Failure (AtRule × Reader) :=
  let kind := AtRuleKind.ofKeyword (asciiLower name)
  if prelude.hasBlock then
    match kind with
    | .charset => reader.fail .blockAfterCharset
    | .group kind =>
      if mayNest limit depth then
        .ok (.opens kind (Value.normalizeCondition prelude.values), reader)
      else reader.fail .tooDeep
    | .page => do
      let ((declarations, margins), after) ← PageRule.readBlock limit depth reader
      return (.rule (.page ⟨prelude.values, declarations, margins⟩), after)
    | .keyframes => do
      let (blocks, after) ← KeyframesRule.readBlocks limit depth reader
      return (.rule (.keyframes ⟨name, prelude.values, blocks⟩), after)
    | .descriptors => do
      let (declarations, after) ← Declaration.readBlock limit depth reader
      return (.rule (.descriptors name prelude.values declarations), after)
    | .blockless => reader.fail (.unexpectedBlock name)
    | .other => do
      let (block, after) ← readVerbatim limit depth reader
      return (.rule (.verbatim name prelude.values block), after)
  else
    match kind with
    | .charset => .ok (.dropped, reader)
    | .blockless | .other => .ok (.rule (.statement name prelude.values), reader)
    | _ => reader.fail (.expectedBlock name)

/-- What is to be noted about an at-rule once its prelude is read. -/
def AtRule.note (name : String) (prelude : Prelude) : Option Note :=
  match AtRuleKind.ofKeyword (asciiLower name), prelude.hasBlock with
  | .charset, false => some .charsetIgnored
  | .other, true => some (.keptVerbatim name)
  | _, _ => none

/-- Reads an at-rule, or the beginning of a group. -/
def AtRule.read (limit : Option Nat) (depth : Nat) (reader : Reader) :
    Option Note × Except Failure (AtRule × Reader) :=
  match reader.peek with
  | .atKeyword name =>
    match Prelude.read limit depth reader.advance with
    | .error failure => (none, .error failure)
    | .ok (prelude, after) =>
      (AtRule.note name prelude, AtRule.readBody limit depth name prelude after)
  | found => (none, reader.advance.fail (.expectedAtRule found))

/-- Reads a style rule. Errors in its selectors are reported where it begins. -/
def StyleRule.read (limit : Option Nat) (depth : Nat) (reader : Reader) :
    Except Failure (StyleRule × Reader) := do
  let (values, inside) ← readBeforeBlock limit depth reader
  match Selector.readAll values with
  | .error reason => throw ⟨reader.here, .selector reason, inside⟩
  | .ok selectors =>
    let (declarations, after) ← Declaration.readBlock limit depth inside
    return (⟨selectors, declarations⟩, after)

theorem readVerbatim_length_le {limit : Option Nat} {depth : Nat} {reader after : Reader}
    {values : List Value} (h : readVerbatim limit depth reader = .ok (values, after)) :
    after.rest.length ≤ reader.rest.length := by
  unfold readVerbatim at h
  dsimp only at h
  split at h
  · simp at h
  · next middle hvalues =>
    have := Value.readUntil_length_le hvalues
    have := Reader.advance_length_le middle
    split at h
    · cases h
      omega
    · simp [Reader.fail] at h

theorem AtRule.readBody_length_le {limit : Option Nat} {depth : Nat} {name : String}
    {prelude : Prelude} {reader after : Reader} {rule : AtRule}
    (h : AtRule.readBody limit depth name prelude reader = .ok (rule, after)) :
    after.rest.length ≤ reader.rest.length := by
  unfold AtRule.readBody at h
  dsimp only at h
  split at h
  · split at h
    · simp [Reader.fail] at h
    · split at h
      · cases h
        exact Nat.le_refl _
      · simp [Reader.fail] at h
    · obtain ⟨⟨contents, final⟩, hread, hpure⟩ := exists_of_bind_eq_ok h
      cases hpure
      exact PageRule.readBlock_length_le hread
    · obtain ⟨⟨blocks, final⟩, hread, hpure⟩ := exists_of_bind_eq_ok h
      cases hpure
      exact KeyframesRule.readBlocks_length_le hread
    · obtain ⟨⟨declarations, final⟩, hread, hpure⟩ := exists_of_bind_eq_ok h
      cases hpure
      exact Declaration.readBlock_length_le hread
    · simp [Reader.fail] at h
    · obtain ⟨⟨block, final⟩, hread, hpure⟩ := exists_of_bind_eq_ok h
      cases hpure
      exact readVerbatim_length_le hread
  · split at h
    · cases h
      exact Nat.le_refl _
    · cases h
      exact Nat.le_refl _
    · cases h
      exact Nat.le_refl _
    · simp [Reader.fail] at h

/-- The name is taken, so something always is. -/
theorem AtRule.read_length_lt {limit : Option Nat} {depth : Nat} {reader after : Reader}
    {rule : AtRule} (h : (AtRule.read limit depth reader).2 = .ok (rule, after)) :
    after.rest.length < reader.rest.length := by
  unfold AtRule.read at h
  split at h
  · next name hpeek =>
    have hlt := Reader.advance_length_lt reader (by simp [hpeek])
    split at h
    · simp at h
    · next hprelude =>
      have := Prelude.read_length_le hprelude
      have := AtRule.readBody_length_le h
      omega
  · simp [Reader.fail] at h

theorem StyleRule.read_length_lt {limit : Option Nat} {depth : Nat} {reader after : Reader}
    {rule : StyleRule} (h : StyleRule.read limit depth reader = .ok (rule, after)) :
    after.rest.length < reader.rest.length := by
  obtain ⟨⟨values, inside⟩, hbefore, hrest⟩ := exists_of_bind_eq_ok h
  have hlt := readBeforeBlock_length_lt hbefore
  dsimp only at hrest
  split at hrest
  · simp [throw, throwThe, MonadExceptOf.throw] at hrest
  · obtain ⟨⟨declarations, final⟩, hblock, hpure⟩ := exists_of_bind_eq_ok hrest
    cases hpure
    exact Nat.lt_of_le_of_lt (Declaration.readBlock_length_le hblock) hlt

/-- A group whose block is open, and the rules in it so far, the last one
    first. -/
structure OpenGroup where
  kind : GroupKind
  condition : List Value
  rules : List Rule
deriving Repr

/-- The finished group. -/
def OpenGroup.close (group : OpenGroup) : Rule :=
  .group group.kind group.condition group.rules.reverse

/-- One more rule inside. -/
def OpenGroup.push (group : OpenGroup) (rule : Rule) : OpenGroup :=
  { group with rules := rule :: group.rules }

/-- One more rule in the innermost open group, or in the list of rules outside
    of all groups. -/
def pushRule (rule : Rule) (open_ : List OpenGroup) (rules : List Rule) :
    List OpenGroup × List Rule :=
  match open_ with
  | [] => ([], rule :: rules)
  | group :: others => (group.push rule :: others, rules)

/-- Reads rules up to the end, with the groups that are open, innermost first,
    and the rules outside of them so far, the last one first. -/
def readRules (limit : Option Nat) (open_ : List OpenGroup) (rules : List Rule)
    (reader : Reader) : List Note × Except Failure (List Rule × Reader) :=
  match hpeek : reader.peek with
  | .eof =>
    if open_.isEmpty then ([], .ok (rules.reverse, reader.advance))
    else ([], reader.advance.fail .unclosedBlock)
  | .whitespace =>
    have : reader.advance.rest.length < reader.rest.length :=
      Reader.advance_length_lt _ (by simp [hpeek])
    readRules limit open_ rules reader.advance
  | .closeBrace =>
    match open_ with
    | [] => ([], reader.advance.fail .strayBrace)
    | group :: others =>
      have : reader.advance.rest.length < reader.rest.length :=
        Reader.advance_length_lt _ (by simp [hpeek])
      let (open_, rules) := pushRule group.close others rules
      readRules limit open_ rules reader.advance
  | .atKeyword _ =>
    let step := AtRule.read limit open_.length reader
    match hread : step.2 with
    | .error failure => (step.1.toList, .error failure)
    | .ok (rule, after) =>
      have : after.rest.length < reader.rest.length := AtRule.read_length_lt hread
      let (open_, rules) := match rule with
        | .rule rule => pushRule rule open_ rules
        | .opens kind condition => (⟨kind, condition, []⟩ :: open_, rules)
        | .dropped => (open_, rules)
      let (notes, result) := readRules limit open_ rules after
      (step.1.toList ++ notes, result)
  | token =>
    if hmark : open_.isEmpty && (token = .commentOpen || token = .commentClose) then
      have : reader.advance.rest.length < reader.rest.length :=
        Reader.advance_length_lt _ (by simp [hpeek]; rintro rfl; simp at hmark)
      readRules limit open_ rules reader.advance
    else
      match hread : StyleRule.read limit open_.length reader with
      | .error failure => ([], .error failure)
      | .ok (rule, after) =>
        have : after.rest.length < reader.rest.length := StyleRule.read_length_lt hread
        let (open_, rules) := pushRule (.style rule) open_ rules
        readRules limit open_ rules after
termination_by reader.rest.length

end DeepScope
