import DeepScope.Value.Reader

namespace DeepScope

/-- What stands between the name of an at-rule and its end, and whether a block
    follows. -/
structure Prelude where
  values : List Value
  hasBlock : Bool
deriving DecidableEq, Repr

/-- The tokens at which every prelude ends. -/
def endsPrelude : Token → Bool
  | .semicolon | .openBrace | .closeBrace | .eof => true
  | _ => false

/-- Reads the prelude of an at-rule, and the semicolon or the opening brace
    behind it. -/
def Prelude.read (limit : Option Nat) (depth : Nat) (reader : Reader) :
    Except Failure (Prelude × Reader) :=
  match Value.readUntil limit endsPrelude depth reader with
  | .error failure => .error failure
  | .ok (values, after) =>
    match after.peek with
    | .semicolon => .ok (⟨Value.normalize values, false⟩, after.advance)
    | .openBrace => .ok (⟨Value.normalize values, true⟩, after.advance)
    | .closeBrace => after.advance.fail .braceInPrelude
    | _ => after.advance.fail .endInPrelude

/-- Reads the values in front of a block, and its opening brace. -/
def readBeforeBlock (limit : Option Nat) (depth : Nat) (reader : Reader) :
    Except Failure (List Value × Reader) :=
  match Value.readUntil limit endsPrelude depth reader with
  | .error failure => .error failure
  | .ok (values, after) =>
    match after.peek with
    | .openBrace => .ok (Value.normalize values, after.advance)
    | .semicolon => after.advance.fail .semicolonInSelector
    | .closeBrace => after.advance.fail .braceInSelector
    | _ => after.advance.fail .endInSelector

theorem Prelude.read_length_le {limit : Option Nat} {depth : Nat} {reader after : Reader}
    {prelude : Prelude} (h : Prelude.read limit depth reader = .ok (prelude, after)) :
    after.rest.length ≤ reader.rest.length := by
  unfold Prelude.read at h
  split at h
  · simp at h
  · next values middle hvalues =>
    have := Value.readUntil_length_le hvalues
    have := Reader.advance_length_le middle
    split at h <;> first | (cases h; omega) | simp [Reader.fail] at h

/-- The opening brace is taken, so something always is. -/
theorem readBeforeBlock_length_lt {limit : Option Nat} {depth : Nat} {reader after : Reader}
    {values : List Value} (h : readBeforeBlock limit depth reader = .ok (values, after)) :
    after.rest.length < reader.rest.length := by
  unfold readBeforeBlock at h
  split at h
  · simp at h
  · next read middle hvalues =>
    have := Value.readUntil_length_le hvalues
    split at h
    · next hpeek =>
      have := Reader.advance_length_lt middle (by simp [hpeek])
      cases h
      omega
    all_goals simp [Reader.fail] at h

end DeepScope
