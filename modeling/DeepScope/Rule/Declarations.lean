import DeepScope.Rule.Basic
import DeepScope.Text.Basic
import DeepScope.Value.Reader

namespace DeepScope

/-- Takes a trailing `!important` off a value, if there is one. -/
def stripImportant (value : List Value) : Option (List Value) :=
  match value.reverse with
  | .token (.ident word) :: before =>
    if asciiLower word = "important" then
      match before.dropWhile Value.isBlank with
      | .token (.delim '!') :: front => some (front.dropWhile Value.isBlank).reverse
      | _ => none
    else none
  | _ => none

/-- The tokens that end the value of a declaration. -/
def endsDeclaration : Token → Bool
  | .semicolon | .closeBrace | .eof => true
  | _ => false

namespace Declaration

/-- Reads a declaration: a name, a colon and a value, which only a custom
    property may leave empty. What ends the value is left. -/
def read (limit : Option Nat) (depth : Nat) (reader : Reader) :
    Except Failure (Declaration × Reader) :=
  match reader.peek with
  | .ident name =>
    let afterName := reader.advance.skipBlanks
    let afterColon := afterName.advance
    if afterName.peek ≠ .colon then afterColon.fail (.expectedColon name)
    else
      match Value.readUntil limit endsDeclaration depth afterColon with
      | .error failure => .error failure
      | .ok (values, after) =>
        let value := Value.normalize values
        let stripped := stripImportant value
        let value := stripped.getD value
        if value.isEmpty && !"--".toList.isPrefixOf name.toList then after.fail (.emptyValue name)
        else .ok (⟨name, value, stripped.isSome⟩, after)
  | found => reader.advance.fail (.expectedProperty found)

theorem read_length_lt {limit : Option Nat} {depth : Nat} {reader after : Reader}
    {declaration : Declaration} (h : read limit depth reader = .ok (declaration, after)) :
    after.rest.length < reader.rest.length := by
  unfold read at h
  split at h
  · next name hpeek =>
    have hlt : reader.advance.rest.length < reader.rest.length :=
      Reader.advance_length_lt _ (by simp [hpeek])
    dsimp only at h
    split at h
    · simp [Reader.fail] at h
    · split at h
      · simp at h
      · next values final hvalues =>
        split at h
        · simp [Reader.fail] at h
        · cases h
          have := Value.readUntil_length_le hvalues
          have := Reader.skipBlanks_length_le reader.advance
          have := Reader.advance_length_le reader.advance.skipBlanks
          omega
  · simp [Reader.fail] at h

/-- Reads the declarations of a block whose brace is open, and the brace that
    closes it. -/
def readBlock (limit : Option Nat) (depth : Nat) (reader : Reader) :
    Except Failure (List Declaration × Reader) :=
  match hpeek : reader.peek with
  | .closeBrace => .ok ([], reader.advance)
  | .whitespace | .semicolon =>
    have : reader.advance.rest.length < reader.rest.length :=
      Reader.advance_length_lt _ (by simp [hpeek])
    readBlock limit depth reader.advance
  | .eof => reader.advance.fail .unclosedDeclarations
  | .atKeyword rule => reader.advance.fail (.atRuleInDeclarations rule)
  | .ident _ =>
    match hread : read limit depth reader with
    | .error failure => .error failure
    | .ok (declaration, after) =>
      have : after.rest.length < reader.rest.length := read_length_lt hread
      match readBlock limit depth after with
      | .error failure => .error failure
      | .ok (declarations, final) => .ok (declaration :: declarations, final)
  | found => reader.advance.fail (.unexpectedInDeclarations found)
termination_by reader.rest.length

theorem readBlock_length_le {limit : Option Nat} {depth : Nat} {reader after : Reader}
    {declarations : List Declaration}
    (h : readBlock limit depth reader = .ok (declarations, after)) :
    after.rest.length ≤ reader.rest.length := by
  fun_induction readBlock limit depth reader generalizing declarations after with
  | case1 =>
    cases h
    exact Reader.advance_length_le _
  | case2 _ _ _ ih | case3 _ _ _ ih =>
    have := ih h
    omega
  | case8 _ _ _ _ _ _ _ _ _ _ ih =>
    cases h
    have := ih ‹_›
    omega
  | _ => simp_all [Reader.fail]

end Declaration

end DeepScope
