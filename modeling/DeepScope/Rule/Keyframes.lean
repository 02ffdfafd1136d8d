import DeepScope.Rule.Declarations
import DeepScope.Rule.Prelude
import DeepScope.Text.Basic

namespace DeepScope.KeyframesRule

/-- Reads the block of an animation, and the brace that closes it. -/
def readBlocks (limit : Option Nat) (depth : Nat) (reader : Reader) :
    Except Failure (List KeyframeBlock × Reader) :=
  match hpeek : reader.peek with
  | .closeBrace => .ok ([], reader.advance)
  | .whitespace =>
    have : reader.advance.rest.length < reader.rest.length :=
      Reader.advance_length_lt _ (by simp [hpeek])
    readBlocks limit depth reader.advance
  | .eof => reader.advance.fail .unclosedKeyframes
  | _ =>
    match hbefore : readBeforeBlock limit depth reader with
    | .error failure => .error failure
    | .ok (values, inside) =>
      let selectors := splitOn Value.isComma values
      if selectors.any List.isEmpty then inside.fail .emptyKeyframeSelector
      else
        match hblock : Declaration.readBlock limit depth inside with
        | .error failure => .error failure
        | .ok (declarations, after) =>
          have : after.rest.length < reader.rest.length :=
            Nat.lt_of_le_of_lt (Declaration.readBlock_length_le hblock)
              (readBeforeBlock_length_lt hbefore)
          match readBlocks limit depth after with
          | .error failure => .error failure
          | .ok (blocks, final) => .ok (⟨selectors, declarations⟩ :: blocks, final)
termination_by reader.rest.length

theorem readBlocks_length_le {limit : Option Nat} {depth : Nat} {reader after : Reader}
    {blocks : List KeyframeBlock} (h : readBlocks limit depth reader = .ok (blocks, after)) :
    after.rest.length ≤ reader.rest.length := by
  fun_induction readBlocks limit depth reader generalizing blocks after with
  | case1 =>
    cases h
    exact Reader.advance_length_le _
  | case2 _ _ _ ih =>
    have := ih h
    omega
  | case8 =>
    cases h
    rename_i ih
    have := ih ‹_›
    omega
  | _ => simp_all [Reader.fail]

end DeepScope.KeyframesRule
