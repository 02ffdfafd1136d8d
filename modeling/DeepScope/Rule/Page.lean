import DeepScope.Rule.Declarations
import DeepScope.Rule.Prelude

namespace DeepScope.PageRule

/-- Reads the margin box whose name was just taken. -/
def readMargin (limit : Option Nat) (depth : Nat) (name : String) (reader : Reader) :
    Except Failure (MarginRule × Reader) :=
  match Prelude.read limit depth reader with
  | .error failure => .error failure
  | .ok (prelude, after) =>
    if !prelude.values.isEmpty || !prelude.hasBlock then after.fail (.malformedMargin name)
    else
      match Declaration.readBlock limit depth after with
      | .error failure => .error failure
      | .ok (declarations, final) => .ok (⟨name, declarations⟩, final)

theorem readMargin_length_le {limit : Option Nat} {depth : Nat} {name : String}
    {reader after : Reader} {margin : MarginRule}
    (h : readMargin limit depth name reader = .ok (margin, after)) :
    after.rest.length ≤ reader.rest.length := by
  unfold readMargin at h
  split at h
  · simp at h
  · next prelude middle hprelude =>
    have := Prelude.read_length_le hprelude
    split at h
    · simp [Reader.fail] at h
    · split at h
      · simp at h
      · next hblock =>
        cases h
        have := Declaration.readBlock_length_le hblock
        omega

/-- The name of a margin box and the box together take at least one token. -/
theorem readMargin_advance_length_lt {limit : Option Nat} {depth : Nat} {name : String}
    {reader after : Reader} {margin : MarginRule} (hpeek : reader.peek = .atKeyword name)
    (h : readMargin limit depth name reader.advance = .ok (margin, after)) :
    after.rest.length < reader.rest.length :=
  Nat.lt_of_le_of_lt (readMargin_length_le h) (Reader.advance_length_lt reader (by simp [hpeek]))

/-- Reads the block of a page rule, and the brace that closes it. -/
def readBlock (limit : Option Nat) (depth : Nat) (reader : Reader) :
    Except Failure ((List Declaration × List MarginRule) × Reader) :=
  match hpeek : reader.peek with
  | .closeBrace => .ok (([], []), reader.advance)
  | .whitespace | .semicolon =>
    have : reader.advance.rest.length < reader.rest.length :=
      Reader.advance_length_lt _ (by simp [hpeek])
    readBlock limit depth reader.advance
  | .eof => reader.advance.fail .unclosedPage
  | .atKeyword name =>
    match hmargin : readMargin limit depth name reader.advance with
    | .error failure => .error failure
    | .ok (margin, after) =>
      have : after.rest.length < reader.rest.length := readMargin_advance_length_lt hpeek hmargin
      match readBlock limit depth after with
      | .error failure => .error failure
      | .ok ((declarations, margins), final) => .ok ((declarations, margin :: margins), final)
  | .ident _ =>
    match hread : Declaration.read limit depth reader with
    | .error failure => .error failure
    | .ok (declaration, after) =>
      have : after.rest.length < reader.rest.length := Declaration.read_length_lt hread
      match readBlock limit depth after with
      | .error failure => .error failure
      | .ok ((declarations, margins), final) =>
        .ok ((declaration :: declarations, margins), final)
  | found => reader.advance.fail (.unexpectedInPage found)
termination_by reader.rest.length

theorem readBlock_length_le {limit : Option Nat} {depth : Nat} {reader after : Reader}
    {contents : List Declaration × List MarginRule}
    (h : readBlock limit depth reader = .ok (contents, after)) :
    after.rest.length ≤ reader.rest.length := by
  fun_induction readBlock limit depth reader generalizing contents after with
  | case1 =>
    cases h
    exact Reader.advance_length_le _
  | case2 _ _ _ ih | case3 _ _ _ ih =>
    have := ih h
    omega
  | case7 _ _ _ _ _ _ _ _ _ _ _ ih =>
    cases h
    have := ih ‹_›
    omega
  | case10 _ _ _ _ _ _ _ _ _ _ _ ih =>
    cases h
    have := ih ‹_›
    omega
  | _ => simp_all [Reader.fail]

end DeepScope.PageRule
