import DeepScope.Token.Adjacent
import DeepScope.Value.Basic

/-!
The written form of a stylesheet as a sequence of pieces: its tokens, and the blanks and
comments around them. The text is what the pieces say one after the other.
-/

namespace DeepScope

/-- For people to read, or as short as it can be. -/
inductive Layout where
  | pretty
  | minified
deriving DecidableEq, Repr

/-- A piece of written text. -/
inductive Piece where
  | token (token : Token)
  | blank (text : String)
  | comment (text : String)
deriving DecidableEq, Repr

namespace Piece

/-- The text of a piece. -/
def text : Piece → String
  | token t => t.text
  | blank text => text
  | comment text => "/*" ++ text ++ "*/"

/-- The text of a sequence of pieces. -/
def textAll (pieces : List Piece) : String :=
  String.join (pieces.map text)

end Piece

namespace Layout

/-- Pieces that only the pretty layout has. -/
def onlyPretty (layout : Layout) (pieces : List Piece) : List Piece :=
  match layout with
  | pretty => pieces
  | minified => []

/-- A blank that only the pretty layout has. -/
def space (layout : Layout) : List Piece :=
  layout.onlyPretty [.blank " "]

/-- The end of a line, which only the pretty layout has. -/
def newline (layout : Layout) : List Piece :=
  layout.onlyPretty [.blank "\n"]

/-- The beginning of a line at some depth, two blanks to each level. -/
def indent (layout : Layout) (depth : Nat) : List Piece :=
  layout.onlyPretty [.blank (String.ofList (List.replicate (2 * depth) ' '))]

/-- What stands between two tokens of a value: a blank behind a comma in the
    pretty layout, and an empty comment where the tokens would merge. -/
def between (layout : Layout) (prev next : Token) : List Piece :=
  if prev = .comma && layout = .pretty && next ≠ .closeParen && next ≠ .closeSquare then
    [.blank " "]
  else if prev.needsSeparator next then [.comment ""]
  else []

/-- Tokens in a row. -/
def tokens (layout : Layout) : List Token → List Piece
  | [] => []
  | [t] => [.token t]
  | prev :: next :: rest =>
    .token prev :: (layout.between prev next ++ layout.tokens (next :: rest))

/-- Values in a row. -/
def values (layout : Layout) (values : List Value) : List Piece :=
  layout.tokens (Value.flatten values)

end Layout

end DeepScope
