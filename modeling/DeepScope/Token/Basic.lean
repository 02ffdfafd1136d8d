import DeepScope.Position

namespace DeepScope

/-- Whether the name after a number sign could stand alone as an identifier. -/
inductive HashKind where
  | id
  | unrestricted
deriving DecidableEq, Repr

/-- Whether a number is written with digits alone, or with a fraction or an
    exponent. -/
inductive NumberKind where
  | integer
  | number
deriving DecidableEq, Repr

/-- A number, kept as it is written: no value is computed and nothing is
    reformatted. -/
structure Numeral where
  text : String
  kind : NumberKind
deriving DecidableEq, Repr

/-- A token. Names, strings and addresses hold the characters that they mean,
    with every escape resolved. -/
inductive Token where
  | ident (name : String)
  | function (name : String)
  | atKeyword (name : String)
  | hash (name : String) (kind : HashKind)
  | string (text : String)
  | url (address : String)
  | delim (char : Char)
  | number (value : Numeral)
  | percentage (value : Numeral)
  | dimension (value : Numeral) (unit : String)
  | whitespace
  | commentOpen
  | commentClose
  | colon
  | semicolon
  | comma
  | openSquare
  | closeSquare
  | openParen
  | closeParen
  | openBrace
  | closeBrace
  | eof
deriving DecidableEq, Repr

/-- A token with the place where it begins. -/
structure Located where
  token : Token
  position : Position
deriving DecidableEq, Repr

/-- The token that closes what an opening token begins. Whatever is not a
    parenthesis or a square bracket is closed by a brace. -/
def Token.closer : Token → Token
  | .openParen => .closeParen
  | .openSquare => .closeSquare
  | _ => .closeBrace

end DeepScope
