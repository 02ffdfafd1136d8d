import DeepScope.Text.Basic
import DeepScope.Token.Basic

namespace DeepScope

namespace Escape

/-- A character by its code. The blank behind it ends the digits. -/
def hex (c : Char) : List Char :=
  '\\' :: (Quoted.hex c.toNat ++ [' '])

end Escape

namespace Name

/-- One character of a name. -/
def writeChar (c : Char) : List Char :=
  if c = '\x00' then [replacement]
  else if isAsciiControl c then Escape.hex c
  else if isNameChar c then [c]
  else ['\\', c]

/-- A name that may begin with any character. -/
def writeLoose (name : List Char) : List Char :=
  name.flatMap writeChar

/-- A name that must be an identifier: digits at its beginning are written by
    their codes, and so a lone hyphen is escaped. -/
def write : List Char → List Char
  | ['-'] => ['\\', '-']
  | '-' :: c :: rest =>
    if c.isDigit then '-' :: (Escape.hex c ++ writeLoose rest)
    else '-' :: (writeChar c ++ writeLoose rest)
  | c :: rest =>
    if c.isDigit then Escape.hex c ++ writeLoose rest
    else writeChar c ++ writeLoose rest
  | [] => []

/-- Whether a unit would continue the number before it as an exponent. -/
def isExponent : List Char → Bool
  | e :: c :: d :: _ =>
    (e = 'e' || e = 'E') && (c.isDigit || ((c = '+' || c = '-') && d.isDigit))
  | [e, c] => (e = 'e' || e = 'E') && c.isDigit
  | _ => false

/-- The unit of a dimension. -/
def writeUnit (unit : List Char) : List Char :=
  match unit with
  | e :: rest => if isExponent unit then Escape.hex e ++ writeLoose rest else write unit
  | [] => []

end Name

namespace QuotedString

/-- One character of a string. -/
def writeChar (c : Char) : List Char :=
  if c = '\x00' then [replacement]
  else if isAsciiControl c then Escape.hex c
  else if c = '"' || c = '\\' then ['\\', c]
  else [c]

/-- A string in double quotes. -/
def write (text : List Char) : List Char :=
  '"' :: (text.flatMap writeChar ++ ['"'])

end QuotedString

namespace Url

/-- One character of an address without quotes. -/
def writeChar (c : Char) : List Char :=
  if c = '\x00' then [replacement]
  else if isWhiteSpace c || isControl c then Escape.hex c
  else if c ∈ ['"', '\'', '(', ')', '\\'] then ['\\', c]
  else [c]

/-- An address without quotes. -/
def write (address : List Char) : List Char :=
  address.flatMap writeChar

end Url

namespace Token

/-- The characters of a token. -/
def chars : Token → List Char
  | ident name => Name.write name.toList
  | function name => Name.write name.toList ++ ['(']
  | atKeyword name => '@' :: Name.write name.toList
  | hash name .id => '#' :: Name.write name.toList
  | hash name .unrestricted => '#' :: Name.writeLoose name.toList
  | string text => QuotedString.write text.toList
  | url address => "url(".toList ++ Url.write address.toList ++ [')']
  | delim c => [c]
  | number value => value.text.toList
  | percentage value => value.text.toList ++ ['%']
  | dimension value unit => value.text.toList ++ Name.writeUnit unit.toList
  | whitespace => [' ']
  | commentOpen => "<!--".toList
  | commentClose => "-->".toList
  | colon => [':']
  | semicolon => [';']
  | comma => [',']
  | openSquare => ['[']
  | closeSquare => [']']
  | openParen => ['(']
  | closeParen => [')']
  | openBrace => ['{']
  | closeBrace => ['}']
  | eof => []

/-- The text of a token. -/
def text (token : Token) : String :=
  String.ofList token.chars

end Token

end DeepScope
