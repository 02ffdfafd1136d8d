namespace DeepScope

/-- A blank separates tokens. Carriage returns and form feeds never reach the
    reader: they are folded into line feeds first. -/
def isBlank (c : Char) : Bool :=
  c = '\n' || c = '\t' || c = ' '

/-- A character that may open a name: a letter, an underscore, or anything
    outside ASCII. -/
def isNameStart (c : Char) : Bool :=
  c.isAlpha || 0x80 ≤ c.toNat || c = '_'

/-- A character that may stand inside a name. -/
def isNameChar (c : Char) : Bool :=
  isNameStart c || c.isDigit || c = '-'

/-- A hexadecimal digit, in either letter case. -/
def isHexDigit (c : Char) : Bool :=
  c.isDigit || ('a' ≤ c && c ≤ 'f') || ('A' ≤ c && c ≤ 'F')

/-- The value of a hexadecimal digit. -/
def hexValue (c : Char) : Nat :=
  if c.isDigit then c.toNat - '0'.toNat
  else if 'a' ≤ c then c.toNat - 'a'.toNat + 10
  else c.toNat - 'A'.toNat + 10

/-- A control character of ASCII other than the null character. These are
    written by their code in names and strings. -/
def isAsciiControl (c : Char) : Bool :=
  (1 ≤ c.toNat && c.toNat ≤ 0x1F) || c.toNat = 0x7F

/-- A control character of Unicode: category `Cc`. -/
def isControl (c : Char) : Bool :=
  c.toNat ≤ 0x1F || (0x7F ≤ c.toNat && c.toNat ≤ 0x9F)

/-- A character that no unquoted address may hold, escaped or not at all. -/
def isNonPrintable (c : Char) : Bool :=
  c.toNat ≤ 0x08 || c.toNat = 0x0B || (0x0E ≤ c.toNat && c.toNat ≤ 0x1F) || c.toNat = 0x7F

/-- The replacement character, which stands for a character that a stylesheet
    cannot hold. -/
def replacement : Char := '\uFFFD'

/-- Lower case for the letters of ASCII; every other character is kept. -/
def asciiLower (text : String) : String :=
  String.ofList (text.toList.map Char.toLower)

/-- The characters with the Unicode property `White_Space`. -/
def isWhiteSpace (c : Char) : Bool :=
  let n := c.toNat
  (0x09 ≤ n && n ≤ 0x0D) || n = 0x20 || n = 0x85 || n = 0xA0 || n = 0x1680 ||
    (0x2000 ≤ n && n ≤ 0x200A) || n = 0x2028 || n = 0x2029 || n = 0x202F || n = 0x205F || n = 0x3000

/-- The text without the white space at either end. -/
def trimWhiteSpace (text : String) : String :=
  String.ofList ((text.toList.dropWhile isWhiteSpace).reverse.dropWhile isWhiteSpace).reverse

/-- Whether a text ends in another one. -/
def endsWith (text ending : String) : Bool :=
  ending.toList.isSuffixOf text.toList

/-- What stands before an ending, if the text has it. -/
def dropEnding (text ending : String) : Option String :=
  if endsWith text ending then
    some (String.ofList (text.toList.take (text.toList.length - ending.toList.length)))
  else none

/-- The pieces of a list between its separators, in order. There is always at
    least one piece, and a piece may be empty. -/
def splitOn {α : Type} (separates : α → Bool) : List α → List (List α)
  | [] => [[]]
  | a :: rest =>
    if separates a then [] :: splitOn separates rest
    else
      match splitOn separates rest with
      | [] => [[a]]
      | piece :: pieces => (a :: piece) :: pieces

namespace Quoted

/-- The hexadecimal digits of a number, in lower case and without padding. -/
def hex (n : Nat) : List Char :=
  Nat.toDigits 16 n

/-- One character inside the given kind of quotes. -/
def escape (quote c : Char) : List Char :=
  if c = quote || c = '\\' then ['\\', c]
  else if c = '\n' then ['\\', 'n']
  else if c = '\r' then ['\\', 'r']
  else if c = '\t' then ['\\', 't']
  else if c = '\x00' then ['\\', '0']
  else if isControl c then ['\\', 'u', '\x7b'] ++ hex c.toNat ++ ['\x7d']
  else [c]

/-- A text in double quotes. -/
def ofString (text : String) : String :=
  String.ofList ('"' :: (text.toList.flatMap (escape '"') ++ ['"']))

/-- A character in single quotes. -/
def ofChar (c : Char) : String :=
  String.ofList ('\'' :: (escape '\'' c ++ ['\'']))

end Quoted

end DeepScope
