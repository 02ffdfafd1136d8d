import DeepScope.Encoding.Basic
import DeepScope.StyleSheet.Reader

/-!
Finding the encoding of a stylesheet. A byte order mark decides before a leading `@charset`
rule does, and that rule before the caller's hint; without any of them it is UTF-8.
-/

namespace DeepScope

/-- What decides the encoding. -/
inductive EncodingSource where
  | byteOrderMark (encoding : Encoding)
  | charsetRule (label : String)
  | hint (label : String)
  | none
deriving DecidableEq, Repr

namespace EncodingSource

/-- The bytes of a text in ASCII. -/
def asciiBytes (text : String) : List UInt8 :=
  text.toList.map fun c => UInt8.ofNat c.toNat

/-- The label of a `@charset "label";` rule at the very beginning. The closing
    quote is looked for among 1024 bytes. -/
def charsetLabel (bytes : List UInt8) : Option String :=
  let opening := asciiBytes "@charset \""
  let quote := UInt8.ofNat '"'.toNat
  if opening.isPrefixOf bytes then
    let rest := bytes.drop opening.length
    let label := rest.takeWhile (· != quote)
    if label.length < 1024 && label.all (· < 0x80) &&
        (asciiBytes "\";").isPrefixOf (rest.drop label.length) then
      some (String.ofList (Encoding.decodeBytes label))
    else Option.none
  else Option.none

/-- What decides the encoding of the bytes, and the bytes behind a byte order
    mark. -/
def ofBytes (bytes : List UInt8) (hinted : Option String) : EncodingSource × List UInt8 :=
  match bytes with
  | 0xEF :: 0xBB :: 0xBF :: rest => (.byteOrderMark .utf8, rest)
  | 0xFF :: 0xFE :: rest => (.byteOrderMark (.utf16 .little), rest)
  | 0xFE :: 0xFF :: rest => (.byteOrderMark (.utf16 .big), rest)
  | _ =>
    match charsetLabel bytes, hinted with
    | some label, _ => (.charsetRule label, bytes)
    | Option.none, some label => (.hint label, bytes)
    | Option.none, Option.none => (.none, bytes)

/-- The encoding that was decided on. A `@charset` rule that can be read at all
    was not written in UTF-16, so such a label means UTF-8. -/
def encoding : EncodingSource → Except EncodingError Encoding
  | byteOrderMark encoding => .ok encoding
  | charsetRule label =>
    (Encoding.ofLabel label).map fun
      | .utf16 _ => .utf8
      | other => other
  | hint label => Encoding.ofLabel label
  | none => .ok .utf8

end EncodingSource

/-- Decodes a stylesheet. The hint is a label that counts only if the bytes say
    nothing themselves. -/
def decode (bytes : List UInt8) (hint : Option String) : Except EncodingError String := do
  let (source, rest) := EncodingSource.ofBytes bytes hint
  let encoding ← source.encoding
  let text ← encoding.decode rest
  return String.ofList text

namespace StyleSheet

/-- Reads a stylesheet from bytes. The hint names the encoding of bytes that do
    not tell it themselves. -/
def parseBytesNoted (bytes : List UInt8) (hint : Option String) :
    List Note × Except Error StyleSheet :=
  match decode bytes hint with
  | .error reason => ([], .error (.encoding reason))
  | .ok text => parseNoted text

/-- Reads a stylesheet from bytes, without any notes. -/
def parseBytes (bytes : List UInt8) (hint : Option String) : Except Error StyleSheet :=
  (parseBytesNoted bytes hint).2

end StyleSheet

end DeepScope
