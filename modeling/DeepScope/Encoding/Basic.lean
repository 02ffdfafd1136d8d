import DeepScope.Encoding.Utf16
import DeepScope.Encoding.Utf8
import DeepScope.Text.Basic

namespace DeepScope

/-- A supported encoding. -/
inductive Encoding where
  | utf8
  | ascii
  | latin1
  | utf16 (order : Utf16.ByteOrder)
deriving DecidableEq, Repr

namespace Encoding

/-- The encoding with a label. Letter case, and white space around the label,
    make no difference. -/
def ofLabel (label : String) : Except EncodingError Encoding :=
  match asciiLower (trimWhiteSpace label) with
  | "utf-8" | "utf8" | "unicode-1-1-utf-8" => .ok .utf8
  | "us-ascii" | "ascii" => .ok .ascii
  | "iso-8859-1" | "iso8859-1" | "iso_8859-1" | "latin1" | "l1" => .ok .latin1
  | "utf-16le" | "utf-16" => .ok (.utf16 .little)
  | "utf-16be" => .ok (.utf16 .big)
  | _ => .error (.unsupported label)

/-- Each byte as the character with its number. -/
def decodeBytes (bytes : List UInt8) : List Char :=
  bytes.map fun byte => Char.ofNat byte.toNat

/-- Decodes ASCII, which stands at an offset of the input. -/
def decodeAscii (offset : Nat) : List UInt8 → Except EncodingError (List Char)
  | [] => .ok []
  | byte :: rest =>
    if byte < 0x80 then (decodeAscii (offset + 1) rest).map (Char.ofNat byte.toNat :: ·)
    else .error (.notAscii byte offset)

/-- Decodes bytes in an encoding. -/
def decode (encoding : Encoding) (bytes : List UInt8) : Except EncodingError (List Char) :=
  match encoding with
  | .utf8 => Utf8.decode bytes
  | .ascii => decodeAscii 0 bytes
  | .latin1 => .ok (decodeBytes bytes)
  | .utf16 order => Utf16.decode order bytes

end Encoding

end DeepScope
