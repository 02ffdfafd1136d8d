import DeepScope.Text.Basic

namespace DeepScope

/-- The reasons why bytes are no text. Offsets count the bytes behind a byte
    order mark. -/
inductive EncodingError where
  | unsupported (label : String)
  | notAscii (byte : UInt8) (offset : Nat)
  /-- Bytes that begin no character, at an offset. -/
  | invalidUtf8 (length offset : Nat)
  /-- A character that the end of the input cuts short. -/
  | truncatedUtf8 (offset : Nat)
  | oddUtf16
  | loneSurrogate (unit : Nat)
deriving DecidableEq, Repr

namespace EncodingError

/-- A byte as two hexadecimal digits. -/
def hexByte (byte : UInt8) : List Char :=
  if byte < 16 then '0' :: Quoted.hex byte.toNat else Quoted.hex byte.toNat

/-- The wording of each reason. -/
def message : EncodingError → String
  | unsupported label => "unsupported encoding \"" ++ label ++ "\""
  | notAscii byte offset =>
    "non-ASCII byte 0x" ++ String.ofList (hexByte byte) ++ " at offset " ++ toString offset
  | invalidUtf8 length offset =>
    "invalid UTF-8: invalid utf-8 sequence of " ++ toString length ++ " bytes from index " ++
      toString offset
  | truncatedUtf8 offset =>
    "invalid UTF-8: incomplete utf-8 byte sequence from index " ++ toString offset
  | oddUtf16 => "truncated UTF-16 input"
  | loneSurrogate unit =>
    "invalid UTF-16: unpaired surrogate found: " ++ String.ofList (Quoted.hex unit)

end EncodingError

end DeepScope
