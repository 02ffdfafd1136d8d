import DeepScope.Encoding.Error

namespace DeepScope.Utf16

/-- Which of the two bytes of a unit comes first. -/
inductive ByteOrder where
  | little
  | big
deriving DecidableEq, Repr

/-- The units that pairs of bytes spell. A last byte without a partner is left
    out. -/
def units (order : ByteOrder) : List UInt8 → List Nat
  | a :: b :: rest =>
    (match order with
      | .little => a.toNat + 256 * b.toNat
      | .big => 256 * a.toNat + b.toNat) :: units order rest
  | _ => []

/-- A unit that begins a pair. -/
def isHighSurrogate (unit : Nat) : Bool :=
  0xD800 ≤ unit && unit < 0xDC00

/-- A unit that ends a pair. -/
def isLowSurrogate (unit : Nat) : Bool :=
  0xDC00 ≤ unit && unit < 0xE000

/-- The characters that units spell. -/
def decodeUnits : List Nat → Except EncodingError (List Char)
  | [] => .ok []
  | unit :: rest =>
    if isHighSurrogate unit then
      match rest with
      | low :: after =>
        if isLowSurrogate low then
          let code := 0x10000 + 0x400 * (unit - 0xD800) + (low - 0xDC00)
          (decodeUnits after).map (Char.ofNat code :: ·)
        else .error (.loneSurrogate unit)
      | [] => .error (.loneSurrogate unit)
    else if isLowSurrogate unit then .error (.loneSurrogate unit)
    else (decodeUnits rest).map (Char.ofNat unit :: ·)

/-- Decodes bytes, of which there must be an even number. -/
def decode (order : ByteOrder) (bytes : List UInt8) : Except EncodingError (List Char) :=
  if bytes.length % 2 ≠ 0 then .error .oddUtf16 else decodeUnits (units order bytes)

end DeepScope.Utf16
