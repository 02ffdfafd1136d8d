import DeepScope.Encoding.Error

namespace DeepScope.Utf8

/-- Why no character can be read: bytes that begin none, or an early end. -/
inductive Malformed where
  | invalid (length : Nat)
  | truncated
deriving DecidableEq, Repr

/-- What the first byte of a longer character says about it: its share of the
    code, the number of bytes to come, and the bounds of the next one. -/
structure Lead where
  bits : Nat
  tails : Nat
  low : UInt8
  high : UInt8
deriving DecidableEq, Repr

/-- The first bytes of characters outside ASCII. The bounds keep out the longer
    spellings of a code, the surrogates, and codes beyond Unicode. -/
def lead (byte : UInt8) : Option Lead :=
  let n := byte.toNat
  if n < 0xC2 then none
  else if n < 0xE0 then some ⟨n - 0xC0, 1, 0x80, 0xBF⟩
  else if n = 0xE0 then some ⟨0, 2, 0xA0, 0xBF⟩
  else if n = 0xED then some ⟨0x0D, 2, 0x80, 0x9F⟩
  else if n < 0xF0 then some ⟨n - 0xE0, 2, 0x80, 0xBF⟩
  else if n = 0xF0 then some ⟨0, 3, 0x90, 0xBF⟩
  else if n < 0xF4 then some ⟨n - 0xF0, 3, 0x80, 0xBF⟩
  else if n = 0xF4 then some ⟨4, 3, 0x80, 0x8F⟩
  else none

/-- The code that the remaining bytes of a character complete, of which so many
    are `taken`. Only the first of them has bounds of its own. -/
def readTails (code taken : Nat) (low high : UInt8) : Nat → List UInt8 → Except Malformed Nat
  | 0, _ => .ok code
  | _ + 1, [] => .error .truncated
  | tails + 1, byte :: rest =>
    if low ≤ byte && byte ≤ high then
      readTails (64 * code + (byte.toNat - 0x80)) (taken + 1) 0x80 0xBF tails rest
    else .error (.invalid taken)

/-- The character that a byte begins, and the number of bytes that it takes
    behind that one. -/
def readChar (byte : UInt8) (rest : List UInt8) : Except Malformed (Char × Nat) :=
  if byte < 0x80 then .ok (Char.ofNat byte.toNat, 0)
  else
    match lead byte with
    | none => .error (.invalid 1)
    | some first =>
      (readTails first.bits 1 first.low first.high first.tails rest).map fun code =>
        (Char.ofNat code, first.tails)

/-- Decodes bytes that stand at an offset of the input. -/
def decodeFrom (offset : Nat) : List UInt8 → Except EncodingError (List Char)
  | [] => .ok []
  | byte :: rest =>
    match readChar byte rest with
    | .error (.invalid length) => .error (.invalidUtf8 length offset)
    | .error .truncated => .error (.truncatedUtf8 offset)
    | .ok (c, n) => (decodeFrom (offset + n + 1) (rest.drop n)).map (c :: ·)
termination_by bytes => bytes.length
decreasing_by simp only [List.length_drop, List.length_cons]; omega

/-- Decodes all of the bytes. -/
def decode (bytes : List UInt8) : Except EncodingError (List Char) :=
  decodeFrom 0 bytes

/-- The bytes of a text. -/
def encode (text : List Char) : List UInt8 :=
  text.flatMap String.utf8EncodeChar

end DeepScope.Utf8
