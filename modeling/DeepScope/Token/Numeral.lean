import DeepScope.Text.Basic
import DeepScope.Token.Basic

namespace DeepScope.Numeral

/-- A plus or a minus sign. -/
def isSign (c : Char) : Bool :=
  c = '+' || c = '-'

/-- The sign that the text begins with, if any. -/
def readSign : List Char → List Char × List Char
  | [] => ([], [])
  | c :: rest => if isSign c then ([c], rest) else ([], c :: rest)

/-- Whether the text begins with a digit, or with a point and a digit. -/
def startsUnsigned : List Char → Bool
  | '.' :: d :: _ => d.isDigit
  | c :: _ => c.isDigit
  | [] => false

/-- Whether the text begins with a number, signed or not. -/
def starts (text : List Char) : Bool :=
  startsUnsigned (readSign text).2

/-- The run of digits that the text begins with, which may be empty. -/
def readDigits (text : List Char) : List Char × List Char :=
  (text.takeWhile Char.isDigit, text.dropWhile Char.isDigit)

/-- A point and the digits behind it; a point without digits is left alone. -/
def readFraction : List Char → List Char × List Char
  | '.' :: d :: rest =>
    if d.isDigit then
      let (digits, after) := readDigits rest
      ('.' :: d :: digits, after)
    else ([], '.' :: d :: rest)
  | text => ([], text)

/-- The letter of an exponent, its sign and its digits; left alone unless there
    is at least one digit. -/
def readExponent : List Char → List Char × List Char
  | e :: rest =>
    let (sign, afterSign) := readSign rest
    let (digits, after) := readDigits afterSign
    if (e = 'e' || e = 'E') && !digits.isEmpty then (e :: (sign ++ digits), after)
    else ([], e :: rest)
  | [] => ([], [])

/-- Reads the longest number that the text begins with. -/
def read (text : List Char) : Numeral × List Char :=
  let (sign, afterSign) := readSign text
  let (whole, afterWhole) := readDigits afterSign
  let (fraction, afterFraction) := readFraction afterWhole
  let (exponent, rest) := readExponent afterFraction
  let kind := if fraction.isEmpty && exponent.isEmpty then NumberKind.integer else .number
  (⟨String.ofList (sign ++ (whole ++ (fraction ++ exponent))), kind⟩, rest)

theorem readSign_append (text : List Char) : (readSign text).1 ++ (readSign text).2 = text := by
  unfold readSign
  split
  · rfl
  · split <;> rfl

theorem readDigits_append (text : List Char) :
    (readDigits text).1 ++ (readDigits text).2 = text := by
  simp [readDigits]

theorem readFraction_append (text : List Char) :
    (readFraction text).1 ++ (readFraction text).2 = text := by
  unfold readFraction
  split
  · split
    · simp [readDigits_append]
    · rfl
  · rfl

theorem readExponent_append (text : List Char) :
    (readExponent text).1 ++ (readExponent text).2 = text := by
  unfold readExponent
  split
  · next e rest =>
    dsimp only
    split
    · simp [readDigits_append, readSign_append]
    · rfl
  · rfl

/-- The written number and the rest together are the text. -/
theorem read_append (text : List Char) :
    (read text).1.text.toList ++ (read text).2 = text := by
  simp only [read, String.toList_ofList, List.append_assoc]
  rw [readExponent_append, readFraction_append, readDigits_append, readSign_append]

/-- A text that begins with an unsigned number has digits up front, or a
    fraction. -/
theorem readFraction_ne_nil {text : List Char} (h : startsUnsigned text)
    (hdigits : (readDigits text).1 = []) : (readFraction (readDigits text).2).1 ≠ [] := by
  have hrest : (readDigits text).2 = text := by
    simpa [hdigits] using readDigits_append text
  rw [hrest]
  unfold startsUnsigned at h
  split at h
  · simp [readFraction, h]
  · simp [readDigits, h] at hdigits
  · simp at h

/-- A number that the text does begin with takes at least one character. -/
theorem text_length_pos {text : List Char} (h : starts text) : 0 < (read text).1.text.length := by
  rw [← String.length_toList]
  refine List.length_pos_iff.2 fun hnil => ?_
  simp only [read, String.toList_ofList, List.append_eq_nil_iff] at hnil
  exact readFraction_ne_nil h hnil.2.1 hnil.2.2.1

end DeepScope.Numeral
