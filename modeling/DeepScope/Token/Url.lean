import DeepScope.Token.Escape
import DeepScope.Token.Fault
import DeepScope.Token.QuotedString

namespace DeepScope.Url

/-- The number of blanks that the text begins with. -/
def leadingBlanks (text : List Char) : Nat :=
  (text.takeWhile isBlank).length

/-- Whether a quoted address follows, with blanks before it or not. The name
    and the parenthesis are then an ordinary function. -/
def isQuoted (text : List Char) : Bool :=
  (text.dropWhile isBlank).head?.any QuotedString.isQuote

/-- What may follow a blank inside an address: more blanks, and its end. Counts
    the characters up to there. -/
def readEnd (start : List Char) (text : List Char) : Except Fault Nat :=
  match text.dropWhile isBlank with
  | [] => .error ⟨.unclosedUrl, start⟩
  | ')' :: _ => .ok (leadingBlanks text + 1)
  | rest => .error ⟨.blankInUrl, rest⟩

/-- Reads the characters of an address, and counts what it takes up to its
    parenthesis. The text from the name `url` on is passed along to say where an
    address without end began. -/
def readAddress (start : List Char) : List Char → Except Fault (List Char × Nat)
  | [] => .error ⟨.unclosedUrl, start⟩
  | c :: rest =>
    if c = ')' then .ok ([], 1)
    else if QuotedString.isQuote c || c = '(' || isNonPrintable c then
      .error ⟨.characterInUrl, c :: rest⟩
    else if c = '\\' then
      if Escape.follows rest then
        match Escape.read rest with
        | none => .error ⟨.escapeAtEnd, []⟩
        | some (d, k) => do
          let (address, n) ← readAddress start (rest.drop k)
          return (d :: address, k + n + 1)
      else .error ⟨.escapeInUrl, c :: rest⟩
    else if isBlank c then do
      let n ← readEnd start rest
      return ([], n + 1)
    else do
      let (address, n) ← readAddress start rest
      return (c :: address, n + 1)
termination_by text => text.length
decreasing_by
  · simp only [List.length_drop, List.length_cons]
    omega
  · simp

/-- Reads an address behind `url(`: blanks before it are no part of it. -/
def read (start : List Char) (text : List Char) : Except Fault (List Char × Nat) := do
  let (address, n) ← readAddress start (text.dropWhile isBlank)
  return (address, leadingBlanks text + n)

theorem leadingBlanks_add (text : List Char) :
    leadingBlanks text + (text.dropWhile isBlank).length = text.length := by
  rw [leadingBlanks, ← List.length_append, List.takeWhile_append_dropWhile]

theorem readEnd_le {start text : List Char} {n : Nat} (h : readEnd start text = .ok n) :
    n ≤ text.length := by
  have hadd := leadingBlanks_add text
  unfold readEnd at h
  split at h
  · simp at h
  · next heq =>
    rw [heq, List.length_cons] at hadd
    cases h
    omega
  · simp at h

theorem readAddress_le {start text chars : List Char} {n : Nat}
    (h : readAddress start text = .ok (chars, n)) : n ≤ text.length := by
  fun_induction readAddress start text generalizing chars n with
  | case1 => simp at h
  | case2 => simp_all
  | case3 => simp at h
  | case4 => simp at h
  | case5 _ _ _ _ hescape _ _ ih =>
    obtain ⟨⟨front, m⟩, hread, hpure⟩ := exists_of_bind_eq_ok h
    cases hpure
    have hk := Escape.read_le hescape
    have := ih hread
    simp only [List.length_drop, List.length_cons] at this ⊢
    omega
  | case6 => simp at h
  | case7 c tail _ _ _ _ =>
    obtain ⟨m, hread, hpure⟩ := exists_of_bind_eq_ok h
    cases hpure
    have := readEnd_le hread
    simp only [List.length_cons]
    omega
  | case8 c tail _ _ _ _ ih =>
    obtain ⟨⟨front, m⟩, hread, hpure⟩ := exists_of_bind_eq_ok h
    cases hpure
    have := ih hread
    simp only [List.length_cons]
    omega

/-- An address ends where the text does, at the latest. -/
theorem read_le {start text chars : List Char} {n : Nat} (h : read start text = .ok (chars, n)) :
    n ≤ text.length := by
  obtain ⟨⟨address, m⟩, hread, hpure⟩ := exists_of_bind_eq_ok h
  cases hpure
  have hle := readAddress_le hread
  have hadd := leadingBlanks_add text
  omega

end DeepScope.Url
