import DeepScope.Outcome
import DeepScope.Token.Escape
import DeepScope.Token.Fault

namespace DeepScope.QuotedString

/-- Either of the two characters that open and close a string. -/
def isQuote (c : Char) : Bool :=
  c = '"' || c = '\''

/-- Reads the rest of a string behind its opening quote, and counts the
    characters up to its closing quote. An escaped line feed continues the
    string on the next line and adds nothing to it. -/
def read (quote : Char) : List Char → Except LexicalError (List Char × Nat)
  | [] => .error .unclosedString
  | ['\\'] => .error .unclosedString
  | '\\' :: '\n' :: rest => do
    let (text, n) ← read quote rest
    return (text, n + 2)
  | '\\' :: d :: rest =>
    match Escape.read (d :: rest) with
    | none => .error .unclosedString
    | some (c, k) => do
      let (text, n) ← read quote ((d :: rest).drop k)
      return (c :: text, k + n + 1)
  | c :: rest =>
    if c = quote then .ok ([], 1)
    else if c = '\n' then .error .lineFeedInString
    else do
      let (text, n) ← read quote rest
      return (c :: text, n + 1)
termination_by text => text.length
decreasing_by
  · simp only [List.length_cons]
    omega
  · simp only [List.length_drop, List.length_cons]
    omega
  · simp

/-- A string ends where the text does, at the latest. -/
theorem read_le {quote : Char} {text chars : List Char} {n : Nat}
    (h : read quote text = .ok (chars, n)) : n ≤ text.length := by
  fun_induction read quote text generalizing chars n with
  | case1 => simp at h
  | case2 => simp at h
  | case3 tail ih =>
    obtain ⟨⟨front, m⟩, hread, hpure⟩ := exists_of_bind_eq_ok h
    cases hpure
    have := ih hread
    simp only [List.length_cons]
    omega
  | case4 => simp at h
  | case5 d tail _ c k hescape ih =>
    obtain ⟨⟨front, m⟩, hread, hpure⟩ := exists_of_bind_eq_ok h
    cases hpure
    have hk := Escape.read_le hescape
    have := ih hread
    simp only [List.length_drop, List.length_cons] at this hk ⊢
    omega
  | case6 => simp_all
  | case7 => simp at h
  | case8 c tail _ _ _ _ _ ih =>
    obtain ⟨⟨front, m⟩, hread, hpure⟩ := exists_of_bind_eq_ok h
    cases hpure
    have := ih hread
    simp only [List.length_cons]
    omega

end DeepScope.QuotedString
