import DeepScope.Text.Basic

namespace DeepScope.Escape

/-- Whether a backslash before this text begins an escape. Only a line feed
    prevents that; a backslash that ends the text begins an escape which then
    cannot be read. -/
def follows (rest : List Char) : Bool :=
  rest.head? ≠ some '\n'

/-- The character with the code that hexadecimal digits spell. Zero, the
    surrogates and whatever lies beyond Unicode give the replacement
    character. -/
def charOfHex (digits : List Char) : Char :=
  let c := Char.ofNat (digits.foldl (fun value d => 16 * value + hexValue d) 0)
  if c = '\x00' then replacement else c

/-- Reads one escaped character and counts what it takes: up to six hexadecimal
    digits and one blank behind them, or any other character for itself. Fails
    only at the end of the text. -/
def read : List Char → Option (Char × Nat)
  | [] => none
  | c :: rest =>
    if isHexDigit c then
      let digits := c :: (rest.take 5).takeWhile isHexDigit
      let blank := ((c :: rest).drop digits.length).head?.any isBlank
      some (charOfHex digits, digits.length + if blank then 1 else 0)
    else
      some (c, 1)

/-- An escape ends where the text does, at the latest. -/
theorem read_le {text : List Char} {c : Char} {n : Nat} (h : read text = some (c, n)) :
    n ≤ text.length := by
  unfold read at h
  split at h
  · simp at h
  · next d rest =>
    split at h
    · simp only [Option.some.injEq, Prod.mk.injEq] at h
      have hrun : ((rest.take 5).takeWhile isHexDigit).length ≤ rest.length :=
        Nat.le_trans (List.takeWhile_sublist isHexDigit).length_le
          (List.take_sublist 5 rest).length_le
      obtain ⟨-, rfl⟩ := h
      split
      · next hblank =>
        have hne : (d :: rest).drop (d :: (rest.take 5).takeWhile isHexDigit).length ≠ [] := by
          intro hnil
          rw [hnil] at hblank
          simp at hblank
        have hpos := List.length_pos_iff.2 hne
        simp only [List.length_drop, List.length_cons] at hpos ⊢
        omega
      · simp only [List.length_cons]
        omega
    · simp only [Option.some.injEq, Prod.mk.injEq] at h
      simp only [List.length_cons]
      omega

end DeepScope.Escape
