import DeepScope.Token.Escape
import DeepScope.Token.Writer

namespace DeepScope

theorem isHexDigit_digitChar {n : Nat} (h : n < 16) : isHexDigit n.digitChar = true := by
  revert n
  decide

theorem hexValue_digitChar {n : Nat} (h : n < 16) : hexValue n.digitChar = n := by
  revert n
  decide

namespace Escape

theorem isHexDigit_of_mem_hex {n : Nat} {d : Char} (h : d ∈ Quoted.hex n) :
    isHexDigit d = true := by
  unfold Quoted.hex at h
  induction n using Nat.strongRecOn with
  | ind n ih =>
    rw [Nat.toDigits_eq_if (by omega)] at h
    split at h
    · next hlt =>
      rw [List.mem_singleton.1 h]
      exact isHexDigit_digitChar hlt
    · rw [List.mem_append, List.mem_singleton] at h
      rcases h with h | rfl
      · exact ih (n / 16) (by omega) h
      · exact isHexDigit_digitChar (Nat.mod_lt n (by omega))

/-- The digits of a number spell that number. -/
theorem foldl_hex (n : Nat) :
    (Quoted.hex n).foldl (fun value d => 16 * value + hexValue d) 0 = n := by
  unfold Quoted.hex
  induction n using Nat.strongRecOn with
  | ind n ih =>
    rw [Nat.toDigits_eq_if (by omega)]
    split
    · next hlt => simp [hexValue_digitChar hlt]
    · rw [List.foldl_append, ih (n / 16) (by omega), List.foldl_cons, List.foldl_nil,
        hexValue_digitChar (Nat.mod_lt n (by omega))]
      omega

theorem charOfHex_hex {c : Char} (h : c ≠ '\x00') : charOfHex (Quoted.hex c.toNat) = c := by
  unfold charOfHex
  rw [foldl_hex, Char.ofNat_toNat]
  exact if_neg h

/-- Six digits are enough for every character. -/
theorem length_hex_le (c : Char) : (Quoted.hex c.toNat).length ≤ 6 := by
  have hvalid := c.valid
  rw [Quoted.hex, Nat.length_toDigits_le_iff (by omega) (by omega)]
  unfold UInt32.isValidChar Nat.isValidChar at hvalid
  unfold Char.toNat
  omega

/-- The blank behind a code ends it, so whatever follows is left alone. -/
theorem read_hex {c : Char} (h : c ≠ '\x00') (rest : List Char) :
    read (Quoted.hex c.toNat ++ ' ' :: rest) = some (c, (Quoted.hex c.toNat).length + 1) := by
  have hlen := length_hex_le c
  have hchar := charOfHex_hex h
  have hmem : ∀ d ∈ Quoted.hex c.toNat, isHexDigit d = true := fun d => isHexDigit_of_mem_hex
  cases hdigits : Quoted.hex c.toNat with
  | nil => exact absurd hdigits Nat.toDigits_ne_nil
  | cons d ds =>
    rw [hdigits] at hlen hchar hmem
    simp only [List.length_cons] at hlen
    have hrun : ((ds ++ ' ' :: rest).take 5).takeWhile isHexDigit = ds := by
      rw [List.take_append, List.take_of_length_le (by omega),
        List.takeWhile_append_of_pos (fun x hx => hmem x (List.mem_cons_of_mem d hx))]
      cases 5 - ds.length with
      | zero => simp
      | succ k => simp [show isHexDigit ' ' = false by decide]
    rw [List.cons_append, read, if_pos (hmem d List.mem_cons_self)]
    simp [hrun, hchar, isBlank]

/-- The written code of a character is an escape of that character, and no part
    of what stands behind it is taken. -/
theorem hex_append {c : Char} (h : c ≠ '\x00') (rest : List Char) :
    ∃ d text n, hex c ++ rest = '\\' :: d :: text ∧ d ≠ '\n' ∧ read (d :: text) = some (c, n) ∧
      (d :: text).drop n = rest ∧ (hex c).length = n + 1 := by
  have hread := read_hex h rest
  have hmem : ∀ d ∈ Quoted.hex c.toNat, isHexDigit d = true := fun d => isHexDigit_of_mem_hex
  cases hdigits : Quoted.hex c.toNat with
  | nil => exact absurd hdigits Nat.toDigits_ne_nil
  | cons d ds =>
    rw [hdigits] at hread hmem
    refine ⟨d, ds ++ ' ' :: rest, ds.length + 2, ?_, ?_, hread, ?_, ?_⟩
    · simp [hex, hdigits]
    · rintro rfl
      exact absurd (hmem '\n' List.mem_cons_self) (by decide)
    · simp
    · simp [hex, hdigits]

end Escape

end DeepScope
