import DeepScope.Encoding.Basic
import DeepScope.Outcome

namespace DeepScope

/-- A code that is not a surrogate is that of a character. -/
theorem toNat_charOfNat {code : Nat} (h : code.isValidChar) : (Char.ofNat code).toNat = code := by
  rw [Char.ofNat, dif_pos h]
  rfl

/-- The codes of characters leave out the surrogates and end at U+10FFFF. -/
theorem isValidChar_toNat (c : Char) : c.toNat.isValidChar :=
  c.valid

theorem charOfNat_eq_iff {code : Nat} {c : Char} (h : code.isValidChar) :
    Char.ofNat code = c ↔ c.toNat = code := by
  constructor
  · rintro rfl
    exact toNat_charOfNat h
  · rintro rfl
    exact Char.ofNat_toNat c

namespace Encoding

/-- The codes of the characters as one byte each, if all of them are below a
    limit. -/
def encodeBelow (limit : Nat) (text : List Char) : Option (List UInt8) :=
  if text.all fun c => c.toNat < limit then some (text.map fun c => UInt8.ofNat c.toNat) else none

theorem encodeBelow_eq_some_iff {limit : Nat} {text : List Char} {bytes : List UInt8} :
    encodeBelow limit text = some bytes ↔
      (∀ c ∈ text, c.toNat < limit) ∧ bytes = text.map fun c => UInt8.ofNat c.toNat := by
  have hall : (text.all fun c => c.toNat < limit) = true ↔ ∀ c ∈ text, c.toNat < limit := by
    simp only [List.all_eq_true, decide_eq_true_eq]
  unfold encodeBelow
  split
  · next hbelow => rw [Option.some.injEq, and_iff_right (hall.1 hbelow), eq_comm]
  · next hbelow => exact iff_of_false nofun fun h => hbelow (hall.2 h.1)

/-- A byte is that of the character with its number. -/
theorem charOfNat_byte_eq_iff {byte : UInt8} {c : Char} :
    Char.ofNat byte.toNat = c ↔ c.toNat < 0x100 ∧ byte = UInt8.ofNat c.toNat := by
  have hbyte := byte.toNat_lt
  rw [charOfNat_eq_iff (.inl (by omega)), ← UInt8.toNat_inj, UInt8.toNat_ofNat']
  omega

theorem decodeBytes_eq_iff {bytes : List UInt8} {text : List Char} :
    decodeBytes bytes = text ↔ encodeBelow 0x100 text = some bytes := by
  rw [encodeBelow_eq_some_iff]
  induction bytes generalizing text with
  | nil => cases text <;> simp [decodeBytes]
  | cons byte bytes ih =>
    cases text with
    | nil => simp [decodeBytes]
    | cons c text =>
      have hrest := @ih text
      rw [decodeBytes] at hrest ⊢
      rw [List.map_cons, List.cons.injEq, charOfNat_byte_eq_iff, hrest, List.forall_mem_cons,
        List.map_cons, List.cons.injEq]
      exact and_and_and_comm

/-- ASCII is decoded like any other byte by byte, but ends at the first byte
    that is not of it. -/
theorem decodeAscii_eq_ok_iff {offset : Nat} {bytes : List UInt8} {text : List Char} :
    decodeAscii offset bytes = .ok text ↔
      (∀ byte ∈ bytes, byte.toNat < 0x80) ∧ decodeBytes bytes = text := by
  induction bytes generalizing offset text with
  | nil => simp [decodeAscii, decodeBytes]
  | cons byte bytes ih =>
    rw [decodeAscii, List.forall_mem_cons]
    split
    · next hbyte =>
      have hbyte : byte.toNat < 0x80 := UInt8.lt_iff_toNat_lt.1 hbyte
      constructor
      · intro h
        obtain ⟨rest, hrest, rfl⟩ := exists_of_map_eq_ok h
        obtain ⟨hbelow, rfl⟩ := ih.1 hrest
        exact ⟨⟨hbyte, hbelow⟩, rfl⟩
      · rintro ⟨⟨-, hbelow⟩, rfl⟩
        rw [ih.2 ⟨hbelow, rfl⟩]
        rfl
    · next hbyte =>
      exact iff_of_false nofun fun h => hbyte (UInt8.lt_iff_toNat_lt.2 h.1.1)

theorem decodeAscii_eq_ok_iff_encodeBelow {offset : Nat} {bytes : List UInt8} {text : List Char} :
    decodeAscii offset bytes = .ok text ↔ encodeBelow 0x80 text = some bytes := by
  rw [decodeAscii_eq_ok_iff, decodeBytes_eq_iff, encodeBelow_eq_some_iff, encodeBelow_eq_some_iff]
  constructor
  · rintro ⟨hbytes, hcodes, rfl⟩
    refine ⟨fun c hc => ?_, rfl⟩
    have hbyte := hbytes _ (List.mem_map_of_mem hc)
    have hcode := hcodes c hc
    rw [UInt8.toNat_ofNat'] at hbyte
    omega
  · rintro ⟨hcodes, rfl⟩
    refine ⟨fun byte hbyte => ?_, fun c hc => ?_, rfl⟩
    · obtain ⟨c, hc, rfl⟩ := List.mem_map.1 hbyte
      have hcode := hcodes c hc
      rw [UInt8.toNat_ofNat']
      omega
    · have hcode := hcodes c hc
      omega

end Encoding

end DeepScope
