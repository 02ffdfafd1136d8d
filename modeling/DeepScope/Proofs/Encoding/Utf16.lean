import DeepScope.Encoding.Utf16
import DeepScope.Outcome
import DeepScope.Proofs.Encoding.Code

namespace DeepScope.Utf16

/-- The units of a character: its code, or a pair of surrogates. -/
def charUnits (c : Char) : List Nat :=
  if c.toNat < 0x10000 then [c.toNat]
  else [0xD800 + (c.toNat - 0x10000) / 0x400, 0xDC00 + (c.toNat - 0x10000) % 0x400]

/-- The units of a text. -/
def encodeUnits (text : List Char) : List Nat :=
  text.flatMap charUnits

/-- The two bytes of a unit. -/
def unitBytes (order : ByteOrder) (unit : Nat) : List UInt8 :=
  match order with
  | .little => [UInt8.ofNat unit, UInt8.ofNat (unit / 256)]
  | .big => [UInt8.ofNat (unit / 256), UInt8.ofNat unit]

/-- The bytes of a text. -/
def encode (order : ByteOrder) (text : List Char) : List UInt8 :=
  (encodeUnits text).flatMap (unitBytes order)

variable {order : ByteOrder}

theorem length_unitBytes (unit : Nat) : (unitBytes order unit).length = 2 := by
  cases order <;> rfl

theorem units_unitBytes_append {unit : Nat} (h : unit < 0x10000) (rest : List UInt8) :
    units order (unitBytes order unit ++ rest) = unit :: units order rest := by
  cases order <;>
    · simp only [unitBytes, List.cons_append, List.nil_append, units, UInt8.toNat_ofNat',
        List.cons.injEq, and_true]
      omega

/-- Two bytes are those of the unit that they spell. -/
theorem units_cons_cons (a b : UInt8) (rest : List UInt8) :
    ∃ unit, unit < 0x10000 ∧ units order (a :: b :: rest) = unit :: units order rest ∧
      unitBytes order unit = [a, b] := by
  have ha := a.toNat_lt
  have hb := b.toNat_lt
  cases order
  · refine ⟨a.toNat + 256 * b.toNat, by omega, rfl, ?_⟩
    simp only [unitBytes, List.cons.injEq, ← UInt8.toNat_inj, UInt8.toNat_ofNat', and_true]
    omega
  · refine ⟨256 * a.toNat + b.toNat, by omega, rfl, ?_⟩
    simp only [unitBytes, List.cons.injEq, ← UInt8.toNat_inj, UInt8.toNat_ofNat', and_true]
    omega

theorem units_flatMap_unitBytes {codes : List Nat} (h : ∀ unit ∈ codes, unit < 0x10000) :
    units order (codes.flatMap (unitBytes order)) = codes := by
  induction codes with
  | nil => rfl
  | cons unit codes ih =>
    rw [List.flatMap_cons, units_unitBytes_append (h unit List.mem_cons_self),
      ih fun u hu => h u (List.mem_cons_of_mem unit hu)]

/-- An even number of bytes is that of the units that they spell. -/
theorem flatMap_units {bytes : List UInt8} (h : bytes.length % 2 = 0) :
    (∀ unit ∈ units order bytes, unit < 0x10000) ∧
      (units order bytes).flatMap (unitBytes order) = bytes := by
  match bytes with
  | [] => exact ⟨nofun, rfl⟩
  | [_] => cases h
  | a :: b :: rest =>
    obtain ⟨unit, hlt, hunits, hbytes⟩ := @units_cons_cons order a b rest
    obtain ⟨hrest, heq⟩ := @flatMap_units rest (by
      simp only [List.length_cons] at h
      omega)
    rw [hunits, List.flatMap_cons, heq, hbytes]
    exact ⟨List.forall_mem_cons.2 ⟨hlt, hrest⟩, rfl⟩

/-- The units of a character are below the end of two bytes. -/
theorem lt_of_mem_charUnits {c : Char} {unit : Nat} (h : unit ∈ charUnits c) : unit < 0x10000 := by
  have hvalid := isValidChar_toNat c
  unfold charUnits at h
  split at h <;> simp only [List.mem_cons, List.not_mem_nil, or_false] at h <;> omega

theorem encodeUnits_cons (c : Char) (text : List Char) :
    encodeUnits (c :: text) = charUnits c ++ encodeUnits text := rfl

theorem isHighSurrogate_iff {unit : Nat} :
    isHighSurrogate unit = true ↔ 0xD800 ≤ unit ∧ unit < 0xDC00 := by
  simp [isHighSurrogate]

theorem isLowSurrogate_iff {unit : Nat} :
    isLowSurrogate unit = true ↔ 0xDC00 ≤ unit ∧ unit < 0xE000 := by
  simp [isLowSurrogate]

/-- A pair of surrogates is that of the character that it is decoded as. -/
theorem charUnits_eq_pair_iff {c : Char} {high low : Nat} :
    charUnits c = [high, low] ↔
      (0xD800 ≤ high ∧ high < 0xDC00) ∧ (0xDC00 ≤ low ∧ low < 0xE000) ∧
        c.toNat = 0x10000 + 0x400 * (high - 0xD800) + (low - 0xDC00) := by
  have hvalid := isValidChar_toNat c
  unfold charUnits
  split <;> simp only [List.cons.injEq, reduceCtorEq, and_true, and_false, false_iff] <;> omega

/-- A text begins with a unit that is a character by itself, or with a pair of
    surrogates. -/
theorem encodeUnits_eq_cons {text : List Char} {unit : Nat} {rest : List Nat}
    (h : unit :: rest = encodeUnits text) :
    ∃ c others, text = c :: others ∧
      (unit.isValidChar ∧ c.toNat = unit ∧ rest = encodeUnits others ∨
        ∃ low, rest = low :: encodeUnits others ∧
          (0xD800 ≤ unit ∧ unit < 0xDC00) ∧ (0xDC00 ≤ low ∧ low < 0xE000) ∧
          c.toNat = 0x10000 + 0x400 * (unit - 0xD800) + (low - 0xDC00)) := by
  cases text with
  | nil => cases h
  | cons c others =>
    refine ⟨c, others, rfl, ?_⟩
    rw [encodeUnits_cons] at h
    by_cases hlt : c.toNat < 0x10000
    · rw [charUnits, if_pos hlt] at h
      obtain ⟨rfl, rfl⟩ := List.cons.inj h
      exact .inl ⟨isValidChar_toNat c, rfl, rfl⟩
    · have hpair : charUnits c = _ := if_neg hlt
      rw [hpair] at h
      obtain ⟨rfl, rfl⟩ := List.cons.inj h
      exact .inr ⟨_, rfl, charUnits_eq_pair_iff.1 hpair⟩

/-- The texts that begin with a pair of surrogates. -/
theorem pair_eq_encodeUnits_iff {high low : Nat} {after : List Nat} {text : List Char}
    (hhigh : 0xD800 ≤ high ∧ high < 0xDC00) (hlow : 0xDC00 ≤ low ∧ low < 0xE000) :
    high :: low :: after = encodeUnits text ↔
      ∃ others, after = encodeUnits others ∧
        Char.ofNat (0x10000 + 0x400 * (high - 0xD800) + (low - 0xDC00)) :: others = text := by
  have hcode : (0x10000 + 0x400 * (high - 0xD800) + (low - 0xDC00)).isValidChar := .inr (by omega)
  constructor
  · intro heq
    obtain ⟨c, others, rfl, ⟨hvalid, -⟩ | ⟨_, hrest, -, -, hc⟩⟩ := encodeUnits_eq_cons heq
    · omega
    · obtain ⟨rfl, rfl⟩ := List.cons.inj hrest
      exact ⟨others, rfl, by rw [(charOfNat_eq_iff hcode).2 hc]⟩
  · rintro ⟨others, rfl, rfl⟩
    rw [encodeUnits_cons, charUnits_eq_pair_iff.2 ⟨hhigh, hlow, toNat_charOfNat hcode⟩]
    rfl

/-- The texts that begin with a unit that is a character by itself. -/
theorem cons_eq_encodeUnits_iff {unit : Nat} {rest : List Nat} {text : List Char}
    (hvalid : unit.isValidChar) (hunit : unit < 0x10000) :
    unit :: rest = encodeUnits text ↔
      ∃ others, rest = encodeUnits others ∧ Char.ofNat unit :: others = text := by
  constructor
  · intro heq
    obtain ⟨c, others, rfl, ⟨-, hc, rfl⟩ | ⟨_, -, hpair, -⟩⟩ := encodeUnits_eq_cons heq
    · exact ⟨others, rfl, by rw [(charOfNat_eq_iff hvalid).2 hc]⟩
    · omega
  · rintro ⟨others, rfl, rfl⟩
    rw [encodeUnits_cons, charUnits, toNat_charOfNat hvalid, if_pos hunit]
    rfl

/-- Exactly the units of a text are decoded as that text. -/
theorem decodeUnits_eq_ok_iff {codes : List Nat} (h : ∀ unit ∈ codes, unit < 0x10000)
    {text : List Char} : decodeUnits codes = .ok text ↔ codes = encodeUnits text := by
  fun_induction decodeUnits codes generalizing text with
  | case1 =>
    cases text with
    | nil => exact iff_of_true rfl rfl
    | cons c others =>
      refine iff_of_false nofun fun heq => ?_
      rw [encodeUnits_cons] at heq
      unfold charUnits at heq
      split at heq <;> cases heq
  | case2 unit hhigh low after hlow code ih =>
    rw [isHighSurrogate_iff] at hhigh
    rw [isLowSurrogate_iff] at hlow
    have hafter := @ih fun u hu => h u (by simp [hu])
    simp only [map_eq_ok_iff, hafter, pair_eq_encodeUnits_iff hhigh hlow, code]
  | case3 unit hhigh low after hlow =>
    rw [isHighSurrogate_iff] at hhigh
    rw [isLowSurrogate_iff] at hlow
    refine iff_of_false nofun fun heq => ?_
    obtain ⟨c, others, rfl, ⟨hvalid, -⟩ | ⟨_, hrest, -, hpair, -⟩⟩ := encodeUnits_eq_cons heq
    · omega
    · obtain ⟨rfl, -⟩ := List.cons.inj hrest
      exact hlow hpair
  | case4 unit hhigh =>
    rw [isHighSurrogate_iff] at hhigh
    refine iff_of_false nofun fun heq => ?_
    obtain ⟨c, others, rfl, ⟨hvalid, -⟩ | ⟨_, hrest, -⟩⟩ := encodeUnits_eq_cons heq
    · omega
    · cases hrest
  | case5 unit rest hhigh hlow =>
    rw [isLowSurrogate_iff] at hlow
    refine iff_of_false nofun fun heq => ?_
    obtain ⟨c, others, rfl, ⟨hvalid, -⟩ | ⟨_, -, hhigh, -⟩⟩ := encodeUnits_eq_cons heq <;> omega
  | case6 unit rest hhigh hlow ih =>
    rw [isHighSurrogate_iff] at hhigh
    rw [isLowSurrogate_iff] at hlow
    have hunit := h unit List.mem_cons_self
    have hvalid : unit.isValidChar := by
      unfold Nat.isValidChar
      omega
    have hrest := @ih fun u hu => h u (List.mem_cons_of_mem unit hu)
    simp only [map_eq_ok_iff, hrest, cons_eq_encodeUnits_iff hvalid hunit]

theorem even_length_encode (text : List Char) : (encode order text).length % 2 = 0 := by
  unfold encode
  induction encodeUnits text with
  | nil => rfl
  | cons unit codes ih =>
    rw [List.flatMap_cons, List.length_append, length_unitBytes]
    omega

theorem decode_eq_ok_iff {bytes : List UInt8} {text : List Char} :
    decode order bytes = .ok text ↔ bytes = encode order text := by
  unfold decode
  split
  · next hodd =>
    refine iff_of_false nofun ?_
    rintro rfl
    exact hodd (even_length_encode text)
  · next heven =>
    obtain ⟨hlt, hbytes⟩ := @flatMap_units order bytes (by omega)
    rw [decodeUnits_eq_ok_iff hlt]
    constructor
    · intro hunits
      rw [encode, ← hunits, hbytes]
    · rintro rfl
      refine units_flatMap_unitBytes fun unit hunit => ?_
      obtain ⟨c, -, hc⟩ := List.mem_flatMap.1 hunit
      exact lt_of_mem_charUnits hc

end DeepScope.Utf16
