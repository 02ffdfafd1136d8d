import DeepScope.Proofs.Encoding.Utf16
import DeepScope.Proofs.Encoding.Utf8
import DeepScope.StyleSheet.Bytes

namespace DeepScope

namespace Encoding

/-- The bytes of a text in an encoding, if it has all of the characters. -/
def encode (encoding : Encoding) (text : List Char) : Option (List UInt8) :=
  match encoding with
  | .utf8 => some (Utf8.encode text)
  | .ascii => encodeBelow 0x80 text
  | .latin1 => encodeBelow 0x100 text
  | .utf16 order => some (Utf16.encode order text)

/-- The byte order mark of an encoding, if it has one. -/
def mark : Encoding → List UInt8
  | .utf8 => [0xEF, 0xBB, 0xBF]
  | .utf16 .little => [0xFF, 0xFE]
  | .utf16 .big => [0xFE, 0xFF]
  | .ascii | .latin1 => []

/-- The labels of an encoding, in lower case. -/
def labels : Encoding → List String
  | .utf8 => ["utf-8", "utf8", "unicode-1-1-utf-8"]
  | .ascii => ["us-ascii", "ascii"]
  | .latin1 => ["iso-8859-1", "iso8859-1", "iso_8859-1", "latin1", "l1"]
  | .utf16 .little => ["utf-16le", "utf-16"]
  | .utf16 .big => ["utf-16be"]

/-- Whether a label is one of the encoding's, letter case and the white space
    around it aside. -/
def HasLabel (encoding : Encoding) (label : String) : Prop :=
  asciiLower (trimWhiteSpace label) ∈ encoding.labels

instance (encoding : Encoding) (label : String) : Decidable (encoding.HasLabel label) :=
  inferInstanceAs (Decidable (_ ∈ encoding.labels))

theorem ofLabel_eq_ok_iff {label : String} {encoding : Encoding} :
    ofLabel label = .ok encoding ↔ encoding.HasLabel label := by
  unfold ofLabel HasLabel
  generalize asciiLower (trimWhiteSpace label) = name
  split
  all_goals rcases encoding with _ | _ | _ | _ | _
  all_goals simp_all [labels]

/-- What the label of a rule that was read as ASCII stands for. -/
def orUtf8 : Encoding → Encoding
  | .utf16 _ => .utf8
  | encoding => encoding

/-- Exactly the bytes of a text are decoded as that text. -/
theorem decode_eq_ok_iff {encoding : Encoding} {bytes : List UInt8} {text : List Char} :
    encoding.decode bytes = .ok text ↔ encoding.encode text = some bytes := by
  cases encoding with
  | utf8 =>
    rw [decode, Utf8.decode_eq_ok_iff, encode, Option.some.injEq, eq_comm]
  | ascii => exact decodeAscii_eq_ok_iff_encodeBelow
  | latin1 =>
    rw [decode, Except.ok.injEq, decodeBytes_eq_iff, encode]
  | utf16 order =>
    rw [decode, Utf16.decode_eq_ok_iff, encode, Option.some.injEq, eq_comm]

end Encoding

open EncodingSource (charsetLabel)

/-- Whether no byte order mark stands in front. -/
def Unmarked (bytes : List UInt8) : Prop :=
  ∀ encoding : Encoding, encoding.mark <+: bytes → encoding.mark = []

theorem unmarked_cons {a : UInt8} (h : a ∉ [0xEF, 0xFE, 0xFF]) (rest : List UInt8) :
    Unmarked (a :: rest) := by
  simp only [List.mem_cons, List.not_mem_nil, or_false, not_or] at h
  obtain ⟨hutf8, hbig, hlittle⟩ := h
  intro encoding hmark
  rcases encoding with _ | _ | _ | _ | _
  · exact absurd (List.cons_prefix_cons.1 hmark).1.symm hutf8
  · rfl
  · rfl
  · exact absurd (List.cons_prefix_cons.1 hmark).1.symm hlittle
  · exact absurd (List.cons_prefix_cons.1 hmark).1.symm hbig

/-- The byte order mark in front of the bytes, if any, and the encoding that
    they are read in: that of the mark, or else of the rule in front, or else of
    the hint, or else UTF-8. -/
inductive Selects (bytes : List UInt8) : Option String → List UInt8 → Encoding → Prop where
  | mark {hint : Option String} {encoding : Encoding} :
    encoding.mark ≠ [] → encoding.mark <+: bytes → Selects bytes hint encoding.mark encoding
  | rule {hint : Option String} {label : String} {encoding : Encoding} :
    Unmarked bytes → charsetLabel bytes = some label → encoding.HasLabel label →
    Selects bytes hint [] encoding.orUtf8
  | hint {label : String} {encoding : Encoding} :
    Unmarked bytes → charsetLabel bytes = none → encoding.HasLabel label →
    Selects bytes (some label) [] encoding
  | none : Unmarked bytes → charsetLabel bytes = none → Selects bytes none [] .utf8

namespace EncodingSource

/-- A byte order mark in front is found, whatever follows it. -/
theorem ofBytes_mark {encoding : Encoding} (h : encoding.mark ≠ []) (rest : List UInt8)
    (hint : Option String) :
    ofBytes (encoding.mark ++ rest) hint = (.byteOrderMark encoding, rest) := by
  cases encoding with
  | utf8 => rfl
  | utf16 order => cases order <;> rfl
  | ascii | latin1 => exact absurd rfl h

theorem ofBytes_unmarked {bytes : List UInt8} (h : Unmarked bytes) (hint : Option String) :
    ofBytes bytes hint =
      match charsetLabel bytes, hint with
      | some label, _ => (.charsetRule label, bytes)
      | Option.none, some label => (.hint label, bytes)
      | Option.none, Option.none => (.none, bytes) := by
  unfold ofBytes
  split
  · next rest => exact absurd (h .utf8 ⟨rest, rfl⟩) (by decide)
  · next rest => exact absurd (h (.utf16 .little) ⟨rest, rfl⟩) (by decide)
  · next rest => exact absurd (h (.utf16 .big) ⟨rest, rfl⟩) (by decide)
  · rfl

theorem encoding_hint (label : String) : (hint label).encoding = Encoding.ofLabel label := by
  rw [encoding]

theorem encoding_charsetRule (label : String) :
    (charsetRule label).encoding = (Encoding.ofLabel label).map Encoding.orUtf8 := by
  rw [encoding]
  congr

/-- What decides the encoding finds the one that is selected, and leaves the
    bytes behind the mark. -/
theorem selects_iff {bytes mark : List UInt8} {hint : Option String} {encoding : Encoding} :
    Selects bytes hint mark encoding ↔ (ofBytes bytes hint).1.encoding = .ok encoding ∧
      bytes = mark ++ (ofBytes bytes hint).2 := by
  constructor
  · intro h
    cases h with
    | mark hmark hprefix =>
      obtain ⟨rest, rfl⟩ := hprefix
      rw [ofBytes_mark hmark]
      exact ⟨rfl, rfl⟩
    | rule hbare hlabel hhas =>
      rw [ofBytes_unmarked hbare, hlabel]
      refine ⟨?_, rfl⟩
      rw [encoding_charsetRule, Encoding.ofLabel_eq_ok_iff.2 hhas]
      rfl
    | hint hbare hlabel hhas =>
      rw [ofBytes_unmarked hbare, hlabel]
      refine ⟨?_, rfl⟩
      rw [encoding_hint, Encoding.ofLabel_eq_ok_iff.2 hhas]
    | none hbare hlabel =>
      rw [ofBytes_unmarked hbare, hlabel]
      exact ⟨rfl, rfl⟩
  · rintro ⟨hencoding, hbytes⟩
    by_cases hbare : Unmarked bytes
    · rw [ofBytes_unmarked hbare] at hencoding hbytes
      cases hlabel : charsetLabel bytes with
      | some label =>
        rw [hlabel] at hencoding hbytes
        obtain rfl : mark = [] := by simpa using hbytes
        rw [encoding_charsetRule] at hencoding
        obtain ⟨found, hfound, rfl⟩ := exists_of_map_eq_ok hencoding
        exact .rule hbare hlabel (Encoding.ofLabel_eq_ok_iff.1 hfound)
      | none =>
        rw [hlabel] at hencoding hbytes
        cases hint with
        | some label =>
          obtain rfl : mark = [] := by simpa using hbytes
          rw [encoding_hint] at hencoding
          exact .hint hbare hlabel (Encoding.ofLabel_eq_ok_iff.1 hencoding)
        | none =>
          obtain rfl : mark = [] := by simpa using hbytes
          cases hencoding
          exact .none hbare hlabel
    · obtain ⟨found, ⟨rest, rfl⟩, hmark⟩ : ∃ e : Encoding, e.mark <+: bytes ∧ e.mark ≠ [] := by
        simpa [Unmarked] using hbare
      rw [ofBytes_mark hmark] at hencoding hbytes
      cases hencoding
      rw [← List.append_cancel_right hbytes]
      exact .mark hmark ⟨rest, rfl⟩

/-- Nothing is dropped behind a byte order mark. -/
theorem ofBytes_suffix (bytes : List UInt8) (hint : Option String) :
    (ofBytes bytes hint).2 <:+ bytes := by
  by_cases hbare : Unmarked bytes
  · rw [ofBytes_unmarked hbare]
    split <;> exact List.suffix_refl bytes
  · obtain ⟨found, ⟨rest, rfl⟩, hmark⟩ : ∃ e : Encoding, e.mark <+: bytes ∧ e.mark ≠ [] := by
      simpa [Unmarked] using hbare
    rw [ofBytes_mark hmark]
    exact List.suffix_append found.mark rest

end EncodingSource

theorem decode_eq_ok_iff_encode {bytes : List UInt8} {hint : Option String} {text : String} :
    decode bytes hint = .ok text ↔
      ∃ encoding, (EncodingSource.ofBytes bytes hint).1.encoding = .ok encoding ∧
        encoding.encode text.toList = some (EncodingSource.ofBytes bytes hint).2 := by
  constructor
  · intro h
    obtain ⟨encoding, hencoding, h⟩ := exists_of_bind_eq_ok h
    obtain ⟨chars, hchars, h⟩ := exists_of_bind_eq_ok h
    obtain rfl := Except.ok.inj h
    rw [String.toList_ofList]
    exact ⟨encoding, hencoding, Encoding.decode_eq_ok_iff.1 hchars⟩
  · rintro ⟨encoding, hencoding, htext⟩
    have hchars := Encoding.decode_eq_ok_iff.2 htext
    simp [decode, hencoding, hchars, bind, Except.bind, pure, Except.pure]

/-- Bytes are decoded as a text exactly if they are the byte order mark, if any,
    and then the text in the encoding that is selected. -/
theorem decode_eq_ok_iff {bytes : List UInt8} {hint : Option String} {text : String} :
    decode bytes hint = .ok text ↔ ∃ mark encoding rest, Selects bytes hint mark encoding ∧
      encoding.encode text.toList = some rest ∧ bytes = mark ++ rest := by
  rw [decode_eq_ok_iff_encode]
  constructor
  · rintro ⟨encoding, hencoding, htext⟩
    obtain ⟨mark, hmark⟩ := EncodingSource.ofBytes_suffix bytes hint
    exact ⟨mark, encoding, _, EncodingSource.selects_iff.2 ⟨hencoding, hmark.symm⟩, htext, hmark.symm⟩
  · rintro ⟨mark, encoding, rest, hselects, htext, hbytes⟩
    obtain ⟨hencoding, hsplit⟩ := EncodingSource.selects_iff.1 hselects
    rw [List.append_cancel_left (hbytes.symm.trans hsplit)] at htext
    exact ⟨encoding, hencoding, htext⟩

/-- Decoding undoes encoding: behind a byte order mark whatever the hint says,
    and without a mark or a rule in front as the hint says. Conversely, decoded
    bytes are a byte order mark, if any, and then nothing but the text. -/
theorem decode_exact :
    (∀ (text : String) (hint : Option String),
      decode ([0xEF, 0xBB, 0xBF] ++ Utf8.encode text.toList) hint = .ok text ∧
      decode ([0xFF, 0xFE] ++ Utf16.encode .little text.toList) hint = .ok text ∧
      decode ([0xFE, 0xFF] ++ Utf16.encode .big text.toList) hint = .ok text) ∧
    (∀ (encoding : Encoding) (text : String) (bytes : List UInt8),
      encoding.encode text.toList = some bytes → Unmarked bytes → charsetLabel bytes = none →
      (∀ label, encoding.HasLabel label → decode bytes (some label) = .ok text) ∧
      (encoding = .utf8 → decode bytes none = .ok text)) ∧
    ∀ (bytes : List UInt8) (hint : Option String) (text : String),
      decode bytes hint = .ok text → ∃ mark encoding rest, Selects bytes hint mark encoding ∧
        encoding.encode text.toList = some rest ∧ bytes = mark ++ rest := by
  have hmarked : ∀ (encoding : Encoding) (bytes : List UInt8) (text : String)
      (hint : Option String), encoding.mark ≠ [] → encoding.encode text.toList = some bytes →
      decode (encoding.mark ++ bytes) hint = .ok text := fun encoding bytes text hint hmark htext =>
    decode_eq_ok_iff.2 ⟨_, encoding, bytes, .mark hmark ⟨bytes, rfl⟩, htext, rfl⟩
  refine ⟨fun text hint => ⟨?_, ?_, ?_⟩, fun encoding text bytes htext hbare hlabel => ⟨?_, ?_⟩,
    fun bytes hint text => decode_eq_ok_iff.1⟩
  · exact hmarked .utf8 _ text hint (by decide) rfl
  · exact hmarked (.utf16 .little) _ text hint (by decide) rfl
  · exact hmarked (.utf16 .big) _ text hint (by decide) rfl
  · intro label hhas
    exact decode_eq_ok_iff.2 ⟨[], encoding, bytes, .hint hbare hlabel hhas, htext, rfl⟩
  · rintro rfl
    exact decode_eq_ok_iff.2 ⟨[], .utf8, bytes, .none hbare hlabel, htext, rfl⟩

/-- A byte outside ASCII is a character by itself in one encoding, and half of
    one in another. -/
theorem decode_exact_latin1 :
    decode [0xE9] (some " Latin1 ") = .ok "é" ∧ decode [0xFF, 0xFE, 0xE9, 0x00] none = .ok "é" ∧
      ∃ mark encoding rest, Selects [0xE9] (some " Latin1 ") mark encoding ∧
        encoding.encode ['é'] = some rest ∧ [0xE9] = mark ++ rest := by
  have hbare : Unmarked [0xE9] := unmarked_cons (by decide) []
  have hencoded : Encoding.latin1.encode "é".toList = some [0xE9] := by decide +kernel
  have hdecoded : decode [0xE9] (some " Latin1 ") = .ok "é" :=
    (decode_exact.2.1 .latin1 "é" [0xE9] hencoded hbare rfl).1 " Latin1 " (by decide +kernel)
  exact ⟨hdecoded, (decode_exact.1 "é" none).2.1, decode_exact.2.2 _ _ _ hdecoded⟩

end DeepScope
