import DeepScope.Proofs.Encoding.Detect
import Mathlib.Data.List.TakeWhile

namespace DeepScope

/-- The rule that names a charset. -/
def charsetRuleText (label : List Char) : List Char :=
  '@' :: ("charset \"".toList ++ (label ++ "\";".toList))

section

variable {bytes : List UInt8} {hint : Option String} {label text : String} {encoding : Encoding}

/-- Bytes of ASCII in front are decoded one by one. -/
theorem Utf8.decodeFrom_append {front rest : List UInt8} {offset : Nat} {chars : List Char}
    (hfront : front.all (· < 0x80) = true)
    (h : decodeFrom offset (front ++ rest) = .ok chars) :
    ∃ more, chars = Encoding.decodeBytes front ++ more := by
  induction front generalizing offset chars with
  | nil => exact ⟨chars, rfl⟩
  | cons byte front ih =>
    rw [List.all_cons, Bool.and_eq_true, decide_eq_true_eq] at hfront
    rw [List.cons_append, decodeFrom, readChar, if_pos hfront.1] at h
    obtain ⟨others, hothers, rfl⟩ := exists_of_map_eq_ok h
    obtain ⟨more, rfl⟩ := ih hfront.2 hothers
    exact ⟨more, rfl⟩

namespace Encoding

/-- A label holds nothing but white space and what some name of its encoding holds. -/
theorem HasLabel.not_mem {c : Char} (h : encoding.HasLabel label) (hspace : isWhiteSpace c = false)
    (hnames : ∀ name ∈ encoding.labels, c.toLower ∉ name.toList) : c ∉ label.toList := by
  have hdrop : ∀ {chars : List Char}, c ∈ chars → c ∈ chars.dropWhile isWhiteSpace := by
    intro chars hc
    rw [← List.takeWhile_append_dropWhile (p := isWhiteSpace) (l := chars), List.mem_append] at hc
    rcases hc with hc | hc
    · rw [List.mem_takeWhile_imp hc] at hspace
      cases hspace
    · exact hc
  intro hc
  refine hnames _ h ?_
  rw [asciiLower, String.toList_ofList, trimWhiteSpace, String.toList_ofList]
  exact List.mem_map_of_mem (List.mem_reverse.2 (hdrop (List.mem_reverse.2 (hdrop hc))))

/-- Neither null characters nor backslashes stand in a label. -/
theorem HasLabel.plain (h : encoding.HasLabel label) : '\x00' ∉ label.toList ∧ '\\' ∉ label.toList := by
  constructor
  · refine h.not_mem (by decide) ?_
    rcases encoding with _ | _ | _ | _ | _ <;> decide
  · refine h.not_mem (by decide) ?_
    rcases encoding with _ | _ | _ | _ | _ <;> decide

/-- So they are in each encoding that a rule can name. -/
theorem decode_orUtf8_append {front rest : List UInt8} {chars : List Char}
    (hfront : front.all (· < 0x80) = true)
    (h : encoding.orUtf8.decode (front ++ rest) = .ok chars) :
    ∃ more, chars = decodeBytes front ++ more := by
  cases encoding with
  | utf8 | utf16 => exact Utf8.decodeFrom_append hfront h
  | ascii =>
    obtain ⟨-, rfl⟩ := decodeAscii_eq_ok_iff.1 h
    exact ⟨_, List.map_append⟩
  | latin1 =>
    obtain rfl := Except.ok.inj h
    exact ⟨_, List.map_append⟩

end Encoding

open EncodingSource

/-- What stands behind the first elements of a kind comes after these. -/
theorem exists_append_of_takeWhile {α : Type} {p : α → Bool} {list back : List α}
    (h : back <+: list.drop (list.takeWhile p).length) :
    ∃ rest, list = list.takeWhile p ++ (back ++ rest) := by
  obtain ⟨rest, hrest⟩ := h
  have htake := List.prefix_iff_eq_take.1 (List.takeWhile_prefix (l := list) p)
  refine ⟨rest, ?_⟩
  rw [hrest]
  exact (List.take_append_drop _ list).symm.trans (congrArg (· ++ _) htake.symm)

namespace EncodingSource

/-- Bytes with a label begin with the rule that names it. -/
theorem exists_of_charsetLabel (h : charsetLabel bytes = some label) :
    ∃ name rest, bytes = asciiBytes "@charset \"" ++ (name ++ (asciiBytes "\";" ++ rest)) ∧
      name.all (· < 0x80) = true ∧ UInt8.ofNat '"'.toNat ∉ name ∧
      label = String.ofList (Encoding.decodeBytes name) := by
  unfold charsetLabel at h
  dsimp only at h
  split at h
  · next hopening =>
    obtain ⟨behind, rfl⟩ := List.isPrefixOf_iff_prefix.1 hopening
    rw [List.drop_left] at h
    split at h
    · next hrule =>
      simp only [Bool.and_eq_true] at hrule
      obtain ⟨⟨-, hascii⟩, hclosing⟩ := hrule
      obtain ⟨rest, hrest⟩ := exists_append_of_takeWhile (List.isPrefixOf_iff_prefix.1 hclosing)
      refine ⟨_, rest, congrArg _ hrest, hascii, fun hquote => ?_, (Option.some.inj h).symm⟩
      simpa using List.mem_takeWhile_imp hquote
    · cases h
  · cases h

/-- No byte order mark stands in front of the rule. -/
theorem unmarked_of_charsetLabel (h : charsetLabel bytes = some label) : Unmarked bytes := by
  obtain ⟨name, rest, rfl, -⟩ := exists_of_charsetLabel h
  exact unmarked_cons (a := 0x40) (by decide) _

/-- A label ends at the first quote. -/
theorem quote_not_mem_of_charsetLabel (h : charsetLabel bytes = some label) :
    '"' ∉ label.toList := by
  obtain ⟨name, -, -, -, hquote, rfl⟩ := exists_of_charsetLabel h
  rw [String.toList_ofList]
  intro hmem
  obtain ⟨byte, hbyte, hchar⟩ := List.mem_map.1 hmem
  rw [(Encoding.charOfNat_byte_eq_iff.1 hchar).2] at hbyte
  exact hquote hbyte

end EncodingSource

/-- Bytes with a label are decoded alike whatever the hint says. -/
theorem decode_hint (h : charsetLabel bytes = some label) (hint other : Option String) :
    decode bytes other = decode bytes hint := by
  have hbare := unmarked_of_charsetLabel h
  rw [decode, decode, ofBytes_unmarked hbare, ofBytes_unmarked hbare, h]

/-- Bytes with a label are decoded as a text that begins with the rule, if the label
    is one of some encoding. -/
theorem exists_of_decode (hlabel : charsetLabel bytes = some label)
    (h : decode bytes hint = .ok text) :
    ∃ (encoding : Encoding) (more : List Char), encoding.HasLabel label ∧
      text.toList = charsetRuleText label.toList ++ more := by
  obtain ⟨mark, encoding, rest, hselects, hencode, rfl⟩ := decode_eq_ok_iff.1 h
  have hbare := unmarked_of_charsetLabel hlabel
  cases hselects with
  | mark hmark hprefix => exact absurd (hbare _ hprefix) hmark
  | hint _ hnone => rw [hlabel] at hnone; cases hnone
  | none _ hnone => rw [hlabel] at hnone; cases hnone
  | @rule _ found named _ hfound hhas =>
    rw [hlabel] at hfound
    obtain rfl := Option.some.inj hfound
    obtain ⟨name, behind, hbytes, hascii, -, rfl⟩ := exists_of_charsetLabel hlabel
    have hfront : (asciiBytes "@charset \"" ++ (name ++ asciiBytes "\";")).all (· < 0x80) = true := by
      rw [List.all_append, List.all_append, hascii]
      rfl
    rw [← Encoding.decode_eq_ok_iff, ← List.nil_append rest, hbytes, ← List.append_assoc name,
      ← List.append_assoc] at hencode
    obtain ⟨more, hmore⟩ := Encoding.decode_orUtf8_append hfront hencode
    refine ⟨named, more, hhas, ?_⟩
    rw [hmore, Encoding.decodeBytes, List.map_append, List.map_append, String.toList_ofList]
    rfl

end

end DeepScope
