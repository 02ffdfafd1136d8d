import DeepScope.Proofs.Layout.Written
import DeepScope.Proofs.StyleSheet.Label
import DeepScope.StyleSheet.Writer

namespace DeepScope

/-- The rule that names the charset of what is written. -/
def charsetText : List Char :=
  "@charset \"UTF-8\";".toList

theorem charsetText_eq : charsetText = charsetRuleText "UTF-8".toList := by
  decide

/-- The charset rule is ready to be read as it stands. -/
theorem Source.normalize_charsetText (more : List Char) :
    normalize (dropMark (charsetText ++ more)) = charsetText ++ normalize more := by
  have hclean : ∀ c ∈ "UTF-8".toList, IsClean c := fun c => isClean_of_mem_of_all (by decide)
  rw [charsetText_eq, normalize_charsetRuleText, normalize_eq_self hclean]

/-- The charset rule is read token by token, whatever follows it. -/
theorem Lexes.charsetText_append_iff {rest : List Char} {tokens : List Token} :
    Lexes (charsetText ++ rest) tokens ↔ ∃ more, Lexes rest more ∧
      tokens = .atKeyword "charset" :: .whitespace :: .string "UTF-8" :: .semicolon :: more := by
  have hline : '\n' ∉ "UTF-8".toList := by decide
  rw [charsetText_eq, charsetRuleText_append_iff (by decide) (by decide), String.ofList_toList,
    and_iff_right hline]

namespace StyleSheet

/-- What is written with a charset begins with the rule that names it. -/
theorem toList_serialize (sheet : StyleSheet) {options : WriteOptions}
    (h : options.emitCharset = true) :
    ∃ more, (sheet.serialize options).toList = charsetText ++ more := by
  rw [serialize, Piece.toList_textAll, pieces, if_pos h, List.append_assoc, Piece.charsAll_append]
  exact ⟨_, rfl⟩

/-- Bytes that begin with the rule are read in UTF-8, whatever the hint says. -/
theorem selects_charsetText (more : List Char) (hint : Option String) :
    Selects (Utf8.encode (charsetText ++ more)) hint [] .utf8 := by
  have hbytes : Utf8.encode (charsetText ++ more) =
      EncodingSource.asciiBytes "@charset \"UTF-8\";" ++ Utf8.encode more := List.flatMap_append
  have hlabel : EncodingSource.charsetLabel (Utf8.encode (charsetText ++ more)) = some "UTF-8" := by
    rw [hbytes]
    rfl
  exact @Selects.rule _ hint "UTF-8" .utf8 (EncodingSource.unmarked_of_charsetLabel hlabel) hlabel (by decide)

/-- What is written with a charset is decoded just as it was written and read as
    it would be from its text, with the charset that it names. -/
theorem decode_serialize (sheet : StyleSheet) {options : WriteOptions}
    (hcharset : options.emitCharset = true) (hint : Option String) :
    decode (Utf8.encode (sheet.serialize options).toList) hint = .ok (sheet.serialize options) ∧
      ∀ read, parseBytes (Utf8.encode (sheet.serialize options).toList) hint = .ok read →
        read.charset = some "UTF-8" ∧
          ∃ parsed, parse (sheet.serialize options) = .ok parsed ∧ read.rules = parsed.rules := by
  obtain ⟨more, hmore⟩ := sheet.toList_serialize hcharset
  have hdecode : decode (Utf8.encode (sheet.serialize options).toList) hint =
      .ok (sheet.serialize options) := by
    refine decode_eq_ok_iff.2 ⟨[], .utf8, _, ?_, rfl, rfl⟩
    rw [hmore]
    exact selects_charsetText more hint
  refine ⟨hdecode, fun read hread => ?_⟩
  have hparse : parse (sheet.serialize options) = .ok read := by
    rwa [parseBytes, parseBytesNoted, hdecode] at hread
  rw [charsetText_eq] at hmore
  have hlabel := charset_of_parse (by decide) (by decide) (by decide) hmore hparse
  exact ⟨hlabel, read, hparse, rfl⟩

/-- A stylesheet that could not be read from any text, with a header that would
    end its comment, is decoded in spite of a hint that says otherwise, and one
    without rules is read as well. -/
theorem decode_serialize_unreadable :
    let sheet : StyleSheet := ⟨[.statement "\x00" [.token .closeBrace]], none⟩
    let options : WriteOptions := ⟨.minified, true, some "*/"⟩
    options.emitCharset = true ∧
      decode (Utf8.encode (sheet.serialize options).toList) (some "utf-16") =
        .ok (sheet.serialize options) ∧
      ∃ read, parseBytes (Utf8.encode (serialize ⟨[], none⟩ options).toList) (some "utf-16") =
        .ok read ∧ read.charset = some "UTF-8" := by
  have hread : parseBytes (Utf8.encode (serialize ⟨[], none⟩ ⟨.minified, true, some "*/"⟩).toList)
      (some "utf-16") = .ok ⟨[], some "UTF-8"⟩ := eq_ok_of_toOption (by decide +kernel)
  exact ⟨rfl, (decode_serialize _ rfl _).1, _, hread, ((decode_serialize _ rfl _).2 _ hread).1⟩

end StyleSheet

end DeepScope
