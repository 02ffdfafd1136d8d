import DeepScope.Proofs.Encoding.Label
import DeepScope.Proofs.StyleSheet.Forms
import DeepScope.Proofs.Token.Address
import DeepScope.StyleSheet.Bytes

namespace DeepScope

variable {label rest : List Char} {tokens : List Token}

/-- A string without escapes is read as it stands, wherever it is read at all. -/
theorem Lexes.string_append_iff (hquote : '"' ∉ label) (hslash : '\\' ∉ label) :
    Lexes ('"' :: (label ++ '"' :: rest)) tokens ↔
      '\n' ∉ label ∧ ∃ more, tokens = .string (String.ofList label) :: more ∧ Lexes rest more := by
  have hread : ∀ {text n}, QuotedString.read '"' (label ++ '"' :: rest) = .ok (text, n) ↔
      '\n' ∉ label ∧ text = label ∧ n = label.length + 1 :=
    QuotedString.read_plain_append_iff hquote hslash (by decide)
  have hsize : Comment.size ('"' :: (label ++ '"' :: rest)) = .ok 0 :=
    Comment.size_cons_eq_zero (by decide) _
  have hreads : ∀ {token left}, Token.Reads ('"' :: (label ++ '"' :: rest)) token left ↔
      '\n' ∉ label ∧ token = .string (String.ofList label) ∧ left = rest := by
    intro token left
    have hdrop : rest = ('"' :: (label ++ '"' :: rest)).drop (label.length + 1 + 1) := by
      rw [List.drop_succ_cons, List.drop_append]
      simp
    constructor
    · rintro ⟨n, k, hn, hscan, rfl⟩
      obtain rfl := Except.ok.inj (hsize.symm.trans hn)
      obtain ⟨text, m, hfound, rfl, rfl⟩ := (Token.scan_quote_eq_ok_iff rfl).1 hscan
      obtain ⟨hline, rfl, rfl⟩ := hread.1 hfound
      exact ⟨hline, rfl, hdrop.symm⟩
    · rintro ⟨hline, rfl, rfl⟩
      have hscan := (Token.scan_quote_eq_ok_iff rfl).2 ⟨_, _, hread.2 ⟨hline, rfl, rfl⟩, rfl, rfl⟩
      exact ⟨0, _, hsize, hscan, hdrop⟩
  constructor
  · intro hlexes
    cases hlexes with
    | last hread => cases (hreads.1 hread).2.1
    | step hread _ hmore =>
      obtain ⟨hline, rfl, rfl⟩ := hreads.1 hread
      exact ⟨hline, _, rfl, hmore⟩
  · rintro ⟨hline, more, rfl, hmore⟩
    exact .step (hreads.2 ⟨hline, rfl, rfl⟩) (by simp) hmore

/-- The rule is read token by token, whatever follows it. -/
theorem Lexes.charsetRuleText_append_iff (hquote : '"' ∉ label) (hslash : '\\' ∉ label) :
    Lexes (charsetRuleText label ++ rest) tokens ↔ '\n' ∉ label ∧ ∃ more, Lexes rest more ∧
      tokens = .atKeyword "charset" :: .whitespace :: .string (String.ofList label) ::
        .semicolon :: more := by
  have hkeyword : (Token.atKeyword "charset").Legible := show IsName "charset" by decide
  have hblank : Token.whitespace.Ends ('"' :: (label ++ '"' :: (Token.semicolon.chars ++ rest))) :=
    Comment.sizeWithBlanks_of_isQuote rfl _
  have htext : charsetRuleText label ++ rest = (Token.atKeyword "charset").chars ++
      (Token.whitespace.chars ++ ('"' :: (label ++ '"' :: (Token.semicolon.chars ++ rest)))) := by
    have hopening : '@' :: "charset \"".toList =
        (Token.atKeyword "charset").chars ++ (Token.whitespace.chars ++ ['"']) := by decide
    rw [charsetRuleText, ← List.cons_append, hopening]
    simp only [List.append_assoc]
    rfl
  have hends : (Token.atKeyword "charset").Ends (Token.whitespace.chars ++
      ('"' :: (label ++ '"' :: (Token.semicolon.chars ++ rest)))) := rfl
  rw [htext, chars_append_iff hkeyword (by simp) hends]
  simp only [@chars_append_iff _ _ .whitespace trivial (by simp) hblank,
    Lexes.string_append_iff hquote hslash, @chars_append_iff _ _ .semicolon trivial (by simp) trivial]
  constructor
  · rintro ⟨_, rfl, _, rfl, hline, _, rfl, more, rfl, hmore⟩
    exact ⟨hline, more, hmore, rfl⟩
  · rintro ⟨hline, more, hmore, rfl⟩
    exact ⟨_, rfl, _, rfl, hline, _, rfl, more, rfl, hmore⟩

/-- The rule is ready to be read as it stands, but for its label. -/
theorem Source.normalize_charsetRuleText (label more : List Char) :
    normalize (dropMark (charsetRuleText label ++ more)) =
      charsetRuleText (normalize label) ++ normalize more := by
  have hhead : IsClean '@' := by decide
  have hopening : ∀ c ∈ "charset \"".toList, IsClean c := fun c => isClean_of_mem_of_all (by decide)
  have hclosing : ∀ c ∈ "\";".toList, IsClean c := fun c => isClean_of_mem_of_all (by decide)
  have hmark : (charsetRuleText label ++ more).head? ≠ some '\uFEFF' :=
    fun h => absurd (Option.some.inj h) (by decide)
  rw [dropMark_of_head hmark, charsetRuleText, charsetRuleText, List.cons_append, List.append_assoc,
    List.append_assoc, normalize_cons_of_isClean hhead, normalize_append_of_isClean hopening,
    normalize_append (.inr (by simp)), normalize_append_of_isClean hclosing, List.cons_append,
    List.append_assoc, List.append_assoc]

/-- Tokens make up at most one prelude at their beginning. -/
theorem Prelude.Forms.unique {limit : Option Nat} {depth : Nat} {front front' rest rest' : List Token}
    {prelude prelude' : Prelude} (h : Forms limit depth front prelude)
    (h' : Forms limit depth front' prelude') (heq : front ++ rest = front' ++ rest') :
    prelude = prelude' := by
  let reader : Reader := ⟨Position.start, (front ++ rest).map fun t => ⟨t, Position.start⟩⟩
  have htokens : reader.tokens = front ++ rest := by
    simp [reader, Function.comp_def]
  obtain ⟨_, hread, -⟩ := read_complete h htokens
  obtain ⟨_, hread', -⟩ := read_complete h' (htokens.trans heq)
  rw [hread] at hread'
  exact (Prod.mk.inj (Except.ok.inj hread')).1

namespace StyleSheet

/-- Tokens that begin with the rule make up a stylesheet with its label. -/
theorem Forms.charset_eq {label : String} {sheet : StyleSheet}
    (h : Forms (some nestingLimit) tokens sheet) {rest : List Token}
    (hrest : tokens ++ [.eof] =
      .atKeyword "charset" :: .whitespace :: .string label :: .semicolon :: rest) :
    sheet.charset = some label := by
  cases h with
  | plain hhead =>
    cases tokens with
    | nil => cases hrest
    | cons t tokens => exact absurd (congrArg some (List.cons.inj hrest).1) hhead
  | @charset found front back _ hfront _ =>
    have hgathers : Value.Gathers (some nestingLimit) 0 [.whitespace, .string label]
        [.token .whitespace, .token (.string label)] :=
      .token rfl rfl (by simp) (.token rfl rfl (by simp) .nil)
    have hrule : Prelude.Forms (some nestingLimit) 0 ([.whitespace, .string label] ++ [.semicolon])
        ⟨[.token (.string label)], false⟩ :=
      @Prelude.Forms.intro _ _ _ _ false hgathers (by simp [endsPrelude, Value.head])
    have hall : front ++ (back ++ [.eof]) =
        ([.whitespace, .string label] ++ [.semicolon]) ++ rest := by
      simpa using hrest
    have hlabel := hfront.unique hrule hall
    simpa using hlabel

/-- The charset of what is read from a text that begins with the rule. -/
theorem charset_of_parse {text : String} {label more : List Char} {sheet : StyleSheet}
    (hnull : '\x00' ∉ label) (hquote : '"' ∉ label) (hslash : '\\' ∉ label)
    (htext : text.toList = charsetRuleText label ++ more) (h : parse text = .ok sheet) :
    sheet.charset = some (String.ofList label) := by
  obtain ⟨tokens, hlexes, hforms⟩ := parse_eq_ok_iff.1 h
  have hready : '"' ∉ Source.normalize label ∧ '\\' ∉ Source.normalize label :=
    ⟨fun hmem => hquote (Source.mem_of_mem_normalize (by decide) (by decide) hmem),
      fun hmem => hslash (Source.mem_of_mem_normalize (by decide) (by decide) hmem)⟩
  rw [Source.ofText, htext, Source.normalize_charsetRuleText,
    Lexes.charsetRuleText_append_iff hready.1 hready.2] at hlexes
  obtain ⟨hline, rest, -, hrest⟩ := hlexes
  rw [Source.normalize_eq_self_of_line hnull hline] at hrest
  exact hforms.charset_eq hrest

/-- Where a label is found among the bytes, which then have no byte order mark in
    front, it is the charset of what is read from them, just as it was found, and a
    hint makes no difference. -/
theorem parseBytes_charsetLabel {bytes : List UInt8} {label : String}
    (h : EncodingSource.charsetLabel bytes = some label) (hint : Option String) :
    (∀ sheet, parseBytes bytes hint = .ok sheet → sheet.charset = some label) ∧
      ∀ other, parseBytes bytes other = parseBytes bytes hint := by
  constructor
  · intro sheet hsheet
    rw [parseBytes, parseBytesNoted] at hsheet
    split at hsheet
    · cases hsheet
    · next text hdecode =>
      obtain ⟨encoding, more, hhas, htext⟩ := exists_of_decode h hdecode
      have hquote := EncodingSource.quote_not_mem_of_charsetLabel h
      obtain ⟨hnull, hslash⟩ := hhas.plain
      have hcharset := charset_of_parse hnull hquote hslash htext hsheet
      rwa [String.ofList_toList] at hcharset
  · intro other
    rw [parseBytes, parseBytes, parseBytesNoted, parseBytesNoted, decode_hint h hint other]

/-- A label between blanks, which cannot be meant, and a hint that is no better. -/
theorem parseBytes_charsetLabel_utf16 :
    let bytes := EncodingSource.asciiBytes "@charset \"\tUTF-16\x0b\";a{}"
    EncodingSource.charsetLabel bytes = some "\tUTF-16\x0b" ∧
      ∃ sheet, parseBytes bytes (some "utf-16be") = .ok sheet ∧
        sheet.charset = some "\tUTF-16\x0b" ∧ parseBytes bytes none = .ok sheet := by
  intro bytes
  have hlabel : EncodingSource.charsetLabel bytes = some "\tUTF-16\x0b" := by decide +kernel
  have hread : (parseBytes bytes (some "utf-16be")).toOption.isSome = true := by decide +kernel
  obtain ⟨sheet, hsheet⟩ := Option.isSome_iff_exists.1 hread
  have hok := eq_ok_of_toOption hsheet
  obtain ⟨hcharset, hhint⟩ := parseBytes_charsetLabel hlabel (some "utf-16be")
  exact ⟨hlabel, sheet, hok, hcharset sheet hok, (hhint none).trans hok⟩

end StyleSheet

end DeepScope
