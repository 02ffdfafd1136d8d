import DeepScope.Proofs.Rule.Written
import DeepScope.Proofs.StyleSheet.Forms
import DeepScope.Proofs.StyleSheet.Header
import DeepScope.StyleSheet.Reparse

namespace DeepScope

variable {limit : Option Nat} {more : List Char} {tokens : List Token}

/-- The charset rule is read back in front of what follows it. -/
theorem Spells.charset_append (h : Spells more tokens) (layout : Layout) {label : String}
    (hlabel : (Token.string label).Legible) :
    ∃ front behind, IsGap behind ∧
      Spells (Piece.charsAll ([.token (.atKeyword "charset"), .blank " ", .token (.string label),
          .token .semicolon] ++ layout.newline) ++ more)
        (.atKeyword "charset" :: (front ++ (behind ++ tokens))) ∧
      Prelude.Forms limit 0 front ⟨[.token (.string label)], false⟩ := by
  obtain ⟨behind, hbehind, hline⟩ := h.gap_append (fun c => layout.isBlank_of_mem_newline)
  have hsemicolon := @cons_chars _ _ hline .semicolon trivial (by simp) trivial
  have hstring := hsemicolon.cons_chars hlabel (by simp) trivial
  obtain ⟨gap, hgap, hblank⟩ := @gap_append _ _ hstring [' '] (by simp [isBlank])
  have hkeyword : (Token.atKeyword "charset").Legible := by
    show IsName "charset"
    decide
  have hall := hblank.cons_chars hkeyword (by simp)
    (Token.ends_of_separated hkeyword (by simp) (by simp) rfl (separated_cons rfl (by decide)))
  have hgathers : Value.Gathers limit 0 [.string label] [.token (.string label)] :=
    .token rfl rfl (by simp) .nil
  have hform := Prelude.Forms.of_alike hgap .none hgathers (.refl _) (fun v => .inr)
    (by simp [endsPrelude, Value.head]) false
  refine ⟨_, behind, hbehind, ?_, hform⟩
  simpa [Prelude.ender] using hall

namespace StyleSheet

/-- Whether no mark of an old comment stands among the values of the stylesheet,
    and none could be read in the names of its selectors. -/
def isUnmarked (sheet : StyleSheet) : Bool :=
  Rule.areUnmarked sheet.rules

/-- Whether all rules of the stylesheet could be read from a text. -/
def Sound (sheet : StyleSheet) : Prop :=
  ∀ r ∈ sheet.rules, r.Sound (some nestingLimit) 0

/-- What is read from a text is sound. -/
theorem sound_of_parse {text : String} {sheet : StyleSheet} (h : parse text = .ok sheet) :
    sheet.Sound := by
  obtain ⟨tokens, hlexes, hforms⟩ := parse_eq_ok_iff.1 h
  have hgenuine : Genuine (tokens ++ [.eof]) :=
    ⟨hlexes.legible Source.isClean_of_mem_normalize, hlexes.urlsQuoted⟩
  exact hforms.toRules.sound hgenuine

/-- The charset is read back if it is written, whatever rules follow it. -/
theorem spells_charset {text : List Char} {rules : List Rule}
    (h : Spells (Source.normalize text) (tokens ++ [.eof])) (hrules : Rule.Forms limit 0 tokens rules)
    (hhead : LacksCharset tokens) (layout : Layout) (emitCharset : Bool) :
    ∃ front, Spells (Source.normalize (Piece.charsAll (if emitCharset then
          [.token (.atKeyword "charset"), .blank " ", .token (.string "UTF-8"), .token .semicolon] ++
            layout.newline
        else []) ++ text)) (front ++ [.eof]) ∧
      Forms limit front ⟨rules, if emitCharset then some "UTF-8" else none⟩ := by
  cases emitCharset with
  | false => exact ⟨tokens, h, .plain hhead hrules⟩
  | true =>
    obtain ⟨front, behind, hbehind, hspells, hfront⟩ :=
      @Spells.charset_append limit _ _ h layout "UTF-8" (by simp [Token.Legible])
    refine ⟨.atKeyword "charset" :: (front ++ (behind ++ tokens)), ?_,
      .charset hfront (.of_gap hbehind hrules)⟩
    have hclean : ∀ c ∈ Piece.charsAll ([.token (.atKeyword "charset"), .blank " ",
        .token (.string "UTF-8"), .token .semicolon] ++ layout.newline), Source.IsClean c :=
      fun c hc => hspells.clean c (List.mem_append_left _ hc)
    rw [if_pos rfl, Source.normalize_append_of_isClean hclean]
    simpa using hspells

/-- What is written in front of the rules leaves them as they are. -/
theorem spells_pieces {sheet : StyleSheet} {options : WriteOptions}
    (h : Spells (Piece.charsAll (Rule.piecesAll options.layout 0 sheet.rules)) (tokens ++ [.eof]))
    (hrules : Rule.Forms limit 0 tokens sheet.rules) (hhead : LacksCharset tokens) :
    ∃ front, Spells (Source.normalize (Piece.charsAll (sheet.pieces options))) (front ++ [.eof]) ∧
      Forms limit front ⟨sheet.rules, if options.emitCharset then some "UTF-8" else none⟩ := by
  unfold pieces
  dsimp only
  rw [Piece.charsAll_append]
  cases options.header with
  | none =>
    refine spells_charset ?_ hrules hhead options.layout options.emitCharset
    rwa [List.nil_append, Source.normalize_eq_self h.clean]
  | some header =>
    obtain ⟨gap, hgap, hspells⟩ := h.header_append options.layout header
    rw [← List.append_assoc] at hspells
    refine spells_charset ?_ (.of_gap hgap hrules) (hgap.lacksCharset.append hhead) options.layout
      options.emitCharset
    rwa [Piece.charsAll_append]

/-- A stylesheet that could be read from a text is read back as it is written. -/
theorem Sound.parse_serialize {sheet : StyleSheet} (h : sheet.Sound) (hunmarked : sheet.isUnmarked = true)
    (options : WriteOptions) (hmark : (sheet.serialize options).toList.head? ≠ some '\uFEFF') :
    parse (sheet.serialize options) =
      .ok ⟨sheet.rules, if options.emitCharset then some "UTF-8" else none⟩ := by
  have hback : ∀ r ∈ sheet.rules, r.ReadsBack options.layout (some nestingLimit) 0 :=
    fun r hr => (h r hr).readsBack options.layout (Rule.areUnmarked_iff.1 hunmarked r hr)
  obtain ⟨tokens, hspells, hforms, hhead⟩ := @Rule.readsBack_all _ _ _ _ _ _ hback 0 .nil
  rw [List.append_nil] at hspells
  obtain ⟨front, hall, hsheet⟩ := spells_pieces hspells hforms hhead
  refine parse_eq_ok_iff.2 ⟨front, ?_, hsheet⟩
  rw [Source.ofText, Source.dropMark_of_head hmark, serialize, Piece.toList_textAll]
  exact hall.lexes

/-- Comparing it with its own text finds no difference. -/
theorem Sound.reparse_serialize {sheet : StyleSheet} (h : sheet.Sound)
    (hunmarked : sheet.isUnmarked = true) (options : WriteOptions)
    (hmark : (sheet.serialize options).toList.head? ≠ some '\uFEFF') :
    sheet.reparse (sheet.serialize options) = .same :=
  reparse_eq_same_iff.2 ⟨_, h.parse_serialize hunmarked options hmark, rfl⟩

/-- What is written of a stylesheet that was read from a text is read back as
    the same rules. The charset is the one that is written, if any. -/
theorem parse_serialize_of_parse {text : String} {sheet : StyleSheet} (h : parse text = .ok sheet)
    (hunmarked : sheet.isUnmarked = true) (options : WriteOptions)
    (hmark : (sheet.serialize options).toList.head? ≠ some '\uFEFF') :
    parse (sheet.serialize options) =
      .ok ⟨sheet.rules, if options.emitCharset then some "UTF-8" else none⟩ :=
  (sound_of_parse h).parse_serialize hunmarked options hmark

/-- A header cannot close its comment, and a mark of importance needs no blanks. -/
theorem parse_serialize_of_parse_important :
    ∃ sheet, parse "@charset \"x\"; a > .b \x7b c: d ! important \x7d" = .ok sheet ∧
      sheet.isUnmarked = true ∧
      (sheet.serialize ⟨.minified, true, some "*/"⟩).toList.head? ≠ some '\uFEFF' ∧
      parse (sheet.serialize ⟨.minified, true, some "*/"⟩) = .ok ⟨sheet.rules, some "UTF-8"⟩ := by
  let sheet : StyleSheet :=
    ⟨[.style ⟨[⟨[.simple (.type none "a"), .combinator .child, .simple (.className "b")]⟩],
      [⟨"c", [.token (.ident "d")], true⟩]⟩], some "x"⟩
  have hread : parse "@charset \"x\"; a > .b \x7b c: d ! important \x7d" = .ok sheet :=
    eq_ok_of_toOption (by decide +kernel)
  have hunmarked : sheet.isUnmarked = true := by
    simp [sheet, isUnmarked, Rule.areUnmarked, Rule.isUnmarked, StyleRule.isUnmarked,
      Declaration.isUnmarked, Selector.isUnmarked, Member.isUnmarked, SimpleSelector.isUnmarked,
      Value.isUnmarked]
  have hmark : (sheet.serialize ⟨.minified, true, some "*/"⟩).toList.head? ≠ some '\uFEFF' := by
    rw [serialize, Piece.toList_textAll]
    simp [pieces, Token.chars]
  exact ⟨sheet, hread, hunmarked, hmark, parse_serialize_of_parse hread hunmarked _ hmark⟩

end StyleSheet

end DeepScope
