import DeepScope.Proofs.StyleSheet.Charset
import DeepScope.Proofs.StyleSheet.Header

namespace DeepScope

/-- Behind the header the rest of the text is read as before, but for the end of
    the line that the pretty layout puts there. -/
theorem lexes_headerPieces_iff (layout : Layout) (header : String) (more : List Char)
    (tokens : List Token) :
    Lexes (Source.normalize (Piece.charsAll (headerPieces layout header) ++ more)) tokens ↔
      Lexes (Piece.charsAll layout.newline ++ Source.normalize more) tokens := by
  obtain ⟨comment, hcomment, htext⟩ := normalize_headerPieces layout header more
  rw [htext, Lexes.comment_append_iff hcomment.sizeToClose_eq_none]

namespace Lexes

variable {layout : Layout} {text : List Char} {tokens : List Token}

/-- The end of a line that the pretty layout puts in front of a text is white
    space, together with the blanks that are there already. -/
theorem newline_pretty_iff :
    Lexes (Piece.charsAll Layout.pretty.newline ++ text) tokens ↔
      ∃ others, Lexes text others ∧ tokens = .whitespace :: dropBlank others :=
  cons_blank_iff rfl

/-- Two ends of lines are read as one. -/
theorem newline_newline_iff :
    Lexes (Piece.charsAll layout.newline ++ (Piece.charsAll layout.newline ++ text)) tokens ↔
      Lexes (Piece.charsAll layout.newline ++ text) tokens := by
  cases layout with
  | minified => rfl
  | pretty =>
    constructor
    · intro h
      obtain ⟨inner, hinner, rfl⟩ := newline_pretty_iff.1 h
      obtain ⟨others, hothers, rfl⟩ := newline_pretty_iff.1 hinner
      exact newline_pretty_iff.2 ⟨others, hothers, rfl⟩
    · intro h
      obtain ⟨others, -, rfl⟩ := newline_pretty_iff.1 h
      exact newline_pretty_iff.2 ⟨_, h, rfl⟩

theorem newline_congr {other : List Char} (h : ∀ tokens, Lexes text tokens ↔ Lexes other tokens) :
    Lexes (Piece.charsAll layout.newline ++ text) tokens ↔
      Lexes (Piece.charsAll layout.newline ++ other) tokens := by
  cases layout with
  | minified => exact h tokens
  | pretty => simp only [newline_pretty_iff, h]

end Lexes

namespace StyleSheet

variable {limit : Option Nat} {tokens : List Token} {sheet : StyleSheet}

/-- White space in front of a stylesheet hides no charset rule where there is
    none, and is dropped in front of its rules. -/
theorem forms_blank_iff (hhead : tokens.head? ≠ some (.atKeyword "charset")) :
    Forms limit (.whitespace :: dropBlank tokens) sheet ↔ Forms limit tokens sheet := by
  have hrules : ∀ {rules}, Rule.Forms limit 0 (dropBlank tokens) rules ↔
      Rule.Forms limit 0 tokens rules := by
    intro rules
    rcases dropBlank_cases tokens with heq | heq
    · rw [heq]
    · rw [heq]
      exact ⟨.blank, .of_blank⟩
  constructor
  · intro h
    cases h with
    | plain _ h => exact .plain hhead (hrules.1 h.of_blank)
  · intro h
    cases h with
    | plain _ h => exact .plain (by simp) (.blank (hrules.2 h))
    | charset => exact absurd rfl hhead

theorem dropBlank_append_eof (tokens : List Token) :
    dropBlank (tokens ++ [.eof]) = dropBlank tokens ++ [.eof] := by
  cases tokens with
  | nil => rfl
  | cons t rest => cases t <;> rfl

/-- The end of a line in front of a text makes no difference to the stylesheet,
    unless a charset rule begins the text. -/
theorem exists_forms_newline_iff (layout : Layout) {text : List Char}
    (hhead : ∀ tokens, Lexes text (tokens ++ [.eof]) → tokens.head? ≠ some (.atKeyword "charset")) :
    (∃ tokens, Lexes (Piece.charsAll layout.newline ++ text) (tokens ++ [.eof]) ∧
        Forms limit tokens sheet) ↔
      ∃ tokens, Lexes text (tokens ++ [.eof]) ∧ Forms limit tokens sheet := by
  cases layout with
  | minified => rfl
  | pretty =>
    constructor
    · rintro ⟨tokens, hlexes, hforms⟩
      obtain ⟨others, hothers, heq⟩ := Lexes.newline_pretty_iff.1 hlexes
      obtain ⟨front, rfl, -⟩ := hothers.exists_append_eof
      rw [dropBlank_append_eof, ← List.cons_append] at heq
      obtain rfl := List.append_cancel_right heq
      exact ⟨front, hothers, (forms_blank_iff (hhead front hothers)).1 hforms⟩
    · rintro ⟨tokens, hlexes, hforms⟩
      refine ⟨.whitespace :: dropBlank tokens, Lexes.newline_pretty_iff.2 ⟨_, hlexes, ?_⟩, ?_⟩
      · rw [dropBlank_append_eof, List.cons_append]
      · exact (forms_blank_iff (hhead tokens hlexes)).2 hforms

/-- Texts with the same stylesheets, if any, are read as the same one. -/
theorem toOption_parse_eq {first second : String}
    (h : ∀ sheet, parse first = .ok sheet ↔ parse second = .ok sheet) :
    (parse first).toOption = (parse second).toOption := by
  refine Option.ext fun sheet => ?_
  have hok : ∀ text, (parse text).toOption = some sheet ↔ parse text = .ok sheet := by
    intro text
    cases parse text <;> simp [Except.toOption]
  rw [hok, hok]
  exact h sheet

/-- The text of the rules alone. -/
def rulesText (sheet : StyleSheet) (layout : Layout) : List Char :=
  Piece.charsAll (Rule.piecesAll layout 0 sheet.rules)

theorem charsAll_pieces (sheet : StyleSheet) (layout : Layout) (emitCharset : Bool)
    (header : Option String) :
    Piece.charsAll (sheet.pieces ⟨layout, emitCharset, header⟩) =
      (if emitCharset then charsetText ++ Piece.charsAll layout.newline else []) ++
        (Piece.charsAll (header.elim [] (headerPieces layout)) ++ sheet.rulesText layout) := by
  rw [pieces, Piece.charsAll_append, Piece.charsAll_append]
  congr 1
  · cases emitCharset with
    | false => rfl
    | true =>
      rw [if_pos rfl, if_pos rfl, Piece.charsAll_append]
      rfl
  · cases header <;> rfl

/-- The text with a charset, ready to be read. -/
theorem ofText_serialize_charset (sheet : StyleSheet) (layout : Layout) (header : Option String) :
    Source.ofText (sheet.serialize ⟨layout, true, header⟩) =
      charsetText ++ (Piece.charsAll layout.newline ++ Source.normalize
        (Piece.charsAll (header.elim [] (headerPieces layout)) ++ sheet.rulesText layout)) := by
  have hclean : ∀ c ∈ Piece.charsAll layout.newline, Source.IsClean c := fun c hc =>
    Source.isClean_of_isBlank (layout.isBlank_of_mem_newline hc)
  rw [Source.ofText, serialize, Piece.toList_textAll, charsAll_pieces, if_pos rfl,
    List.append_assoc, Source.normalize_charsetText, Source.normalize_append_of_isClean hclean]

/-- The text without a charset, ready to be read. -/
theorem ofText_serialize_plain (sheet : StyleSheet) (layout : Layout) (header : Option String)
    (hmark : (sheet.serialize ⟨layout, false, header⟩).toList.head? ≠ some '\uFEFF') :
    Source.ofText (sheet.serialize ⟨layout, false, header⟩) = Source.normalize
      (Piece.charsAll (header.elim [] (headerPieces layout)) ++ sheet.rulesText layout) := by
  rw [Source.ofText, Source.dropMark_of_head hmark, serialize, Piece.toList_textAll, charsAll_pieces]
  rfl

/-- With a charset in front the header adds no token at all. -/
theorem lexes_serialize_header_iff (sheet : StyleSheet) (layout : Layout) (header : String) :
    Lexes (Source.ofText (sheet.serialize ⟨layout, true, some header⟩)) tokens ↔
      Lexes (Source.ofText (sheet.serialize ⟨layout, true, none⟩)) tokens := by
  have hbehind : ∀ tokens,
      Lexes (Piece.charsAll layout.newline ++ Source.normalize
          (Piece.charsAll (headerPieces layout header) ++ sheet.rulesText layout)) tokens ↔
        Lexes (Piece.charsAll layout.newline ++ Source.normalize (sheet.rulesText layout)) tokens :=
    fun tokens =>
      (Lexes.newline_congr (lexes_headerPieces_iff layout header _)).trans Lexes.newline_newline_iff
  have hplain : Source.ofText (sheet.serialize ⟨layout, true, none⟩) = charsetText ++
      (Piece.charsAll layout.newline ++ Source.normalize (sheet.rulesText layout)) :=
    ofText_serialize_charset sheet layout none
  rw [hplain, ofText_serialize_charset, Lexes.charsetText_append_iff, Lexes.charsetText_append_iff]
  simp only [Option.elim_some, hbehind]

/-- A header makes no difference to what is read: the stylesheet is the same, or
    there is none with the header and without it. Without a charset in front
    this takes a text that begins neither with a byte order mark nor with a
    charset rule of its own, since the header would hide these. -/
theorem parse_serialize_header (sheet : StyleSheet) (layout : Layout) (emitCharset : Bool)
    (header : String) (h : emitCharset = true ∨
      (sheet.serialize ⟨layout, emitCharset, none⟩).toList.head? ≠ some '\uFEFF' ∧
        ∀ items, tokenize (sheet.serialize ⟨layout, emitCharset, none⟩) = .ok items →
          (items.map Located.token).head? ≠ some (.atKeyword "charset")) :
    (parse (sheet.serialize ⟨layout, emitCharset, some header⟩)).toOption =
      (parse (sheet.serialize ⟨layout, emitCharset, none⟩)).toOption := by
  refine toOption_parse_eq fun read => ?_
  rw [parse_eq_ok_iff, parse_eq_ok_iff]
  cases emitCharset with
  | true => simp only [lexes_serialize_header_iff]
  | false =>
    obtain ⟨hmark, hfirst⟩ := h.resolve_left Bool.false_ne_true
    have hheaded : (sheet.serialize ⟨layout, false, some header⟩).toList.head? ≠ some '\uFEFF' := by
      obtain ⟨comment, -, htext⟩ := charsAll_headerPieces layout header
      rw [serialize, Piece.toList_textAll, charsAll_pieces]
      simp [htext]
    have hplain : Source.ofText (sheet.serialize ⟨layout, false, none⟩) =
        Source.normalize (sheet.rulesText layout) :=
      ofText_serialize_plain sheet layout none hmark
    have hhead : ∀ tokens, Lexes (Source.normalize (sheet.rulesText layout)) (tokens ++ [.eof]) →
        tokens.head? ≠ some (.atKeyword "charset") := by
      intro tokens hlexes hcharset
      rw [← hplain] at hlexes
      obtain ⟨items, hread, hitems⟩ := tokenize_iff.2 hlexes
      refine hfirst items hread ?_
      rw [hitems, List.head?_append, hcharset]
      rfl
    rw [ofText_serialize_plain sheet layout _ hheaded, hplain]
    simp only [Option.elim_some, lexes_headerPieces_iff]
    exact exists_forms_newline_iff layout hhead

/-- A header that would end its comment twice, on lines that end in different
    ways, in front of an import. -/
theorem parse_serialize_header_import :
    let sheet : StyleSheet := ⟨[.statement "import" [.token (.string "a")]], none⟩
    (parse (sheet.serialize ⟨.pretty, false, some "*/\r*\r\n/\x00*/"⟩)).toOption = some sheet ∧
      (parse (sheet.serialize ⟨.pretty, false, some "*/\r*\r\n/\x00*/"⟩)).toOption =
        (parse (sheet.serialize ⟨.pretty, false, none⟩)).toOption := by
  intro sheet
  have htext : sheet.serialize ⟨.pretty, false, none⟩ = "@import \"a\";\n" := by
    refine String.toList_injective ?_
    rw [serialize, Piece.toList_textAll]
    simp only [sheet, pieces, Rule.piecesAll, Rule.pieces, preludePieces, Value.flatten]
    rfl
  have hread : (parse (sheet.serialize ⟨.pretty, false, none⟩)).toOption = some sheet := by
    rw [htext]
    decide +kernel
  have hmark : (sheet.serialize ⟨.pretty, false, none⟩).toList.head? ≠ some '\uFEFF' := by
    rw [htext]
    decide
  have hfirst : (tokenize (sheet.serialize ⟨.pretty, false, none⟩)).toOption.bind
      (fun items => (items.map Located.token).head?) = some (.atKeyword "import") := by
    rw [htext]
    decide +kernel
  have hsame := parse_serialize_header sheet .pretty false "*/\r*\r\n/\x00*/"
    (.inr ⟨hmark, fun items hitems => by
      rw [hitems] at hfirst
      rw [show (items.map Located.token).head? = _ from hfirst]
      decide⟩)
  exact ⟨hsame.trans hread, hsame⟩

end StyleSheet

end DeepScope
