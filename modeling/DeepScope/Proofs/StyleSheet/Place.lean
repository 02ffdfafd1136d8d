import DeepScope.Proofs.Script.Place
import DeepScope.Proofs.StyleSheet.Lookahead
import DeepScope.Proofs.Token.Fault

namespace DeepScope

/-- Whether an error is at a place of a text that is ready to be read. If the text
    can be read into tokens, that is the place of one of them. If not, it is one
    behind the last token that can be read. -/
def Error.IsIn (text : List Char) : Error → Prop
  | .encoding _ => False
  | .lexical position reason => ∃ slices more back,
    Slice.textAll slices ++ (more ++ back) = text ∧ Slice.Leads [] slices (more ++ back) ∧
    (Cursor.ofChars text).items =
      slices.map (fun slice => .ok slice.item) ++ [.error (position, reason)] ∧
    position = Position.behind (Slice.textAll slices ++ more)
  | .grammar position _ => ∃ items item front back,
    collect (Cursor.ofChars text).items = .ok items ∧ item ∈ items ∧ item.position = position ∧
    front ++ back = text ∧ position = Position.behind front

theorem Position.one_le_behind (text : List Char) :
    1 ≤ (behind text).line ∧ 1 ≤ (behind text).column :=
  ⟨Nat.le_add_right 1 _, Nat.le_add_right 1 _⟩

namespace Error.IsIn

variable {text : List Char} {e : Error}

/-- Lines and columns are counted from one. -/
theorem one_le (h : e.IsIn text) :
    ∃ position, e.position = some position ∧ 1 ≤ position.line ∧ 1 ≤ position.column := by
  cases e with
  | encoding => exact h.elim
  | lexical position reason =>
    obtain ⟨slices, more, back, -, -, -, rfl⟩ := h
    exact ⟨_, rfl, Position.one_le_behind _⟩
  | grammar position reason =>
    obtain ⟨items, item, front, back, -, -, -, -, rfl⟩ := h
    exact ⟨_, rfl, Position.one_le_behind _⟩

end Error.IsIn

namespace StyleSheet

open Script

/-- What is wrong with the tokens of a list is reported at one of them. -/
theorem exists_of_ofTokens_error {items : List Located} {e : Error} (hne : items ≠ [])
    (h : ofTokens items = .error e) :
    ∃ item ∈ items, ∃ reason, e = .grammar item.position reason := by
  obtain ⟨first, rest, rfl⟩ := List.exists_cons_of_ne_nil hne
  have hwithin : (Reader.ofTokens (first :: rest)).Within
      (fun p => ∃ item ∈ first :: rest, item.position = p) :=
    ⟨⟨first, List.mem_cons_self, rfl⟩, fun item hitem => ⟨item, hitem, rfl⟩⟩
  have hrun := (reports_styleSheet ((first :: rest).length + 1)).run (some nestingLimit) 0 hwithin
  rw [ofTokens_eq_run (Nat.lt_succ_self _)] at h
  revert h hrun
  cases (styleSheet ((first :: rest).length + 1)).run (some nestingLimit) 0
      (Reader.ofTokens (first :: rest)) with
  | ok pair => exact fun h => nomatch h
  | error failure =>
    rintro ⟨⟩ ⟨item, hitem, hposition⟩
    exact ⟨item, hitem, failure.reason, by rw [hposition]; rfl⟩

/-- A text that cannot be read as a stylesheet is at fault at one of its own places,
    in a line and a column that are counted from one. -/
theorem isIn_of_parse_error {text : String} {e : Error} (h : parse text = .error e) :
    e.IsIn (Source.ofText text) ∧
      ∃ position, e.position = some position ∧ 1 ≤ position.line ∧ 1 ≤ position.column := by
  have hstart : (Cursor.ofChars (Source.ofText text)).position = Position.behind [] := rfl
  suffices hin : e.IsIn (Source.ofText text) from ⟨hin, hin.one_le⟩
  rw [parse, parseNoted] at h
  cases htokenize : tokenize text with
  | error fault =>
    obtain ⟨position, reason⟩ := fault
    rw [htokenize] at h
    cases h
    obtain ⟨slices, more, back, hleads, htext, hitems, hplace⟩ := Cursor.exists_leads hstart htokenize
    exact ⟨slices, more, back, htext, hleads, hitems, hplace⟩
  | ok items =>
    rw [htokenize] at h
    obtain ⟨slices, rfl, htext, hcovers⟩ := Cursor.exists_covers hstart htokenize
    have hne : slices.map Slice.item ≠ [] := by
      cases hcovers <;> exact nofun
    obtain ⟨item, hitem, reason, rfl⟩ := exists_of_ofTokens_error hne h
    obtain ⟨slice, hslice, rfl⟩ := List.mem_map.1 hitem
    obtain ⟨front, back, hfront, hplace⟩ := hcovers.exists_position slice hslice
    exact ⟨_, _, front, back, htokenize, hitem, rfl, hfront.trans htext, hplace⟩

/-- A comment without an end, behind a line end, and a brace in a line that has one too
    many. -/
theorem isIn_of_parse_error_lines :
    parse "a\r\n /*" = .error (.lexical ⟨2, 2⟩ .unclosedComment) ∧
      (Error.lexical ⟨2, 2⟩ .unclosedComment).IsIn (Source.ofText "a\r\n /*") ∧
    parse "@a;\n \x7d" = .error (.grammar ⟨2, 2⟩ .strayBrace) ∧
      (Error.grammar ⟨2, 2⟩ .strayBrace).IsIn (Source.ofText "@a;\n \x7d") := by
  have hcomment : parse "a\r\n /*" = .error (.lexical ⟨2, 2⟩ .unclosedComment) :=
    eq_error_of_match (by decide +kernel)
  have hbrace : parse "@a;\n \x7d" = .error (.grammar ⟨2, 2⟩ .strayBrace) :=
    eq_error_of_match (by decide +kernel)
  exact ⟨hcomment, (isIn_of_parse_error hcomment).1, hbrace, (isIn_of_parse_error hbrace).1⟩

end StyleSheet

end DeepScope
