import DeepScope.Proofs.Layout.Spells

namespace DeepScope

namespace Token

/-- Two tokens that can be neighbors in a row. A function that reads an address
    has one in quotes, white space is no neighbor of white space, and no mark of
    an old comment is put together from two tokens. -/
structure Beside (prev next : Token) : Prop where
  url : prev.opensUrl = true → ∃ text, next = .string text
  blank : prev = .whitespace → next ≠ .whitespace
  mark : ¬(prev = .delim '<' ∧ next = .delim '!')
  hides : ¬(prev = .ident "--" ∧ next = .delim '>')

theorem Beside.joins {prev next : Token} (h : prev.Beside next) (hclose : next ≠ .commentClose) :
    prev.Joins next := by
  refine ⟨h.url, h.blank, fun hhides => ?_, h.mark⟩
  unfold HidesMerge at hhides
  split at hhides
  · obtain ⟨rfl, rfl⟩ := hhides
    exact h.hides ⟨rfl, rfl⟩
  · exact hclose rfl
  · exact hclose rfl
  · exact hhides

/-- A row of tokens that can be written: each of them is yielded by some text,
    none is the end or the mark that closes an old comment, and no byte order
    mark stands up front. -/
structure Row (tokens : List Token) : Prop where
  emitted : ∀ t ∈ tokens, t.Emitted
  inner : ∀ t ∈ tokens, t ≠ .eof ∧ t ≠ .commentClose
  beside : List.IsChain Beside tokens
  last : ∀ t ∈ tokens.getLast?, t.opensUrl = false
  unmarked : ∀ t ∈ tokens.head?, t.text.toList.head? ≠ some '\uFEFF'

end Token

namespace Layout

variable {tokens : List Token}

theorem lexes_row (layout : Layout) (h : Token.Row tokens) :
    ∃ spread, Lexes (Piece.charsAll (layout.tokens tokens)) (spread ++ [.eof]) ∧
      Spread tokens spread ∧ (layout = .minified → spread = tokens) := by
  cases tokens with
  | nil => exact ⟨[], Lexes.nil, .nil, fun _ => rfl⟩
  | cons first rest =>
    have hlegible : ∀ t ∈ first :: rest, t.Legible ∧ t ≠ .eof := fun t ht =>
      ⟨(h.emitted t ht).legible, (h.inner t ht).1⟩
    have hjoins : List.IsChain Token.Joins (first :: rest) :=
      h.beside.imp_of_mem_imp fun _ next _ hnext hbeside => hbeside.joins (h.inner next hnext).2
    have hends : ∀ t ∈ (first :: rest).getLast?, t.Ends [] := fun t ht =>
      Token.ends_nil (hlegible t (List.mem_of_getLast? ht)).1 (h.last t ht)
    obtain ⟨text, spread, htext, hfirst, hlexes, hspread, hminified⟩ :=
      layout.lexes_tokens hlegible hjoins hends Lexes.nil
    rw [List.append_nil] at htext
    obtain ⟨hlegibleFirst, hne⟩ := hlegible first List.mem_cons_self
    refine ⟨first :: spread, ?_, hspread, fun hlayout => by rw [hminified hlayout]⟩
    rw [htext]
    exact .cons_chars hlegibleFirst hne hfirst hlexes

/-- The first token of a row is written first. -/
theorem head?_tokens (layout : Layout) {first : Token} {rest : List Token}
    (h : first.chars ≠ []) :
    (Piece.charsAll (layout.tokens (first :: rest))).head? = first.chars.head? := by
  have happend : ∀ back, (first.chars ++ back).head? = first.chars.head? := fun back => by
    rw [List.head?_append, Option.or_of_isSome (List.isSome_head?.2 h)]
  cases rest <;>
    · rw [Layout.tokens, Piece.charsAll_token]
      exact happend _

/-- The text of a row is read as it stands. -/
theorem ofText_row (layout : Layout) (h : Token.Row tokens) :
    Source.ofText (Piece.textAll (layout.tokens tokens)) =
      Piece.charsAll (layout.tokens tokens) := by
  rw [← String.ofList_toList (s := Piece.textAll _), Piece.toList_textAll]
  refine Source.ofText_ofList
    (fun c => layout.isClean_of_mem_tokens fun t ht => (h.emitted t ht).legible) ?_
  cases tokens with
  | nil => nofun
  | cons first rest =>
    have hlegible := (h.emitted first List.mem_cons_self).legible
    have hmark := h.unmarked first rfl
    rw [Token.text, String.toList_ofList] at hmark
    rwa [layout.head?_tokens (Token.chars_ne_nil hlegible (h.inner first List.mem_cons_self).1)]

theorem tokenize_row (layout : Layout) (h : Token.Row tokens) :
    ∃ spread, (tokenize (Piece.textAll (layout.tokens tokens))).map (List.map Located.token) =
        .ok (spread ++ [.eof]) ∧
      Spread tokens spread ∧ (layout = .minified → spread = tokens) := by
  obtain ⟨spread, hlexes, hspread⟩ := layout.lexes_row h
  rw [← layout.ofText_row h] at hlexes
  obtain ⟨items, hread, hitems⟩ := tokenize_iff.2 hlexes
  refine ⟨spread, ?_, hspread⟩
  rw [hread, ← hitems]
  rfl

/-- Separators between neighbors are enough: what is written for a row is read as
    the row, in the pretty layout with white space behind some of the commas. -/
theorem tokenize_tokens (h : Token.Row tokens) :
    (tokenize (Piece.textAll (Layout.minified.tokens tokens))).map (List.map Located.token) =
        .ok (tokens ++ [.eof]) ∧
      ∃ spread, Spread tokens spread ∧
        (tokenize (Piece.textAll (Layout.pretty.tokens tokens))).map (List.map Located.token) =
          .ok (spread ++ [.eof]) := by
  obtain ⟨short, hshort, -, heq⟩ := Layout.minified.tokenize_row h
  obtain ⟨spread, hpretty, hspread, -⟩ := Layout.pretty.tokenize_row h
  rw [heq rfl] at hshort
  exact ⟨hshort, spread, hspread, hpretty⟩

/-- An at sign in front of a name that begins with a hyphen, a comma, and a sign
    in front of a point and a digit. -/
theorem tokenize_tokens_signs :
    let tokens := [Token.delim '@', .delim '-', .ident "a", .comma, .delim '+', .delim '.',
      .number ⟨"5", .integer⟩]
    Token.Row tokens ∧
      (tokenize (Piece.textAll (Layout.minified.tokens tokens))).map (List.map Located.token) =
        .ok (tokens ++ [.eof]) := by
  intro tokens
  have hlegible : ∀ t ∈ tokens, t.Legible := by
    simp only [tokens, List.forall_mem_cons]
    exact ⟨show IsDelim '@' by decide, show IsDelim '-' by decide, show IsName "a" by decide, trivial,
      show IsDelim '+' by decide, show IsDelim '.' by decide,
      Numeral.proper_read (show Numeral.starts ['5'] = true from rfl), nofun⟩
  have hplain : ∀ t ∈ tokens, t ≠ .eof ∧ t.opensUrl = false ∧ t.text.toList.head? ≠ some '\uFEFF' ∧
      t ≠ .commentClose ∧ t ≠ .whitespace ∧ t ≠ .delim '<' ∧ t ≠ .ident "--" := by
    decide
  have hbeside : List.IsChain Token.Beside tokens := by
    refine (List.pairwise_of_forall_mem_list fun prev hprev next _ => ?_).isChain
    obtain ⟨-, hurl, -, -, hblank, hmark, hdashes⟩ := hplain prev hprev
    exact ⟨fun h => absurd (hurl.symm.trans h) Bool.false_ne_true, fun h => absurd h hblank,
      fun hboth => hmark hboth.1, fun hboth => hdashes hboth.1⟩
  have hrow : Token.Row tokens := by
    refine ⟨fun t ht => ?_, fun t ht => ?_, hbeside, by decide, by decide⟩
    · obtain ⟨hend, hurl, hhead, -⟩ := hplain t ht
      exact Token.emitted_of_legible (hlegible t ht) hend hurl hhead
    · exact ⟨(hplain t ht).1, (hplain t ht).2.2.2.1⟩
  exact ⟨hrow, (tokenize_tokens hrow).1⟩

end Layout

end DeepScope
