import DeepScope.Proofs.Layout.Spells
import DeepScope.Proofs.Pieces
import DeepScope.StyleSheet.Writer

namespace DeepScope

theorem head?_breakCommentEnds (text : List Char) :
    (breakCommentEnds text).head? = text.head? := by
  unfold breakCommentEnds
  split <;> rfl

theorem unclosing_breakCommentEnds (text : List Char) : Unclosing (breakCommentEnds text) := by
  fun_induction breakCommentEnds text with
  | case1 rest ih => exact ((ih.cons (.inl (by decide))).cons (.inl (by decide))).cons (.inr (by simp))
  | case2 c rest hpair ih =>
    refine ih.cons (Decidable.not_and_iff_not_or_not.1 ?_)
    rintro ⟨hstar, hslash⟩
    rw [head?_breakCommentEnds] at hslash
    obtain ⟨tail, rfl⟩ := List.head?_eq_some_iff.1 hslash
    exact hpair tail hstar rfl
  | case3 => exact .nil

/-- A line of a text is a stretch of it. -/
theorem infix_of_mem_textLines {text line : List Char} (h : line ∈ textLines text) :
    line <:+: text := by
  have hpieces := (splitOn_stretches (· = '\n') text).2
  have hended : ∀ line ∈ (splitOn (· = '\n') text).dropLast.map textLines.dropReturn,
      line <:+: text := by
    intro line hline
    obtain ⟨piece, hpiece, rfl⟩ := List.mem_map.1 hline
    have hprefix : textLines.dropReturn piece <+: piece := by
      unfold textLines.dropReturn
      split
      · exact List.dropLast_prefix piece
      · exact List.prefix_rfl
    exact hprefix.isInfix.trans (hpieces piece (List.dropLast_subset _ hpiece))
  unfold textLines at h
  dsimp only at h
  split at h
  · exact hended line h
  · exact hended line h
  · next last _ hlast =>
    rcases List.mem_append.1 h with h | h
    · exact hended line h
    · rw [List.mem_singleton.1 h]
      exact hpieces last (List.mem_of_mem_getLast? hlast)

/-- The header is one comment, with the end of a line behind it in the pretty
    layout. -/
theorem charsAll_headerPieces (layout : Layout) (header : String) :
    ∃ comment, Unclosing comment ∧ Piece.charsAll (headerPieces layout header) =
      '/' :: '*' :: (comment ++ '*' :: '/' :: Piece.charsAll layout.newline) := by
  have htext := unclosing_breakCommentEnds header.toList
  cases layout with
  | minified =>
    refine ⟨' ' :: (breakCommentEnds header.toList ++ [' ']), ?_,
      by simp [headerPieces, Layout.newline, Layout.onlyPretty]⟩
    exact (htext.append (.singleton ' ') (.inr (by simp))).cons (.inl (by decide))
  | pretty =>
    have hlines : ∀ {lines : List (List Char)}, (∀ line ∈ lines, Unclosing line) →
        Unclosing ((lines.flatMap fun line => [' ', '*', ' '] ++ line ++ ['\n']) ++ [' ']) := by
      intro lines hlines
      induction lines with
      | nil => exact .singleton ' '
      | cons line rest ih =>
        have hrest := ih fun l hl => hlines l (List.mem_cons_of_mem line hl)
        have hstart : Unclosing [' ', '*', ' '] := by simp [Unclosing]
        have hline := (hstart.append (hlines line List.mem_cons_self) (.inl (by simp))).append
          (.singleton '\n') (.inr (by simp))
        rw [List.flatMap_cons, List.append_assoc]
        exact hline.append hrest (.inl (by rw [List.getLast?_concat]; decide))
    have heach : ∀ line ∈ textLines (breakCommentEnds header.toList), Unclosing line := by
      intro line hline
      obtain ⟨front, back, heq⟩ := infix_of_mem_textLines hline
      rw [← heq] at htext
      exact htext.left_of_append.right_of_append
    have hall := hlines heach
    exact ⟨'\n' :: (((textLines (breakCommentEnds header.toList)).flatMap fun line =>
      [' ', '*', ' '] ++ line ++ ['\n']) ++ [' ']), hall.cons (.inl (by decide)),
      by simp [headerPieces, Layout.newline, Layout.onlyPretty]⟩

/-- Behind the header, made ready to be read, there is nothing but what follows
    it. -/
theorem normalize_headerPieces (layout : Layout) (header : String) (more : List Char) :
    ∃ comment, Unclosing comment ∧
      Source.normalize (Piece.charsAll (headerPieces layout header) ++ more) =
        '/' :: '*' :: (comment ++ '*' :: '/' ::
          (Piece.charsAll layout.newline ++ Source.normalize more)) := by
  obtain ⟨comment, hcomment, htext⟩ := charsAll_headerPieces layout header
  have hclean : ∀ c ∈ Piece.charsAll layout.newline, Source.IsClean c := fun c hc =>
    Source.isClean_of_isBlank (layout.isBlank_of_mem_newline hc)
  refine ⟨Source.normalize comment, hcomment.normalize, ?_⟩
  rw [htext, List.cons_append, List.cons_append, List.append_assoc, List.cons_append,
    List.cons_append, Source.normalize_comment, Source.normalize_append_of_isClean hclean]

namespace Spells

variable {more : List Char} {tokens : List Token}

/-- The header adds a white space at most. -/
theorem header_append (h : Spells more tokens) (layout : Layout) (header : String) :
    ∃ gap, IsGap gap ∧ Spells (Source.normalize
      (Piece.charsAll (headerPieces layout header) ++ more)) (gap ++ tokens) := by
  obtain ⟨comment, hcomment, htext⟩ := normalize_headerPieces layout header more
  rw [Source.normalize_eq_self h.clean] at htext
  obtain ⟨gap, hgap, hbehind⟩ := h.lexes.gap_append (fun c => layout.isBlank_of_mem_newline)
  refine ⟨gap, hgap, Source.isClean_of_mem_normalize, ?_⟩
  rw [htext]
  exact (Lexes.comment_append_iff hcomment.sizeToClose_eq_none).2 hbehind

end Spells

end DeepScope
