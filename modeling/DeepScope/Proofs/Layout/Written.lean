import DeepScope.Layout.Piece
import DeepScope.Proofs.Token.Boundary

namespace DeepScope

namespace Piece

/-- The characters of a sequence of pieces. -/
def charsAll (pieces : List Piece) : List Char :=
  pieces.flatMap fun piece => piece.text.toList

@[simp] theorem charsAll_nil : charsAll [] = [] := rfl

@[simp] theorem charsAll_append (front back : List Piece) :
    charsAll (front ++ back) = charsAll front ++ charsAll back :=
  List.flatMap_append

@[simp] theorem charsAll_token (t : Token) (rest : List Piece) :
    charsAll (.token t :: rest) = t.chars ++ charsAll rest := by
  simp [charsAll, text, Token.text]

@[simp] theorem charsAll_blank (blank : String) (rest : List Piece) :
    charsAll (.blank blank :: rest) = blank.toList ++ charsAll rest := rfl

@[simp] theorem charsAll_comment (comment : String) (rest : List Piece) :
    charsAll (.comment comment :: rest) =
      '/' :: '*' :: (comment.toList ++ '*' :: '/' :: charsAll rest) := by
  simp [charsAll, text]

theorem toList_textAll (pieces : List Piece) : (textAll pieces).toList = charsAll pieces := by
  induction pieces with
  | nil => rfl
  | cons piece rest ih =>
    rw [textAll] at ih ⊢
    rw [List.map_cons, String.join_cons, String.toList_append, ih]
    rfl

/-- The tokens of written pieces, with one white space for each blank. -/
def tokensAll (pieces : List Piece) : List Token :=
  pieces.flatMap fun
    | .token t => [t]
    | .blank _ => [.whitespace]
    | .comment _ => []

@[simp] theorem tokensAll_nil : tokensAll [] = [] := rfl

@[simp] theorem tokensAll_append (front back : List Piece) :
    tokensAll (front ++ back) = tokensAll front ++ tokensAll back :=
  List.flatMap_append

@[simp] theorem tokensAll_token (t : Token) (rest : List Piece) :
    tokensAll (.token t :: rest) = t :: tokensAll rest := rfl

@[simp] theorem tokensAll_blank (blank : String) (rest : List Piece) :
    tokensAll (.blank blank :: rest) = .whitespace :: tokensAll rest := rfl

@[simp] theorem tokensAll_comment (comment : String) (rest : List Piece) :
    tokensAll (.comment comment :: rest) = tokensAll rest := rfl

end Piece

namespace Layout

variable {c : Char}

theorem isBlank_of_mem_space (layout : Layout) (h : c ∈ Piece.charsAll layout.space) :
    isBlank c = true := by
  cases layout with
  | pretty =>
    obtain rfl := List.mem_singleton.1 h
    rfl
  | minified => cases h

theorem isBlank_of_mem_newline (layout : Layout) (h : c ∈ Piece.charsAll layout.newline) :
    isBlank c = true := by
  cases layout with
  | pretty =>
    obtain rfl := List.mem_singleton.1 h
    rfl
  | minified => cases h

theorem isBlank_of_mem_indent (layout : Layout) (depth : Nat)
    (h : c ∈ Piece.charsAll (layout.indent depth)) : isBlank c = true := by
  cases layout with
  | pretty =>
    rw [indent, onlyPretty, Piece.charsAll_blank, Piece.charsAll_nil, List.append_nil,
      String.toList_ofList] at h
    rw [List.eq_of_mem_replicate h]
    rfl
  | minified => cases h

end Layout

/-- What blanks between two tokens are read as. -/
inductive IsGap : List Token → Prop where
  | none : IsGap []
  | blank : IsGap [.whitespace]

/-- A blank that only the pretty layout has is a gap. -/
theorem Layout.isGap_space (layout : Layout) : IsGap (Piece.tokensAll layout.space) := by
  cases layout with
  | pretty => exact .blank
  | minified => exact .none

namespace Lexes

variable {more : List Char} {tokens : List Token}

/-- Blanks are one white space together with the blanks behind them. -/
theorem blanks_append {blanks : List Char} (hblanks : ∀ c ∈ blanks, isBlank c = true)
    (hne : blanks ≠ []) (h : Lexes more tokens) :
    Lexes (blanks ++ more) (.whitespace :: dropBlank tokens) := by
  induction blanks with
  | nil => exact absurd rfl hne
  | cons c blanks ih =>
    have hc := hblanks c List.mem_cons_self
    by_cases hnil : blanks = []
    · rw [hnil]
      exact (cons_blank_iff hc).2 ⟨tokens, h, rfl⟩
    · have hrest := ih (fun d hd => hblanks d (List.mem_cons_of_mem c hd)) hnil
      exact (cons_blank_iff hc).2 ⟨_, hrest, rfl⟩

/-- Blanks that may be missing add a white space at most. -/
theorem gap_append {blanks : List Char} (hblanks : ∀ c ∈ blanks, isBlank c = true)
    (h : Lexes more tokens) : ∃ gap, IsGap gap ∧ Lexes (blanks ++ more) (gap ++ tokens) := by
  by_cases hne : blanks = []
  · exact ⟨[], .none, by rwa [hne]⟩
  · have hlexes := h.blanks_append hblanks hne
    rcases dropBlank_cases tokens with heq | heq
    · rw [heq] at hlexes
      exact ⟨[.whitespace], .blank, hlexes⟩
    · rw [← heq] at hlexes
      exact ⟨[], .none, hlexes⟩

end Lexes

end DeepScope
