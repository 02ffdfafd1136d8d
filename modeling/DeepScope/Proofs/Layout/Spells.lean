import DeepScope.Proofs.Selector.Written
import DeepScope.Proofs.Token.Clean

namespace DeepScope

open Value (ReadsAs Gathers Alike)

theorem isSeparator_of_isBlank {c : Char} (h : isBlank c = true) : isSeparator c = true := by
  simp only [isBlank, Bool.or_eq_true, decide_eq_true_eq] at h
  rcases h with (rfl | rfl) | rfl <;> rfl

theorem Source.isClean_of_isBlank {c : Char} (h : isBlank c = true) : IsClean c := by
  simp only [isBlank, Bool.or_eq_true, decide_eq_true_eq] at h
  rcases h with (rfl | rfl) | rfl <;> decide

/-- Blanks in front of a separator separate as well. -/
theorem Separated.blanks_append {blanks text : List Char} (h : Separated text)
    (hblanks : ∀ c ∈ blanks, isBlank c = true) : Separated (blanks ++ text) := by
  cases blanks with
  | nil => exact h
  | cons c blanks =>
    have hc := hblanks c List.mem_cons_self
    refine separated_cons (isSeparator_of_isBlank hc) ?_
    rintro rfl
    cases hc

/-- A text that holds only what a text ready to be read can hold, and the tokens
    that it is read as. -/
structure Spells (text : List Char) (tokens : List Token) : Prop where
  clean : ∀ c ∈ text, Source.IsClean c
  lexes : Lexes text tokens

namespace Spells

variable {more : List Char} {tokens : List Token}

theorem nil : Spells [] [.eof] :=
  ⟨List.forall_mem_nil _, .last ⟨0, 0, Comment.size_eq_zero (by simp), rfl, rfl⟩⟩

theorem cons_chars (h : Spells more tokens) {token : Token} (hlegible : token.Legible)
    (hne : token ≠ .eof) (hends : token.Ends more) :
    Spells (token.chars ++ more) (token :: tokens) := by
  refine ⟨fun c hc => ?_, h.lexes.cons_chars hlegible hne hends⟩
  rcases List.mem_append.1 hc with hc | hc
  · exact Token.isClean_of_mem_chars hlegible hc
  · exact h.clean c hc

/-- Blanks that may be missing add a white space at most. -/
theorem gap_append (h : Spells more tokens) {blanks : List Char}
    (hblanks : ∀ c ∈ blanks, isBlank c = true) :
    ∃ gap, IsGap gap ∧ Spells (blanks ++ more) (gap ++ tokens) := by
  obtain ⟨gap, hgap, hlexes⟩ := h.lexes.gap_append hblanks
  refine ⟨gap, hgap, fun c hc => ?_, hlexes⟩
  rcases List.mem_append.1 hc with hc | hc
  · exact Source.isClean_of_isBlank (hblanks c hc)
  · exact h.clean c hc

end Spells

/-- Tokens in a row are clean, and so is what is put between them. -/
theorem Layout.isClean_of_mem_tokens (layout : Layout) {tokens : List Token}
    (h : ∀ t ∈ tokens, t.Legible) {c : Char} (hc : c ∈ Piece.charsAll (layout.tokens tokens)) :
    Source.IsClean c := by
  fun_induction Layout.tokens layout tokens with
  | case1 => cases hc
  | case2 t =>
    rw [Piece.charsAll_token, Piece.charsAll_nil, List.append_nil] at hc
    exact Token.isClean_of_mem_chars (h t List.mem_cons_self) hc
  | case3 prev next rest ih =>
    rw [Piece.charsAll_token, Piece.charsAll_append] at hc
    rcases List.mem_append.1 hc with hc | hc
    · exact Token.isClean_of_mem_chars (h prev List.mem_cons_self) hc
    · rcases List.mem_append.1 hc with hc | hc
      · unfold Layout.between at hc
        split at hc
        · exact Source.isClean_of_mem_of_all (by decide) hc
        · split at hc
          · exact Source.isClean_of_mem_of_all (by decide) hc
          · cases hc
      · exact ih (fun t ht => h t (List.mem_cons_of_mem prev ht)) hc

namespace Spells

variable {limit : Option Nat} {depth : Nat} {written read : List Value} {more : List Char}
  {tokens : List Token}

/-- Values in a row are read as their tokens, but for white space behind commas. -/
theorem spread_append (h : Spells more tokens) (layout : Layout)
    (hreads : ReadsAs limit depth written read) (hends : Separated more) :
    ∃ spread, Spells (Piece.charsAll (layout.values written) ++ more) (spread ++ tokens) ∧
      Spread (Value.flatten written) spread := by
  obtain ⟨spread, hlexes, hspread⟩ := layout.lexes_spread hreads hends h.lexes
  refine ⟨spread, ⟨fun c hc => ?_, hlexes⟩, hspread⟩
  rcases List.mem_append.1 hc with hc | hc
  · exact layout.isClean_of_mem_tokens (fun t ht => (hreads.writable.plain t ht).1.1) hc
  · exact h.clean c hc

/-- Values in a row are read back as they should be, but for white space behind
    commas. -/
theorem values_append (h : Spells more tokens) (layout : Layout)
    (hreads : ReadsAs limit depth written read) (hends : Separated more) :
    ∃ spread others, Spells (Piece.charsAll (layout.values written) ++ more) (spread ++ tokens) ∧
      Gathers limit depth spread others ∧ Alike others read ∧
      ∀ v ∈ others, v = .token .whitespace ∨ v ∈ read := by
  obtain ⟨spread, hspells, hspread⟩ := h.spread_append layout hreads hends
  obtain ⟨others, hothers⟩ := hreads.gathers.spread hspread
  exact ⟨spread, others, hspells, hothers⟩

/-- A selector is read as the values that it is written with, but for white space
    behind commas. -/
theorem selector_append (h : Spells more tokens) (layout : Layout) {selector : Selector}
    (hsound : Selector.SoundMembers limit depth selector.members)
    (hunmarked : selector.isUnmarked = true) (hends : Separated more) :
    ∃ spread, Spells (Piece.charsAll (selector.pieces layout) ++ more) (spread ++ tokens) ∧
      Spread (Value.flatten (Selector.membersValues layout selector.members)) spread := by
  have hmarks := List.all_eq_true.1 hunmarked
  obtain ⟨spread, hlexes, hspread⟩ :=
    Selector.lexes_pieces layout hsound hunmarked hends h.lexes
  refine ⟨spread, ⟨fun c hc => ?_, hlexes⟩, hspread⟩
  rcases List.mem_append.1 hc with hc | hc
  · obtain ⟨hchain, -⟩ := Selector.chain_membersValues layout hsound hmarks
    rw [Selector.pieces, Selector.charsAll_members layout hsound.sound,
      ← plainText_eq layout hchain] at hc
    have hwritable := (Selector.neat_membersValues layout hsound hmarks).writable
    exact layout.isClean_of_mem_tokens (fun t ht => (hwritable.plain t ht).1.1) hc
  · exact h.clean c hc

end Spells

end DeepScope
