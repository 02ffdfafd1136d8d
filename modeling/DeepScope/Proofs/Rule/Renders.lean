import DeepScope.Proofs.Rule.Opening
import DeepScope.Proofs.Script.Block

namespace DeepScope

open Value (Gathers Alike)

variable {limit : Option Nat} {depth : Nat} {tokens : List Token}

namespace Declaration

/-- The values of the mark of importance. -/
def mark : List Value :=
  [.token (.delim '!'), .token (.ident "important")]

/-- The mark is found again, with white space in front of it or without. -/
theorem stripImportant_append {value white : List Value}
    (hlast : ∀ v ∈ value.getLast?, v.isBlank = false) (hwhite : ∀ v ∈ white, v.isBlank = true) :
    stripImportant (value ++ (white ++ mark)) = some value := by
  have hreverse : (value ++ (white ++ mark)).reverse =
      .token (.ident "important") :: .token (.delim '!') :: (white.reverse ++ value.reverse) := by
    simp [mark]
  have hdrop : (white.reverse ++ value.reverse).dropWhile Value.isBlank = value.reverse := by
    rw [List.dropWhile_append_of_pos (by simpa using hwhite)]
    cases hcases : value.reverse with
    | nil => rfl
    | cons v rest =>
      refine List.dropWhile_cons_of_neg ?_
      rw [hlast v (by rw [← List.head?_reverse, hcases]; rfl)]
      exact Bool.false_ne_true
  unfold stripImportant
  rw [hreverse]
  dsimp only
  rw [if_pos (by decide), List.dropWhile_cons_of_neg (by simp [Value.isBlank])]
  show some ((white.reverse ++ value.reverse).dropWhile Value.isBlank).reverse = some value
  rw [hdrop, List.reverse_reverse]

/-- White space in front of the mark is kept or dropped. -/
theorem normalizeFrom_mark {gap : List Token} (h : IsGap gap) (separable : Bool) :
    ∃ white, (∀ v ∈ white, v.isBlank = true) ∧
      Value.normalizeFrom separable false (gap.map .token ++ mark) = white ++ mark := by
  cases h with
  | none => exact ⟨[], by simp, by simp [mark, Value.normalizeFrom, Value.isBlank, Value.isComma]⟩
  | blank =>
    refine ⟨if separable then [.token .whitespace] else [], ?_, ?_⟩
    · split <;> simp [Value.isBlank]
    · cases separable <;> simp [mark, Value.normalizeFrom, Value.isBlank, Value.isComma]

/-- A declaration is found again in its value, with nearly the same white space,
    and in the mark behind it. -/
theorem Kept.ofValues_eq {declaration : Declaration} (h : declaration.Kept limit depth)
    {white others marks : List Value}
    (hwhite : ∀ values, Value.normalize (white ++ values) = Value.normalize values)
    (halike : Alike others declaration.value)
    (hmarks : declaration.important = false ∧ marks = [] ∨
      declaration.important = true ∧ ∃ gap, IsGap gap ∧ marks = gap.map .token ++ mark) :
    ofValues declaration.name (white ++ (others ++ marks)) = declaration := by
  obtain ⟨name, value, important⟩ := declaration
  have hnormalize : Value.normalize (white ++ (others ++ marks)) =
      Value.normalize (value ++ marks) := by
    rw [hwhite, halike.normalize_append]
  rw [ofValues, hnormalize]
  dsimp only
  rcases hmarks with ⟨himportant, rfl⟩ | ⟨himportant, gap, hgap, rfl⟩
  · obtain rfl : important = false := himportant
    have hplain : stripImportant value = none := h.plain rfl
    rw [List.append_nil, h.tidy.normalize_eq, hplain]
    rfl
  · obtain rfl : important = true := himportant
    obtain ⟨kept, hkept, hmark⟩ := normalizeFrom_mark hgap (Value.separates false value)
    rw [h.tidy.normalize_append, hmark, stripImportant_append (Value.tidy_iff.1 h.tidy).2.2 hkept]
    rfl

/-- The tokens that mark a declaration as important, or none. White space may
    stand in front of the mark. -/
inductive Marks : Bool → List Token → Prop where
  | plain : Marks false []
  | important {gap : List Token} : IsGap gap → Marks true (gap ++ [.delim '!', .ident "important"])

theorem Marks.gathers {important : Bool} (h : Marks important tokens) (limit : Option Nat)
    (depth : Nat) :
    ∃ marks, Gathers limit depth tokens marks ∧ (∀ v ∈ marks, endsDeclaration v.head = false) ∧
      (important = false ∧ marks = [] ∨
        important = true ∧ ∃ gap, IsGap gap ∧ marks = gap.map .token ++ mark) := by
  cases h with
  | plain => exact ⟨[], .nil, by simp, .inl ⟨rfl, rfl⟩⟩
  | @important gap hgap =>
    refine ⟨gap.map .token ++ mark, .append ?_ ?_, ?_, .inr ⟨rfl, gap, hgap, rfl⟩⟩
    · cases hgap with
      | none => exact .nil
      | blank => exact .token rfl rfl (by simp) .nil
    · exact .token rfl rfl (by simp) (.token rfl rfl (by simp) .nil)
    · cases hgap <;> simp [mark, endsDeclaration, Value.head]

/-- The tokens that a declaration can be written with: its name, a colon, the
    tokens of its value and the mark of importance. White space may stand behind
    the colon, behind commas and in front of the mark. -/
inductive Renders (declaration : Declaration) : List Token → Prop where
  | intro {front value back : List Token} :
    IsGap front → Spread (Value.flatten declaration.value) value →
    Marks declaration.important back →
    Renders declaration (.ident declaration.name :: .colon :: (front ++ (value ++ back)))

/-- Both layouts write a declaration so. -/
theorem renders_pieces (layout : Layout) (declaration : Declaration) :
    declaration.Renders (Piece.tokensAll (declaration.pieces layout)) := by
  obtain ⟨name, value, important⟩ := declaration
  have hfront : IsGap (Piece.tokensAll (if value.isEmpty then [] else layout.space)) := by
    split
    · exact .none
    · exact layout.isGap_space
  have hback : Marks important (Piece.tokensAll (if important then
      layout.space ++ [.token (.delim '!'), .token (.ident "important")] else [])) := by
    cases important with
    | false => exact .plain
    | true =>
      rw [if_pos rfl, Piece.tokensAll_append]
      exact .important layout.isGap_space
  simpa [pieces] using Renders.intro hfront (layout.spread_tokensAll (Value.flatten value)) hback

/-- What a declaration is written with makes it up again. -/
theorem Renders.forms {declaration : Declaration} (h : declaration.Renders tokens)
    (hkept : declaration.Kept limit depth) : Forms limit depth tokens declaration := by
  cases h with
  | intro hfront hvalue hback =>
    obtain ⟨white, hwhite, hwhiteMem, hwhiteEq⟩ := hfront.gathers limit depth
    obtain ⟨others, hothers, halike, hmem⟩ := hkept.gathers.spread hvalue
    obtain ⟨marks, hmarks, hmarkHeads, hcases⟩ := hback.gathers limit depth
    have hwhiteOthers : ∀ v ∈ white ++ others, endsDeclaration v.head = false :=
      Value.heads_of_mem rfl
        (List.forall_mem_append.2 ⟨fun v hv => .inl (hwhiteMem v hv), hmem⟩) hkept.heads
    have hheads : ∀ v ∈ white ++ (others ++ marks), endsDeclaration v.head = false := by
      rw [← List.append_assoc]
      exact List.forall_mem_append.2 ⟨hwhiteOthers, hmarkHeads⟩
    have heq := hkept.ofValues_eq (fun values => (hwhiteEq values).1) halike hcases
    have hform := @Forms.intro limit depth declaration.name [] _ _ (List.forall_mem_nil _)
      (hwhite.append (hothers.append hmarks)) hheads
    rw [heq] at hform
    exact hform hkept.filled

theorem read_suffix {reader after : Reader} {declaration : Declaration}
    (h : read limit depth reader = .ok (declaration, after)) : after.rest <:+ reader.rest :=
  Script.run_suffix ((Script.run_declaration (Nat.le_refl _)).trans h)

/-- A declaration that has been read is read again from all that it can be written
    with, up to the token behind it. It need not stand as deep as it did. -/
theorem read_of_renders {reader after : Reader} {declaration : Declaration}
    (h : read limit depth reader = .ok (declaration, after)) :
    (∀ layout, declaration.Renders (Piece.tokensAll (declaration.pieces layout))) ∧
    ∀ (outer : Nat) (last : Position) (items : List Located) (next : Located)
      (rest : List Located), outer ≤ depth → declaration.Renders (items.map Located.token) →
      endsDeclaration next.token = true →
      ∃ again, read limit outer ⟨last, items ++ next :: rest⟩ = .ok (declaration, again) ∧
        again.rest = next :: rest := by
  refine ⟨fun layout => renders_pieces layout declaration, ?_⟩
  intro outer last items next rest hle hrenders hnext
  obtain ⟨_, -, hforms, -⟩ := read_sound h
  have hagain := hrenders.forms (hforms.kept.of_le hle)
  have htokens : Reader.tokens ⟨last, items ++ next :: rest⟩ =
      items.map Located.token ++ (next :: rest).map Located.token := List.map_append
  have hends : endsDeclaration (((next :: rest).map Located.token).head?.getD .eof) = true := hnext
  obtain ⟨again, hread, hrest⟩ := read_complete hagain hends htokens
  exact ⟨again, hread, Reader.rest_eq_of_suffix (read_suffix hread) hrest⟩

/-- Of `a:b,!important!IMPORTANT;` one mark is taken off, and the other stays in the
    value. Written in the pretty layout, the declaration is read again. -/
theorem read_of_renders_two_marks :
    let place := List.map (Located.mk · ⟨1, 1⟩)
    let declaration : Declaration :=
      ⟨"a", [.token (.ident "b"), .token .comma, .token (.delim '!'), .token (.ident "important")],
        true⟩
    let items := place [.ident "a", .colon, .whitespace, .ident "b", .comma, .whitespace,
      .delim '!', .ident "important", .whitespace, .delim '!', .ident "important"]
    read (some 2) 1 ⟨⟨1, 1⟩, place [.ident "a", .colon, .ident "b", .comma, .delim '!',
        .ident "important", .delim '!', .ident "IMPORTANT", .semicolon]⟩ =
      .ok (declaration, ⟨⟨1, 1⟩, place [.semicolon]⟩) ∧
    declaration.Renders (items.map Located.token) ∧
    ∃ again, read (some 2) 0 ⟨⟨1, 1⟩, items ++ place [.closeBrace]⟩ = .ok (declaration, again) ∧
      again.rest = place [.closeBrace] := by
  intro place declaration items
  have hread : read (some 2) 1 ⟨⟨1, 1⟩, place [.ident "a", .colon, .ident "b", .comma, .delim '!',
      .ident "important", .delim '!', .ident "IMPORTANT", .semicolon]⟩ =
      .ok (declaration, ⟨⟨1, 1⟩, place [.semicolon]⟩) := eq_ok_of_toOption (by decide +kernel)
  have hvalue : Spread (Value.flatten declaration.value)
      [.ident "b", .comma, .whitespace, .delim '!', .ident "important"] := by
    simp only [declaration, Value.flatten]
    exact .token _ (.comma (.token _ (.token _ .nil)))
  have hrenders : declaration.Renders (items.map Located.token) :=
    .intro .blank hvalue (.important .blank)
  obtain ⟨-, hagain⟩ := read_of_renders hread
  exact ⟨hread, hrenders, hagain 0 ⟨1, 1⟩ items ⟨.closeBrace, ⟨1, 1⟩⟩ [] (by decide) hrenders rfl⟩

end Declaration

end DeepScope
