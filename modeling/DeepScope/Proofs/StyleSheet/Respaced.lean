import DeepScope.Proofs.Rule.Respaced
import DeepScope.Proofs.StyleSheet.Forms
import Mathlib.Logic.Relation

namespace DeepScope

/-- White space is put into tokens where it has no meaning, ahead of the first
    end: behind a comma or what opens a function or a block, or in front of a comma
    or what closes one. -/
inductive InsertsBlank : List Token → List Token → Prop where
  | behind {before after : List Token} {t : Token} :
    .eof ∉ before → t = .comma ∨ t.opens = true →
    InsertsBlank (before ++ t :: after) (before ++ t :: .whitespace :: after)
  | inFront {before after : List Token} {t : Token} :
    .eof ∉ before → t = .comma ∨ t.closes = true →
    InsertsBlank (before ++ t :: after) (before ++ .whitespace :: t :: after)

/-- The change is in front of what is the same on both sides, and none of it
    comes behind the first end. -/
theorem InsertsBlank.exists_respaced {tokens others : List Token} (h : InsertsBlank tokens others) :
    ∃ front front' back, tokens = front ++ back ∧ others = front' ++ back ∧ .eof ∉ front ∧
      .eof ∉ front' ∧ ∀ more, Respaced false false (front ++ more) (front' ++ more) := by
  cases h with
  | @behind before after t hend ht =>
    have hfrees : t.frees = true := by simpa [Token.frees] using ht
    have hne : t ≠ .whitespace ∧ t ≠ .eof := by
      constructor <;>
        · rintro rfl
          cases hfrees
    refine ⟨before ++ [t], before ++ [t, .whitespace], after, by simp, by simp,
      by simp [hend, hne.2.symm], by simp [hend, hne.2.symm], fun more => ?_⟩
    rw [List.append_assoc, List.append_assoc]
    refine .append hne.1 (.refl _ _ _) ?_
    rw [hfrees]
    exact .cons_free (.refl _ _ _)
  | @inFront before after t hend ht =>
    have hbounds : t.bounds = true := by simpa [Token.bounds] using ht
    have hne : t ≠ .whitespace ∧ t ≠ .eof := by
      constructor <;>
        · rintro rfl
          cases hbounds
    refine ⟨before ++ [t], before ++ [.whitespace, t], after, by simp, by simp,
      by simp [hend, hne.2.symm], by simp [hend, hne.2.symm], fun more => ?_⟩
    have hfront : Respaced t.bounds false before (before ++ [.whitespace]) := by
      rw [hbounds]
      exact .concat_bound (.refl _ _ _)
    simpa using hfront.append hne.1 (.refl false _ more)

namespace StyleSheet

variable {limit : Option Nat} {tokens others : List Token} {sheet : StyleSheet}

/-- Respaced tokens make up the same stylesheet. -/
theorem Forms.respaced {bound : Bool} (h : Forms limit tokens sheet)
    (hspaced : Respaced bound false tokens others) : Forms limit others sheet := by
  -- In front of a keyword nothing can have been put in or taken out.
  have hkeyword : ∀ {front back : List Token} {name : String},
      Respaced bound false (.atKeyword name :: front) back →
      ∃ rest, back = .atKeyword name :: rest ∧ Respaced bound false front rest := by
    intro front back name hspaced
    obtain ⟨blanks, rest, rfl, -, hblanks, hrest⟩ := hspaced.cons_inv (by simp)
    rcases hblanks with hfree | hbounds | rfl
    · cases hfree
    · cases hbounds
    · exact ⟨rest, rfl, hrest⟩
  cases h with
  | plain hhead hrules =>
    refine .plain (fun hcharset => ?_) (hrules.respaced hspaced)
    obtain ⟨rest, rfl⟩ := List.head?_eq_some_iff.1 hcharset
    obtain ⟨front, rfl, -⟩ := hkeyword hspaced.symm
    exact hhead rfl
  | charset hfront hback =>
    obtain ⟨rest, rfl, hrest⟩ := hkeyword hspaced
    obtain ⟨front', back', rfl, hfront', hback'⟩ := hfront.respaced hrest
    exact .charset hfront' (hback.respaced hback')

/-- Whether tokens make up a stylesheet, up to the first end among them. -/
def Reads (tokens : List Token) (sheet : StyleSheet) : Prop :=
  ∃ front rest, tokens = front ++ rest ∧ rest.head?.getD .eof = .eof ∧
    Forms (some nestingLimit) front sheet

/-- A change in front of the first end is a change of what is read. -/
theorem Reads.of_respaced {front front' back : List Token} (hend : .eof ∉ front)
    (hspaced : ∀ more, Respaced false false (front ++ more) (front' ++ more))
    (h : Reads (front ++ back) sheet) : Reads (front' ++ back) sheet := by
  obtain ⟨read, rest, htokens, hrest, hforms⟩ := h
  rcases List.append_eq_append_iff.1 htokens with ⟨more, rfl, rfl⟩ | ⟨more, rfl, rfl⟩
  · exact ⟨front' ++ more, rest, by simp, hrest, hforms.respaced (hspaced more)⟩
  · cases more with
    | nil =>
      have hforms' := hforms.respaced (by simpa using hspaced [])
      exact ⟨front', back, rfl, hrest, hforms'⟩
    | cons t more =>
      obtain rfl : t = .eof := hrest
      exact absurd (by simp) hend

theorem reads_iff_of_insertsBlank (h : Relation.ReflTransGen InsertsBlank tokens others) :
    Reads tokens sheet ↔ Reads others sheet := by
  induction h with
  | refl => exact Iff.rfl
  | tail _ hstep ih =>
    refine ih.trans ?_
    obtain ⟨front, front', back, rfl, rfl, hend, hend', hspaced⟩ := hstep.exists_respaced
    exact ⟨Reads.of_respaced hend hspaced, Reads.of_respaced hend' fun more => (hspaced more).symm⟩

theorem toOption_ofTokens_eq_some_iff {items : List Located} :
    (ofTokens items).toOption = some sheet ↔ Reads (items.map Located.token) sheet := by
  rw [Reads, ← ofTokens_eq_ok_iff]
  cases ofTokens items <;> simp [Except.toOption]

/-- White space that is put in where it has no meaning, any number of times, changes
    neither whether a stylesheet is read nor which one. -/
theorem toOption_ofTokens_of_insertsBlank {items others : List Located}
    (h : Relation.ReflTransGen InsertsBlank (items.map Located.token) (others.map Located.token)) :
    (ofTokens items).toOption = (ofTokens others).toOption := by
  refine Option.ext fun sheet => ?_
  rw [toOption_ofTokens_eq_some_iff, toOption_ofTokens_eq_some_iff]
  exact reads_iff_of_insertsBlank h

/-- The rules of `a,b{}` and `a, b{ }` are the same. -/
theorem toOption_ofTokens_comma :
    (ofTokens ([.ident "a", .comma, .ident "b", .openBrace, .closeBrace].map (⟨·, ⟨1, 1⟩⟩))).toOption =
      (ofTokens ([.ident "a", .comma, .whitespace, .ident "b", .openBrace, .whitespace,
        .closeBrace].map (⟨·, ⟨1, 1⟩⟩))).toOption := by
  have hcomma : InsertsBlank [.ident "a", .comma, .ident "b", .openBrace, .closeBrace]
      [.ident "a", .comma, .whitespace, .ident "b", .openBrace, .closeBrace] :=
    @InsertsBlank.behind [.ident "a"] _ _ (by simp) (.inl rfl)
  have hbrace : InsertsBlank [.ident "a", .comma, .whitespace, .ident "b", .openBrace, .closeBrace]
      [.ident "a", .comma, .whitespace, .ident "b", .openBrace, .whitespace, .closeBrace] :=
    @InsertsBlank.behind [.ident "a", .comma, .whitespace, .ident "b"] _ _ (by simp) (.inr rfl)
  exact toOption_ofTokens_of_insertsBlank (.tail (.single hcomma) hbrace)

end StyleSheet

end DeepScope
