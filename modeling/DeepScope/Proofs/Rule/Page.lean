import DeepScope.Proofs.Rule.Declarations
import DeepScope.Proofs.Rule.Prelude
import DeepScope.Rule.Page

namespace DeepScope.PageRule

variable {limit : Option Nat} {depth : Nat}

/-- Tokens between the braces of a page rule. -/
inductive BlockForms (limit : Option Nat) (depth : Nat) :
    List Token → List Declaration → List MarginRule → Prop where
  | nil : BlockForms limit depth [] [] []
  | skip {token : Token} {tokens : List Token} {declarations : List Declaration}
    {margins : List MarginRule} :
    token = .whitespace ∨ token = .semicolon → BlockForms limit depth tokens declarations margins →
    BlockForms limit depth (token :: tokens) declarations margins
  | declaration {front back : List Token} {declaration : Declaration}
    {declarations : List Declaration} {margins : List MarginRule} :
    Declaration.Forms limit depth front declaration → (∀ t ∈ back.head?, t = .semicolon) →
    BlockForms limit depth back declarations margins →
    BlockForms limit depth (front ++ back) (declaration :: declarations) margins
  | margin {name : String} {front body back : List Token} {inside declarations : List Declaration}
    {margins : List MarginRule} :
    Prelude.Forms limit depth front ⟨[], true⟩ → Declaration.BlockForms limit depth body inside →
    BlockForms limit depth back declarations margins →
    BlockForms limit depth (.atKeyword name :: (front ++ (body ++ .closeBrace :: back)))
      declarations (⟨name, inside⟩ :: margins)

theorem BlockForms.head {tokens : List Token} {declarations : List Declaration}
    {margins : List MarginRule} (h : BlockForms limit depth tokens declarations margins) {t : Token}
    (ht : t ∈ tokens.head?) :
    t = .whitespace ∨ t = .semicolon ∨ ∃ name, t = .ident name ∨ t = .atKeyword name := by
  cases h with
  | nil => cases ht
  | skip hskip _ =>
    cases ht
    exact hskip.imp id .inl
  | declaration hform _ _ =>
    obtain ⟨name, rest, rfl⟩ := hform.head
    cases ht
    exact .inr (.inr ⟨name, .inl rfl⟩)
  | margin _ _ _ =>
    cases ht
    exact .inr (.inr ⟨_, .inr rfl⟩)

theorem readMargin_sound {name : String} {reader after : Reader} {margin : MarginRule}
    (h : readMargin limit depth name reader = .ok (margin, after)) :
    ∃ front body inside, reader.tokens = front ++ (body ++ .closeBrace :: after.tokens) ∧
      Prelude.Forms limit depth front ⟨[], true⟩ ∧
      Declaration.BlockForms limit depth body inside ∧ margin = ⟨name, inside⟩ := by
  unfold readMargin at h
  split at h
  · cases h
  · next prelude middle hprelude =>
    obtain ⟨front, hfront, hform⟩ := Prelude.read_sound hprelude
    split at h
    · cases h
    · next hshape =>
      split at h
      · cases h
      · next declarations final hblock =>
        cases h
        obtain ⟨body, hbody, hforms⟩ := Declaration.readBlock_sound hblock
        have hprelude : prelude = ⟨[], true⟩ := by
          obtain ⟨values, hasBlock⟩ := prelude
          simpa [List.isEmpty_iff] using hshape
        rw [hprelude] at hform
        exact ⟨front, body, declarations, by rw [hfront, hbody], hform, hforms, rfl⟩

theorem readMargin_complete {name : String} {front body rest : List Token}
    {inside : List Declaration} (hfront : Prelude.Forms limit depth front ⟨[], true⟩)
    (hbody : Declaration.BlockForms limit depth body inside) {reader : Reader}
    (htokens : reader.tokens = front ++ (body ++ .closeBrace :: rest)) :
    ∃ after, readMargin limit depth name reader = .ok (⟨name, inside⟩, after) ∧
      after.tokens = rest := by
  obtain ⟨middle, hprelude, hmiddle⟩ := Prelude.read_complete hfront htokens
  obtain ⟨after, hblock, hafter⟩ := Declaration.readBlock_complete hbody hmiddle
  refine ⟨after, ?_, hafter⟩
  unfold readMargin
  simp [hprelude, hblock]

theorem readBlock_sound {reader after : Reader} {declarations : List Declaration}
    {margins : List MarginRule}
    (h : readBlock limit depth reader = .ok ((declarations, margins), after)) :
    ∃ tokens, reader.tokens = tokens ++ .closeBrace :: after.tokens ∧
      BlockForms limit depth tokens declarations margins := by
  fun_induction readBlock limit depth reader generalizing declarations margins after with
  | case1 reader hpeek =>
    cases h
    exact ⟨[], Reader.tokens_eq_of_peek hpeek (by simp), .nil⟩
  | case2 reader hpeek _ ih =>
    obtain ⟨tokens, htokens, hform⟩ := ih h
    refine ⟨_, ?_, .skip (.inl rfl) hform⟩
    rw [Reader.tokens_eq_of_peek hpeek (by simp), htokens]
    rfl
  | case3 reader hpeek _ ih =>
    obtain ⟨tokens, htokens, hform⟩ := ih h
    refine ⟨_, ?_, .skip (.inr rfl) hform⟩
    rw [Reader.tokens_eq_of_peek hpeek (by simp), htokens]
    rfl
  | case7 reader name hpeek margin middle hmargin _ declarations' margins' final hrest ih =>
    cases h
    obtain ⟨front, body, inside, htokens, hfront, hbody, rfl⟩ := readMargin_sound hmargin
    obtain ⟨back, hback, hforms⟩ := ih hrest
    refine ⟨_, ?_, .margin hfront hbody hforms⟩
    rw [Reader.tokens_eq_of_peek hpeek (by simp), htokens, hback]
    simp
  | case10 reader name hpeek declaration middle hread _ declarations' margins' final hrest ih =>
    cases h
    obtain ⟨front, hfront, hform, hends⟩ := Declaration.read_sound hread
    obtain ⟨back, hback, hforms⟩ := ih hrest
    refine ⟨front ++ back, by rw [hfront, hback, List.append_assoc], .declaration hform ?_ hforms⟩
    intro t ht
    rw [Reader.peek_of_head? hback ht] at hends
    rcases hforms.head ht with rfl | rfl | ⟨_, rfl | rfl⟩
    · cases hends
    · rfl
    · cases hends
    · cases hends
  | _ => simp_all [Reader.fail]

section

variable {reader : Reader}

theorem readBlock_closeBrace (hpeek : reader.peek = .closeBrace) :
    readBlock limit depth reader = .ok (([], []), reader.advance) := by
  unfold readBlock
  split <;> simp_all

theorem readBlock_skip (hpeek : reader.peek = .whitespace ∨ reader.peek = .semicolon) :
    readBlock limit depth reader = readBlock limit depth reader.advance := by
  rw [readBlock.eq_def]
  rcases hpeek with hpeek | hpeek <;> split <;> simp_all

theorem readBlock_declaration {name : String} {middle after : Reader} {declaration : Declaration}
    {declarations : List Declaration} {margins : List MarginRule}
    (hpeek : reader.peek = .ident name)
    (hread : Declaration.read limit depth reader = .ok (declaration, middle))
    (hrest : readBlock limit depth middle = .ok ((declarations, margins), after)) :
    readBlock limit depth reader = .ok ((declaration :: declarations, margins), after) := by
  unfold readBlock
  split
  case h_6 =>
    split
    · next hfail =>
      rw [hread] at hfail
      cases hfail
    · next hok =>
      rw [hread] at hok
      cases hok
      rw [hrest]
  all_goals simp_all

theorem readBlock_margin {name : String} {middle after : Reader} {margin : MarginRule}
    {declarations : List Declaration} {margins : List MarginRule}
    (hpeek : reader.peek = .atKeyword name)
    (hread : readMargin limit depth name reader.advance = .ok (margin, middle))
    (hrest : readBlock limit depth middle = .ok ((declarations, margins), after)) :
    readBlock limit depth reader = .ok ((declarations, margin :: margins), after) := by
  unfold readBlock
  split
  case h_5 hkeyword =>
    rw [hpeek] at hkeyword
    cases hkeyword
    split
    · next hfail =>
      rw [hread] at hfail
      cases hfail
    · next hok =>
      rw [hread] at hok
      cases hok
      rw [hrest]
  all_goals simp_all

end

theorem readBlock_complete {tokens rest : List Token} {declarations : List Declaration}
    {margins : List MarginRule} (h : BlockForms limit depth tokens declarations margins)
    {reader : Reader} (htokens : reader.tokens = tokens ++ .closeBrace :: rest) :
    ∃ after, readBlock limit depth reader = .ok ((declarations, margins), after) ∧
      after.tokens = rest := by
  induction h generalizing reader with
  | nil =>
    exact ⟨reader.advance, readBlock_closeBrace (Reader.peek_of_tokens htokens),
      Reader.tokens_advance htokens⟩
  | @skip token tokens declarations margins hskip _ ih =>
    obtain ⟨after, hread, hafter⟩ := ih (Reader.tokens_advance htokens)
    refine ⟨after, ?_, hafter⟩
    rw [readBlock_skip (by rwa [Reader.peek_of_tokens htokens]), hread]
  | @declaration front back declaration declarations margins hform hback _ ih =>
    rw [List.append_assoc] at htokens
    obtain ⟨middle, hread, hmiddle⟩ :=
      Declaration.read_complete hform (Declaration.endsDeclaration_head hback) htokens
    obtain ⟨after, hrest, hafter⟩ := ih hmiddle
    obtain ⟨name, more, rfl⟩ := hform.head
    exact ⟨after, readBlock_declaration (Reader.peek_of_tokens htokens) hread hrest, hafter⟩
  | @margin name front body back inside declarations margins hfront hbody _ ih =>
    rw [List.cons_append, List.append_assoc, List.append_assoc, List.cons_append] at htokens
    obtain ⟨middle, hread, hmiddle⟩ :=
      readMargin_complete hfront hbody (Reader.tokens_advance htokens)
    obtain ⟨after, hrest, hafter⟩ := ih hmiddle
    exact ⟨after, readBlock_margin (Reader.peek_of_tokens htokens) hread hrest, hafter⟩

end DeepScope.PageRule
