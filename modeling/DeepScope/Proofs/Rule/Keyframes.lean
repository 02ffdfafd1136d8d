import DeepScope.Proofs.Rule.Declarations
import DeepScope.Proofs.Rule.Prelude
import DeepScope.Rule.Keyframes

namespace DeepScope.KeyframesRule

variable {limit : Option Nat} {depth : Nat}

/-- Tokens between the braces of an animation. -/
inductive BlockForms (limit : Option Nat) (depth : Nat) :
    List Token → List KeyframeBlock → Prop where
  | nil : BlockForms limit depth [] []
  | skip {tokens : List Token} {blocks : List KeyframeBlock} :
    BlockForms limit depth tokens blocks →
    BlockForms limit depth (.whitespace :: tokens) blocks
  | block {front body back : List Token} {values : List Value} {declarations : List Declaration}
    {blocks : List KeyframeBlock} :
    Prelude.Forms limit depth front ⟨values, true⟩ → front.head? ≠ some .whitespace →
    (∀ piece ∈ splitOn Value.isComma values, piece ≠ []) →
    Declaration.BlockForms limit depth body declarations → BlockForms limit depth back blocks →
    BlockForms limit depth (front ++ (body ++ .closeBrace :: back))
      (⟨splitOn Value.isComma values, declarations⟩ :: blocks)

theorem readBlocks_sound {reader after : Reader} {blocks : List KeyframeBlock}
    (h : readBlocks limit depth reader = .ok (blocks, after)) :
    ∃ tokens, reader.tokens = tokens ++ .closeBrace :: after.tokens ∧
      BlockForms limit depth tokens blocks := by
  fun_induction readBlocks limit depth reader generalizing blocks after with
  | case1 reader hpeek =>
    cases h
    exact ⟨[], Reader.tokens_eq_of_peek hpeek (by simp), .nil⟩
  | case2 reader hpeek _ ih =>
    obtain ⟨tokens, htokens, hform⟩ := ih h
    refine ⟨_, ?_, .skip hform⟩
    rw [Reader.tokens_eq_of_peek hpeek (by simp), htokens]
    rfl
  | case8 reader values inside hbefore selectors hpieces declarations middle hblock _ others final
      hrest _ hblank _ =>
    rename_i ih
    cases h
    obtain ⟨front, hfront, hform⟩ := Prelude.readBeforeBlock_sound hbefore
    obtain ⟨body, hbody, hforms⟩ := Declaration.readBlock_sound hblock
    obtain ⟨back, hback, hblocks⟩ := ih hrest
    refine ⟨_, ?_, .block hform ?_ ?_ hforms hblocks⟩
    · rw [hfront, hbody, hback]
      simp
    · exact fun hhead => hblank (Reader.peek_of_head? hfront hhead)
    · rintro piece hpiece rfl
      exact hpieces (List.any_eq_true.2 ⟨[], hpiece, rfl⟩)
  | _ => simp_all [Reader.fail]

section

variable {reader : Reader}

theorem readBlocks_closeBrace (hpeek : reader.peek = .closeBrace) :
    readBlocks limit depth reader = .ok ([], reader.advance) := by
  unfold readBlocks
  split <;> simp_all

theorem readBlocks_blank (hpeek : reader.peek = .whitespace) :
    readBlocks limit depth reader = readBlocks limit depth reader.advance := by
  rw [readBlocks.eq_def]
  split <;> simp_all

theorem readBlocks_block {inside middle after : Reader} {values : List Value}
    {declarations : List Declaration} {blocks : List KeyframeBlock}
    (hclose : reader.peek ≠ .closeBrace) (hblank : reader.peek ≠ .whitespace)
    (hend : reader.peek ≠ .eof) (hbefore : readBeforeBlock limit depth reader = .ok (values, inside))
    (hpieces : ∀ piece ∈ splitOn Value.isComma values, piece ≠ [])
    (hblock : Declaration.readBlock limit depth inside = .ok (declarations, middle))
    (hrest : readBlocks limit depth middle = .ok (blocks, after)) :
    readBlocks limit depth reader =
      .ok (⟨splitOn Value.isComma values, declarations⟩ :: blocks, after) := by
  have hany : ¬(splitOn Value.isComma values).any List.isEmpty := by
    intro hany
    obtain ⟨piece, hpiece, hnil⟩ := List.any_eq_true.1 hany
    exact hpieces piece hpiece (List.isEmpty_iff.1 hnil)
  unfold readBlocks
  split
  case h_4 =>
    split
    · next hfail =>
      rw [hbefore] at hfail
      cases hfail
    · next hok =>
      rw [hbefore] at hok
      cases hok
      dsimp only
      rw [if_neg hany]
      split
      · next hfail =>
        rw [hblock] at hfail
        cases hfail
      · next hok =>
        rw [hblock] at hok
        cases hok
        rw [hrest]
  all_goals contradiction

end

theorem readBlocks_complete {tokens rest : List Token} {blocks : List KeyframeBlock}
    (h : BlockForms limit depth tokens blocks) {reader : Reader}
    (htokens : reader.tokens = tokens ++ .closeBrace :: rest) :
    ∃ after, readBlocks limit depth reader = .ok (blocks, after) ∧ after.tokens = rest := by
  induction h generalizing reader with
  | nil =>
    exact ⟨reader.advance, readBlocks_closeBrace (Reader.peek_of_tokens htokens),
      Reader.tokens_advance htokens⟩
  | skip _ ih =>
    obtain ⟨after, hread, hafter⟩ := ih (Reader.tokens_advance htokens)
    refine ⟨after, ?_, hafter⟩
    rw [readBlocks_blank (Reader.peek_of_tokens htokens), hread]
  | @block front body back values declarations blocks hfront hblank hpieces hbody _ ih =>
    rw [List.append_assoc, List.append_assoc, List.cons_append] at htokens
    obtain ⟨inside, hbefore, hinside⟩ := Prelude.readBeforeBlock_complete hfront htokens
    obtain ⟨middle, hblock, hmiddle⟩ := Declaration.readBlock_complete hbody hinside
    obtain ⟨after, hrest, hafter⟩ := ih hmiddle
    refine ⟨after, ?_, hafter⟩
    obtain ⟨t, more, rfl, hclose, hend⟩ := hfront.head
    obtain rfl := Reader.peek_of_tokens htokens
    exact readBlocks_block hclose (by simpa using hblank) hend hbefore hpieces hblock hrest

end DeepScope.KeyframesRule
