import DeepScope.Proofs.Value.Gathers
import DeepScope.Rule.Prelude

namespace DeepScope

variable {limit : Option Nat} {depth : Nat}

namespace Prelude

/-- The token that ends a prelude. -/
def ender (hasBlock : Bool) : Token :=
  if hasBlock then .openBrace else .semicolon

/-- Tokens that make up a prelude, the one that ends it included. -/
inductive Forms (limit : Option Nat) (depth : Nat) : List Token → Prelude → Prop where
  | intro {tokens : List Token} {values : List Value} {hasBlock : Bool} :
    Value.Gathers limit depth tokens values → (∀ v ∈ values, endsPrelude v.head = false) →
    Forms limit depth (tokens ++ [ender hasBlock]) ⟨Value.normalize values, hasBlock⟩

/-- A prelude begins neither with a closing brace nor with the end. -/
theorem Forms.head {tokens : List Token} {prelude : Prelude}
    (h : Forms limit depth tokens prelude) :
    ∃ t rest, tokens = t :: rest ∧ t ≠ .closeBrace ∧ t ≠ .eof := by
  cases h with
  | @intro tokens values hasBlock hgathers hheads =>
    cases hgathers with
    | nil => exact ⟨ender hasBlock, [], rfl, by cases hasBlock <;> decide⟩
    | @token _ t rest _ hopens hcloses hend _ =>
      refine ⟨t, rest ++ [ender hasBlock], rfl, ?_, hend⟩
      rintro rfl
      cases hcloses
    | @nested _ opener inner rest _ _ hopens _ _ _ =>
      refine ⟨opener, _, rfl, ?_, ?_⟩ <;>
        · rintro rfl
          cases hopens

theorem read_sound {reader after : Reader} {prelude : Prelude}
    (h : Prelude.read limit depth reader = .ok (prelude, after)) :
    ∃ tokens, reader.tokens = tokens ++ after.tokens ∧ Forms limit depth tokens prelude := by
  unfold Prelude.read at h
  split at h
  · cases h
  · next values middle hvalues =>
    obtain ⟨tokens, htokens, hgathers, hheads, -⟩ := Value.readUntil_sound hvalues
    have hform : ∀ hasBlock, Forms limit depth (tokens ++ [ender hasBlock])
        ⟨Value.normalize values, hasBlock⟩ := fun _ => .intro hgathers hheads
    split at h
    · next hpeek =>
      cases h
      refine ⟨_, ?_, hform false⟩
      rw [htokens, Reader.tokens_eq_of_peek hpeek (by simp), List.append_assoc]
      rfl
    · next hpeek =>
      cases h
      refine ⟨_, ?_, hform true⟩
      rw [htokens, Reader.tokens_eq_of_peek hpeek (by simp), List.append_assoc]
      rfl
    · cases h
    · cases h

theorem read_complete {tokens rest : List Token} {prelude : Prelude}
    (h : Forms limit depth tokens prelude) {reader : Reader}
    (htokens : reader.tokens = tokens ++ rest) :
    ∃ after, Prelude.read limit depth reader = .ok (prelude, after) ∧ after.tokens = rest := by
  cases h with
  | @intro tokens values hasBlock hgathers hheads =>
    rw [List.append_assoc, List.singleton_append] at htokens
    obtain ⟨middle, hread, hmiddle⟩ := Value.readUntil_complete hgathers hheads
      (by cases hasBlock <;> rfl) htokens
    refine ⟨middle.advance, ?_, Reader.tokens_advance hmiddle⟩
    have hpeek := Reader.peek_of_tokens hmiddle
    unfold Prelude.read
    rw [hread]
    cases hasBlock <;> simp [hpeek, ender]

theorem readBeforeBlock_sound {reader after : Reader} {values : List Value}
    (h : readBeforeBlock limit depth reader = .ok (values, after)) :
    ∃ tokens, reader.tokens = tokens ++ after.tokens ∧
      Forms limit depth tokens ⟨values, true⟩ := by
  unfold readBeforeBlock at h
  split at h
  · cases h
  · next found middle hvalues =>
    obtain ⟨tokens, htokens, hgathers, hheads, -⟩ := Value.readUntil_sound hvalues
    split at h
    · next hpeek =>
      cases h
      refine ⟨tokens ++ [ender true], ?_, .intro hgathers hheads⟩
      rw [htokens, Reader.tokens_eq_of_peek hpeek (by simp), List.append_assoc]
      rfl
    all_goals cases h

theorem readBeforeBlock_complete {tokens rest : List Token} {values : List Value}
    (h : Forms limit depth tokens ⟨values, true⟩) {reader : Reader}
    (htokens : reader.tokens = tokens ++ rest) :
    ∃ after, readBeforeBlock limit depth reader = .ok (values, after) ∧ after.tokens = rest := by
  cases h with
  | intro hgathers hheads =>
    rw [List.append_assoc, List.singleton_append] at htokens
    obtain ⟨middle, hread, hmiddle⟩ := Value.readUntil_complete hgathers hheads rfl htokens
    refine ⟨middle.advance, ?_, Reader.tokens_advance hmiddle⟩
    have hpeek : middle.peek = .openBrace := Reader.peek_of_tokens hmiddle
    unfold readBeforeBlock
    rw [hread]
    simp [hpeek]

end Prelude

end DeepScope
