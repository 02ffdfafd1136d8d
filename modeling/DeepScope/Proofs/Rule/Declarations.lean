import DeepScope.Proofs.Value.Sound
import DeepScope.Rule.Declarations

namespace DeepScope.Declaration

variable {limit : Option Nat} {depth : Nat}

/-- The mark of importance stands behind the rest of the value. -/
theorem exists_of_stripImportant {values front : List Value}
    (h : stripImportant values = some front) :
    ∃ back, values = front ++ back ∧ ∀ v ∈ front.getLast?, v.isBlank = false := by
  unfold stripImportant at h
  split at h
  · next word before hreverse =>
    split at h
    · split at h
      · next last hbefore =>
        obtain rfl := Option.some.inj h
        refine ⟨.reverse (.token (.ident word) :: (before.takeWhile Value.isBlank ++
          .token (.delim '!') :: last.takeWhile Value.isBlank)), ?_, fun v hv => ?_⟩
        · rw [← List.reverse_append, ← List.reverse_reverse values, hreverse, List.cons_append,
            List.append_assoc, List.cons_append, List.takeWhile_append_dropWhile, ← hbefore,
            List.takeWhile_append_dropWhile]
        · have hlast := List.head?_dropWhile_not Value.isBlank last
          rw [List.getLast?_reverse] at hv
          rwa [Option.mem_def.1 hv] at hlast
      · cases h
    · cases h
  · cases h

/-- The declaration with some values behind its colon. -/
def ofValues (name : String) (values : List Value) : Declaration :=
  let value := Value.normalize values
  ⟨name, (stripImportant value).getD value, (stripImportant value).isSome⟩

/-- The value is all that is left of the values once white space that separates
    nothing is dropped, but for a mark of importance behind it. -/
theorem exists_normalize_eq (name : String) (values : List Value) :
    ∃ back, Value.normalize values = (ofValues name values).value ++ back ∧
      ∀ v ∈ (ofValues name values).value.getLast?, v.isBlank = false := by
  cases hstrip : stripImportant (Value.normalize values) with
  | none =>
    simp only [ofValues, hstrip, Option.getD_none]
    exact ⟨[], (List.append_nil _).symm, (Value.tidy_iff.1 (Value.tidy_normalize values)).2.2⟩
  | some front =>
    simp only [ofValues, hstrip, Option.getD_some]
    exact exists_of_stripImportant hstrip

theorem mem_value_ofValues {name : String} {values : List Value} {v : Value}
    (h : v ∈ (ofValues name values).value) : v = .token .whitespace ∨ v ∈ values := by
  obtain ⟨back, hback, -⟩ := exists_normalize_eq name values
  have hv : v ∈ Value.normalize values := by
    rw [hback]
    exact List.mem_append_left back h
  exact Value.mem_normalizeFrom hv

/-- No mark of importance is left in a value that is not marked. -/
theorem stripImportant_value_ofValues {name : String} {values : List Value}
    (h : (ofValues name values).important = false) :
    stripImportant (ofValues name values).value = none := by
  cases hstrip : stripImportant (Value.normalize values) with
  | none => simp only [ofValues, hstrip, Option.getD_none]
  | some front => simp [ofValues, hstrip] at h

/-- Whether the value of a property may be missing. -/
def allowsEmpty (name : String) : Bool :=
  "--".toList.isPrefixOf name.toList

/-- Tokens that make up a declaration, without what ends it. -/
inductive Forms (limit : Option Nat) (depth : Nat) : List Token → Declaration → Prop where
  | intro {name : String} {blanks tokens : List Token} {values : List Value} :
    (∀ t ∈ blanks, t = .whitespace) → Value.Gathers limit depth tokens values →
    (∀ v ∈ values, endsDeclaration v.head = false) →
    ((ofValues name values).value = [] → allowsEmpty name = true) →
    Forms limit depth (.ident name :: (blanks ++ .colon :: tokens)) (ofValues name values)

/-- A declaration as reading leaves it, whichever tokens it was read from. Its
    value is found again in its own tokens, and only what is marked as important
    may end in another mark. -/
structure Kept (limit : Option Nat) (depth : Nat) (declaration : Declaration) : Prop where
  gathers : Value.Gathers limit depth (Value.flatten declaration.value) declaration.value
  tidy : Value.Tidy declaration.value
  heads : ∀ v ∈ declaration.value, endsDeclaration v.head = false
  filled : declaration.value = [] → allowsEmpty declaration.name = true
  plain : declaration.important = false → stripImportant declaration.value = none

theorem Kept.of_le {declaration : Declaration} (h : declaration.Kept limit depth) {outer : Nat}
    (hle : outer ≤ depth) : declaration.Kept limit outer :=
  { h with gathers := h.gathers.of_le hle }

theorem Forms.kept {tokens : List Token} {declaration : Declaration}
    (h : Forms limit depth tokens declaration) : declaration.Kept limit depth := by
  cases h with
  | @intro name _ _ values _ hgathers hheads hempty =>
    obtain ⟨back, hback, hlast⟩ := exists_normalize_eq name values
    have htidy := Value.tidy_normalize values
    rw [hback] at htidy
    exact ⟨Value.gathers_flatten hgathers.singleton fun _ => mem_value_ofValues,
      htidy.of_append hlast, Value.heads_of_mem rfl (fun _ => mem_value_ofValues) hheads, hempty,
      stripImportant_value_ofValues⟩

theorem read_sound {reader after : Reader} {declaration : Declaration}
    (h : read limit depth reader = .ok (declaration, after)) :
    ∃ tokens, reader.tokens = tokens ++ after.tokens ∧ Forms limit depth tokens declaration ∧
      endsDeclaration after.peek = true := by
  unfold read at h
  split at h
  · next name hpeek =>
    dsimp only at h
    split at h
    · cases h
    · next hcolon =>
      split at h
      · cases h
      · next values final hvalues =>
        obtain ⟨tokens, htokens, hgathers, hheads, hafter⟩ := Value.readUntil_sound hvalues
        split at h
        · cases h
        · next hempty =>
          cases h
          have hname := Reader.tokens_eq_of_peek hpeek (by simp)
          have hblanks := Reader.tokens_skipBlanks reader.advance
          have hcolonTokens := Reader.tokens_eq_of_peek (Decidable.not_not.1 hcolon) (by simp)
          have hall : ∀ t ∈ reader.advance.tokens.takeWhile (· = .whitespace), t = .whitespace :=
            fun t ht => by simpa using List.all_eq_true.1 List.all_takeWhile t ht
          refine ⟨_, ?_, .intro hall hgathers hheads ?_, hafter⟩
          · rw [hname, List.cons_append, List.append_assoc, List.cons_append, ← htokens,
              ← hcolonTokens, hblanks, List.takeWhile_append_dropWhile]
          · intro hnil
            simp only [Bool.and_eq_true, Bool.not_eq_true', not_and, Bool.not_eq_false,
              List.isEmpty_iff] at hempty
            exact hempty hnil
  · cases h

theorem read_complete {tokens rest : List Token} {declaration : Declaration}
    (h : Forms limit depth tokens declaration)
    (hrest : endsDeclaration (rest.head?.getD .eof) = true) {reader : Reader}
    (htokens : reader.tokens = tokens ++ rest) :
    ∃ after, read limit depth reader = .ok (declaration, after) ∧ after.tokens = rest := by
  cases h with
  | @intro name blanks tokens values hblanks hgathers hheads hempty =>
    rw [List.cons_append, List.append_assoc, List.cons_append] at htokens
    have hpeek := Reader.peek_of_tokens htokens
    have hadvance := Reader.tokens_advance htokens
    have hskip : reader.advance.skipBlanks.tokens = .colon :: (tokens ++ rest) := by
      rw [Reader.tokens_skipBlanks, hadvance, List.dropWhile_append_of_pos (by simpa using hblanks)]
      rfl
    obtain ⟨after, hread, hafter⟩ := Value.readUntil_complete hgathers hheads hrest
      (Reader.tokens_advance hskip)
    refine ⟨after, ?_, hafter⟩
    unfold read
    split
    · next found hfound =>
      rw [hpeek] at hfound
      cases hfound
      dsimp only
      rw [if_neg (by simp [Reader.peek_of_tokens hskip]), hread]
      dsimp only
      rw [if_neg]
      · rfl
      · simp only [Bool.and_eq_true, Bool.not_eq_true', not_and, Bool.not_eq_false,
          List.isEmpty_iff]
        exact hempty
    · next hno => exact absurd hpeek (hno name)

/-- Tokens between the braces of a block of declarations. -/
inductive BlockForms (limit : Option Nat) (depth : Nat) :
    List Token → List Declaration → Prop where
  | nil : BlockForms limit depth [] []
  | skip {token : Token} {tokens : List Token} {declarations : List Declaration} :
    token = .whitespace ∨ token = .semicolon → BlockForms limit depth tokens declarations →
    BlockForms limit depth (token :: tokens) declarations
  | declaration {front back : List Token} {declaration : Declaration}
    {declarations : List Declaration} :
    Forms limit depth front declaration → (∀ t ∈ back.head?, t = .semicolon) →
    BlockForms limit depth back declarations →
    BlockForms limit depth (front ++ back) (declaration :: declarations)

theorem Forms.head {tokens : List Token} {declaration : Declaration}
    (h : Forms limit depth tokens declaration) : ∃ name rest, tokens = .ident name :: rest := by
  cases h
  exact ⟨_, _, rfl⟩

theorem BlockForms.head {tokens : List Token} {declarations : List Declaration}
    (h : BlockForms limit depth tokens declarations) {t : Token} (ht : t ∈ tokens.head?) :
    t = .whitespace ∨ t = .semicolon ∨ ∃ name, t = .ident name := by
  cases h with
  | nil => cases ht
  | skip hskip _ =>
    cases ht
    exact hskip.imp id .inl
  | declaration hform _ _ =>
    obtain ⟨name, rest, rfl⟩ := hform.head
    cases ht
    exact .inr (.inr ⟨name, rfl⟩)

theorem readBlock_sound {reader after : Reader} {declarations : List Declaration}
    (h : readBlock limit depth reader = .ok (declarations, after)) :
    ∃ tokens, reader.tokens = tokens ++ .closeBrace :: after.tokens ∧
      BlockForms limit depth tokens declarations := by
  fun_induction readBlock limit depth reader generalizing declarations after with
  | case1 reader hpeek =>
    cases h
    exact ⟨[], Reader.tokens_eq_of_peek hpeek (by simp), .nil⟩
  | case2 reader hpeek _ ih =>
    obtain ⟨tokens, htokens, hform⟩ := ih h
    refine ⟨_, ?_, .skip (.inl rfl) hform⟩
    rw [Reader.tokens_eq_of_peek hpeek (by simp), htokens]
    rfl
  | case3 reader hpeek _ ih =>
    obtain ⟨tokens, htokens, hform⟩ := ih h
    refine ⟨_, ?_, .skip (.inr rfl) hform⟩
    rw [Reader.tokens_eq_of_peek hpeek (by simp), htokens]
    rfl
  | case8 reader name hpeek declaration middle hread _ others final hrest ih =>
    cases h
    obtain ⟨front, hfront, hform, hends⟩ := read_sound hread
    obtain ⟨back, hback, hforms⟩ := ih hrest
    refine ⟨front ++ back, by rw [hfront, hback, List.append_assoc], .declaration hform ?_ hforms⟩
    intro t ht
    rw [Reader.peek_of_head? hback ht] at hends
    rcases hforms.head ht with rfl | rfl | ⟨_, rfl⟩
    · cases hends
    · rfl
    · cases hends
  | _ => simp_all [Reader.fail]

section

variable {reader : Reader}

theorem readBlock_closeBrace (hpeek : reader.peek = .closeBrace) :
    readBlock limit depth reader = .ok ([], reader.advance) := by
  unfold readBlock
  split <;> simp_all

theorem readBlock_skip (hpeek : reader.peek = .whitespace ∨ reader.peek = .semicolon) :
    readBlock limit depth reader = readBlock limit depth reader.advance := by
  rw [readBlock.eq_def]
  rcases hpeek with hpeek | hpeek <;> split <;> simp_all

theorem readBlock_declaration {name : String} {middle after : Reader} {declaration : Declaration}
    {declarations : List Declaration} (hpeek : reader.peek = .ident name)
    (hread : read limit depth reader = .ok (declaration, middle))
    (hrest : readBlock limit depth middle = .ok (declarations, after)) :
    readBlock limit depth reader = .ok (declaration :: declarations, after) := by
  unfold readBlock
  split
  case h_6 =>
    split
    · next hfail =>
      rw [hread] at hfail
      cases hfail
    · next hok =>
      rw [hread] at hok
      cases hok
      rw [hrest]
  all_goals simp_all

end

/-- A declaration ends where its block does, or in front of a semicolon. -/
theorem endsDeclaration_head {back rest : List Token} (h : ∀ t ∈ back.head?, t = .semicolon) :
    endsDeclaration ((back ++ .closeBrace :: rest).head?.getD .eof) = true := by
  cases back with
  | nil => rfl
  | cons t back =>
    rw [List.cons_append, List.head?_cons, Option.getD_some, h t rfl]
    rfl

theorem readBlock_complete {tokens rest : List Token} {declarations : List Declaration}
    (h : BlockForms limit depth tokens declarations) {reader : Reader}
    (htokens : reader.tokens = tokens ++ .closeBrace :: rest) :
    ∃ after, readBlock limit depth reader = .ok (declarations, after) ∧ after.tokens = rest := by
  induction h generalizing reader with
  | nil =>
    exact ⟨reader.advance, readBlock_closeBrace (Reader.peek_of_tokens htokens),
      Reader.tokens_advance htokens⟩
  | @skip token tokens declarations hskip _ ih =>
    obtain ⟨after, hread, hafter⟩ := ih (Reader.tokens_advance htokens)
    refine ⟨after, ?_, hafter⟩
    rw [readBlock_skip (by rwa [Reader.peek_of_tokens htokens]), hread]
  | @declaration front back declaration declarations hform hback _ ih =>
    rw [List.append_assoc] at htokens
    obtain ⟨middle, hread, hmiddle⟩ := read_complete hform (endsDeclaration_head hback) htokens
    obtain ⟨after, hrest, hafter⟩ := ih hmiddle
    obtain ⟨name, more, rfl⟩ := hform.head
    exact ⟨after, readBlock_declaration (Reader.peek_of_tokens htokens) hread hrest, hafter⟩

end DeepScope.Declaration
