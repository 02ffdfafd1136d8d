import DeepScope.Proofs.Script.Local
import DeepScope.Proofs.Script.StyleSheet

namespace DeepScope

namespace Script

/-- What a reading comes to when the reader behind it is forgotten. -/
def verdict {α : Type} : Except Failure (α × Reader) → Except Error α
  | .error failure => .error failure.toError
  | .ok (result, _) => .ok result

theorem SameOutcome.verdict_eq {α : Type} {tail tail' : List Located}
    {outcome outcome' : Except Failure (α × Reader)} (h : SameOutcome tail tail' outcome outcome') :
    verdict outcome' = verdict outcome := by
  cases outcome with
  | error failure =>
    cases outcome' with
    | error failure' => rw [verdict, verdict, Failure.toError, Failure.toError, h.1, h.2]
    | ok pair => exact h.elim
  | ok pair =>
    cases outcome' with
    | error failure' => exact h.elim
    | ok pair' => rw [verdict, verdict, h.1]

/-- Lists that agree on so many tokens and the next one, read from their
    beginning. -/
theorem SameAhead.ofTokens {items items' : List Located} {count : Nat}
    (h : items'.take (count + 1) = items.take (count + 1)) :
    SameAhead (items.drop count) (items'.drop count) (Reader.ofTokens items)
      (Reader.ofTokens items') := by
  have hhead : items'.head? = items.head? := by
    have := congrArg List.head? h
    simpa only [List.head?_take, Nat.succ_ne_zero, if_false] using this
  have hfront : items'.take count = items.take count := by
    have := congrArg (List.take count) h
    simpa only [List.take_take, Nat.min_eq_left (Nat.le_succ count)] using this
  refine ⟨by simp only [Reader.ofTokens, hhead], items.take count, ?_, ?_⟩
  · exact (List.take_append_drop count items).symm
  · rw [← hfront]
    exact (List.take_append_drop count items').symm

theorem head?_drop_of_take {items items' : List Located} {count : Nat}
    (h : items'.take (count + 1) = items.take (count + 1)) :
    (items.drop count).head? = (items'.drop count).head? := by
  have := congrArg (·[count]?) h
  simpa only [List.head?_drop, List.getElem?_take_of_lt (Nat.lt_succ_self count)] using this.symm

end Script

namespace StyleSheet

open Script

/-- The number of tokens that were taken from a list when reading stopped. -/
def taken (items : List Located) (failure : Failure) : Nat :=
  items.length - failure.reader.rest.length

theorem ofTokens_eq_verdict (items : List Located) :
    ofTokens items = verdict (readTokens (some nestingLimit) items).2 := by
  unfold ofTokens ofTokensNoted
  rcases readTokens (some nestingLimit) items with ⟨notes, failure | ⟨sheet, after⟩⟩ <;> rfl

theorem ofTokens_eq_run {items : List Located} {steps : Nat} (h : items.length < steps) :
    ofTokens items =
      verdict ((styleSheet steps).run (some nestingLimit) 0 (Reader.ofTokens items)) := by
  rw [ofTokens_eq_verdict, readTokens_eq h]
  cases (styleSheet steps).run (some nestingLimit) 0 (Reader.ofTokens items) <;> rfl

/-- Lists that agree on so many tokens and the next one read the same if no more
    than these are reached. -/
theorem ofTokens_of_take {items items' : List Located} {count steps : Nat}
    (hsteps : items.length + items'.length < steps)
    (hunreached : Unreached (items.drop count)
      ((styleSheet steps).run (some nestingLimit) 0 (Reader.ofTokens items)))
    (h : items'.take (count + 1) = items.take (count + 1)) :
    ofTokens items' = ofTokens items := by
  rw [ofTokens_eq_run (Nat.lt_of_le_of_lt (Nat.le_add_right _ _) hsteps),
    ofTokens_eq_run (Nat.lt_of_le_of_lt (Nat.le_add_left _ _) hsteps)]
  exact (run_same (styleSheet steps) 0 (head?_drop_of_take h) (.ofTokens h) hunreached).verdict_eq

/-- Reading fails fast, and nothing is read ahead. Of a list of tokens with an
    end among them, nothing behind the first end matters, neither for the
    stylesheet nor for an error; and an error does not depend on anything but
    the tokens taken until then and the next one. -/
theorem ofTokens_eq_of_agree (items : List Located)
    (hend : ∃ item ∈ items, item.token = .eof) :
    (∀ items' : List Located,
      items'.take (items.findIdx (·.token = .eof) + 1) =
        items.take (items.findIdx (·.token = .eof) + 1) →
      ofTokens items' = ofTokens items) ∧
    ∀ failure : Failure, (readTokens (some nestingLimit) items).2 = .error failure →
      ∀ items' : List Located,
        items'.take (min (taken items failure) (items.findIdx (·.token = .eof)) + 1) =
          items.take (min (taken items failure) (items.findIdx (·.token = .eof)) + 1) →
        ofTokens items' = .error failure.toError := by
  have hlt : items.findIdx (·.token = .eof) < items.length :=
    List.findIdx_lt_length.2 (by simpa using hend)
  have hfirst : ((items.drop (items.findIdx (·.token = .eof))).head?.map Located.token).getD .eof =
      .eof := by
    have := List.findIdx_getElem (w := hlt)
    rw [List.head?_drop, List.getElem?_eq_getElem hlt]
    simpa using this
  refine ⟨fun items' h => ?_, fun failure hfailure items' h => ?_⟩
  · exact ofTokens_of_take (Nat.lt_succ_self _) (.inl hfirst) h
  · have hitems : ofTokens items = .error failure.toError := by
      rw [ofTokens_eq_verdict, hfailure]
      rfl
    rw [← hitems]
    have hsteps := Nat.lt_succ_self (items.length + items'.length)
    refine ofTokens_of_take hsteps ?_ h
    rcases Nat.le_total (items.findIdx (·.token = .eof)) (taken items failure) with hle | hle
    · rw [Nat.min_eq_right hle]
      exact .inl hfirst
    · rw [Nat.min_eq_left hle]
      refine .inr ?_
      rw [readTokens_eq (Nat.lt_of_le_of_lt (Nat.le_add_right _ _) hsteps)] at hfailure
      cases hrun : (styleSheet (items.length + items'.length).succ).run (some nestingLimit) 0
          (Reader.ofTokens items) with
      | error failure' =>
        rw [hrun] at hfailure
        cases hfailure
        have := leftover_run_length_le (some nestingLimit)
          (styleSheet (items.length + items'.length).succ) 0 (Reader.ofTokens items)
        rw [hrun] at this
        have hlength : (Reader.ofTokens items).rest.length = items.length := rfl
        simp only [leftover, List.length_drop, taken] at this ⊢
        omega
      | ok pair =>
        rw [hrun] at hfailure
        cases hfailure

/-- Behind a stray brace nothing but the next token is looked at. -/
theorem ofTokens_stray :
    ofTokens [⟨.closeBrace, ⟨1, 1⟩⟩, ⟨.ident "a", ⟨1, 2⟩⟩, ⟨.closeParen, ⟨1, 3⟩⟩] =
      .error (.grammar ⟨1, 1⟩ .strayBrace) := by
  have hstray : (readRules (some nestingLimit) [] []
      ⟨⟨1, 1⟩, [⟨.closeBrace, ⟨1, 1⟩⟩, ⟨.ident "a", ⟨1, 2⟩⟩, ⟨.eof, ⟨1, 3⟩⟩]⟩).2 =
      .error ⟨⟨1, 1⟩, .strayBrace, ⟨⟨1, 1⟩, [⟨.ident "a", ⟨1, 2⟩⟩, ⟨.eof, ⟨1, 3⟩⟩]⟩⟩ :=
    readRules_stray rfl
  have hfailure : (readTokens (some nestingLimit)
      [⟨.closeBrace, ⟨1, 1⟩⟩, ⟨.ident "a", ⟨1, 2⟩⟩, ⟨.eof, ⟨1, 3⟩⟩]).2 =
      .error ⟨⟨1, 1⟩, .strayBrace, ⟨⟨1, 1⟩, [⟨.ident "a", ⟨1, 2⟩⟩, ⟨.eof, ⟨1, 3⟩⟩]⟩⟩ :=
    congrArg (Except.map _) hstray
  exact (ofTokens_eq_of_agree _ ⟨⟨.eof, ⟨1, 3⟩⟩, by simp, rfl⟩).2 _ hfailure _ rfl

end StyleSheet

end DeepScope
