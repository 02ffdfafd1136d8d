import DeepScope.Reader

namespace DeepScope.Reader

/-- The tokens that are left, without their places. -/
def tokens (reader : Reader) : List Token :=
  reader.rest.map Located.token

@[simp] theorem tokens_mk (last : Position) (items : List Located) :
    tokens ⟨last, items⟩ = items.map Located.token := rfl

theorem peek_eq (reader : Reader) : reader.peek = reader.tokens.head?.getD .eof := by
  rw [peek, tokens, List.head?_map]

theorem peek_of_tokens {reader : Reader} {token : Token} {tokens : List Token}
    (h : reader.tokens = token :: tokens) : reader.peek = token := by
  obtain ⟨last, items⟩ := reader
  cases items with
  | nil => cases h
  | cons item rest => exact (List.cons.inj h).1

/-- The first of some tokens that are left is in sight. -/
theorem peek_of_head? {reader : Reader} {token : Token} {front back : List Token}
    (h : reader.tokens = front ++ back) (hhead : token ∈ front.head?) : reader.peek = token := by
  cases front with
  | nil => cases hhead
  | cons first front =>
    cases hhead
    exact peek_of_tokens h

theorem peek_of_nil {reader : Reader} (h : reader.tokens = []) : reader.peek = .eof := by
  obtain ⟨last, items⟩ := reader
  cases items with
  | nil => rfl
  | cons item rest => cases h

theorem tokens_advance {reader : Reader} {token : Token} {tokens : List Token}
    (h : reader.tokens = token :: tokens) : reader.advance.tokens = tokens := by
  obtain ⟨last, items⟩ := reader
  cases items with
  | nil => cases h
  | cons item rest => exact (List.cons.inj h).2

/-- Taking a token leaves the end of what was there. -/
theorem advance_suffix (reader : Reader) : reader.advance.rest <:+ reader.rest := by
  unfold advance
  split
  · exact List.suffix_rfl
  · next hrest =>
    rw [hrest]
    exact List.suffix_cons _ _

/-- What is left is told by its tokens where it is the end of something that ends
    with these. -/
theorem rest_eq_of_suffix {reader : Reader} {front back : List Located}
    (hsuffix : reader.rest <:+ front ++ back) (htokens : reader.tokens = back.map Located.token) :
    reader.rest = back := by
  have hlength : reader.rest.length = back.length := by
    simpa [tokens] using congrArg List.length htokens
  have hback : reader.rest <:+ back :=
    List.suffix_of_suffix_length_le hsuffix (List.suffix_append front back) (Nat.le_of_eq hlength)
  exact hback.eq_of_length hlength

/-- A token in sight is the first one left. -/
theorem tokens_eq_of_peek {reader : Reader} {token : Token} (h : reader.peek = token)
    (hne : token ≠ .eof) : reader.tokens = token :: reader.advance.tokens := by
  obtain ⟨last, items⟩ := reader
  cases items with
  | nil => exact absurd h.symm hne
  | cons item rest => exact congrArg (· :: rest.map Located.token) h

theorem tokens_skipBlanks (reader : Reader) :
    reader.skipBlanks.tokens = reader.tokens.dropWhile (· = .whitespace) := by
  unfold skipBlanks tokens
  generalize reader.last = last
  induction reader.rest generalizing last with
  | nil => rfl
  | cons item rest ih =>
    rw [skipBlanks.go]
    split
    · next h => rw [ih, List.map_cons, List.dropWhile_cons_of_pos (by simp [h])]
    · next h => rw [List.map_cons, List.dropWhile_cons_of_neg (by simp [h])]

end DeepScope.Reader
