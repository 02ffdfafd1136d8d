import DeepScope.Proofs.Script.Basic

namespace DeepScope

/-- The place of a token is the last one once the token is taken. -/
theorem Reader.advance_last (reader : Reader) : reader.advance.last = reader.here := by
  unfold Reader.advance Reader.here
  cases reader.rest <;> rfl

namespace Script

variable {α : Type} {limit : Option Nat} {tail tail' : List Located}

/-- Readers that differ at most in what lies behind the same tokens. -/
def SameAhead (tail tail' : List Located) (reader reader' : Reader) : Prop :=
  reader.last = reader'.last ∧
    ∃ ahead, reader.rest = ahead ++ tail ∧ reader'.rest = ahead ++ tail'

/-- The same failure, or the same result with such readers behind it. -/
def SameOutcome (tail tail' : List Located) :
    Except Failure (α × Reader) → Except Failure (α × Reader) → Prop
  | .error failure, .error failure' =>
    failure.position = failure'.position ∧ failure.reason = failure'.reason
  | .ok (result, after), .ok (result', after') =>
    result = result' ∧ SameAhead tail tail' after after'
  | _, _ => False

namespace SameAhead

variable {reader reader' : Reader}

theorem head (h : SameAhead tail tail' reader reader') (hhead : tail.head? = tail'.head?) :
    reader.rest.head? = reader'.rest.head? := by
  obtain ⟨-, ahead, hrest, hrest'⟩ := h
  rw [hrest, hrest', List.head?_append, List.head?_append, hhead]

theorem peek (h : SameAhead tail tail' reader reader') (hhead : tail.head? = tail'.head?) :
    reader.peek = reader'.peek := by
  rw [Reader.peek, Reader.peek, h.head hhead]

theorem here (h : SameAhead tail tail' reader reader') (hhead : tail.head? = tail'.head?) :
    reader.here = reader'.here := by
  rw [Reader.here, Reader.here, h.head hhead, h.1]

theorem last_advance (h : SameAhead tail tail' reader reader')
    (hhead : tail.head? = tail'.head?) : reader.advance.last = reader'.advance.last := by
  rw [Reader.advance_last, Reader.advance_last, h.here hhead]

/-- Taking a token in front of the tails leaves them. -/
theorem advance (h : SameAhead tail tail' reader reader') (hhead : tail.head? = tail'.head?)
    (hlength : tail.length < reader.rest.length) :
    SameAhead tail tail' reader.advance reader'.advance := by
  refine ⟨h.last_advance hhead, ?_⟩
  obtain ⟨-, ahead, hrest, hrest'⟩ := h
  cases ahead with
  | nil => simp [hrest] at hlength
  | cons item ahead => exact ⟨ahead, by simp [Reader.advance, hrest], by simp [Reader.advance, hrest']⟩

end SameAhead

/-- Tails that no script gets to in this reading: they begin with an end, or
    more than them is left. -/
def Unreached (tail : List Located) (outcome : Except Failure (α × Reader)) : Prop :=
  (tail.head?.map Located.token).getD .eof = .eof ∨ tail.length ≤ (leftover outcome).length

/-- A token that is taken stands in front of the tails. -/
theorem SameAhead.length_lt {reader reader' : Reader} (h : SameAhead tail tail' reader reader')
    (hne : reader.peek ≠ .eof) {next : Script α} {depth : Nat}
    (hunreached : Unreached tail (next.run limit depth reader.advance)) :
    tail.length < reader.rest.length := by
  rcases hunreached with hend | hleft
  · obtain ⟨-, ahead, hrest, -⟩ := h
    cases ahead with
    | nil => exact absurd (by rw [Reader.peek, hrest]; exact hend) hne
    | cons item ahead =>
      rw [hrest, List.length_append, List.length_cons]
      omega
  · have := leftover_run_length_le limit next depth reader.advance
    have := reader.advance_length_lt hne
    omega

/-- What is not reached behind a nested script is not reached inside. -/
theorem Unreached.inside {β : Type} {inside : Script β} {next : β → Script α} {depth : Nat}
    {reader : Reader} (hmay : mayNest limit depth = true)
    (h : Unreached tail ((Script.nested inside next).run limit depth reader)) :
    Unreached tail (inside.run limit (depth + 1) reader) := by
  refine h.imp_right fun hleft => ?_
  simp only [run] at hleft
  rw [if_pos hmay] at hleft
  cases hrun : inside.run limit (depth + 1) reader with
  | error failure => simpa only [hrun, leftover] using hleft
  | ok pair =>
    simp only [hrun] at hleft
    exact Nat.le_trans hleft (leftover_run_length_le _ _ _ _)

/-- Two readings that differ at most in what lies behind the next token, or
    behind an end, come out the same. -/
theorem run_same (script : Script α) (depth : Nat) (hhead : tail.head? = tail'.head?)
    {reader reader' : Reader} (h : SameAhead tail tail' reader reader')
    (hunreached : Unreached tail (script.run limit depth reader)) :
    SameOutcome tail tail' (script.run limit depth reader) (script.run limit depth reader') := by
  induction script generalizing depth reader reader' with
  | done => exact ⟨rfl, h⟩
  | fail place reason => exact ⟨by rw [h.1], rfl⟩
  | refuse reason => exact ⟨h.last_advance hhead, rfl⟩
  | peek next ih =>
    simp only [run, ← h.peek hhead]
    exact ih reader.peek depth h hunreached
  | here next ih =>
    simp only [run, ← h.here hhead]
    exact ih reader.here depth h hunreached
  | take next ih =>
    simp only [run, ← h.peek hhead] at hunreached ⊢
    split
    · exact ⟨h.last_advance hhead, rfl⟩
    · next hne =>
      rw [if_neg hne] at hunreached
      exact ih depth (h.advance hhead (h.length_lt hne hunreached)) hunreached
  | nested inside next ihInside ih =>
    by_cases hmay : mayNest limit depth = true
    · have hsame := ihInside (depth + 1) h (hunreached.inside hmay)
      simp only [run] at hunreached ⊢
      rw [if_pos hmay] at hunreached
      rw [if_pos hmay, if_pos hmay]
      revert hsame hunreached
      cases inside.run limit (depth + 1) reader with
      | error failure =>
        cases inside.run limit (depth + 1) reader' with
        | error failure' => exact fun hsame _ => hsame
        | ok pair => exact fun hsame _ => hsame.elim
      | ok pair =>
        cases inside.run limit (depth + 1) reader' with
        | error failure' => exact fun hsame _ => hsame.elim
        | ok pair' =>
          intro hsame hunreached
          obtain ⟨hresult, hahead⟩ := hsame
          simp only [← hresult]
          exact ih pair.1 depth hahead hunreached
    · simp only [run]
      rw [if_neg hmay, if_neg hmay]
      exact ⟨h.1, rfl⟩

end Script

end DeepScope
