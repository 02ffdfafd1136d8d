import DeepScope.Error

namespace DeepScope

/-- What is left of a list of tokens, behind the last one taken. -/
structure Reader where
  last : Position
  rest : List Located
deriving DecidableEq, Repr

/-- Why reading stopped, the place that is reported, and what was left then. -/
structure Failure where
  position : Position
  reason : GrammarError
  reader : Reader
deriving DecidableEq, Repr

namespace Reader

/-- A reader at the beginning of a list. Before any token is taken the first
    one is reported. -/
def ofTokens (tokens : List Located) : Reader :=
  ⟨(tokens.head?.map Located.position).getD ⟨0, 0⟩, tokens⟩

/-- The next token. Behind the list there is nothing but its end. -/
def peek (reader : Reader) : Token :=
  (reader.rest.head?.map Located.token).getD .eof

/-- Where the next token begins. -/
def here (reader : Reader) : Position :=
  (reader.rest.head?.map Located.position).getD reader.last

/-- Takes the next token. -/
def advance (reader : Reader) : Reader :=
  match reader.rest with
  | [] => reader
  | item :: rest => ⟨item.position, rest⟩

/-- A failure at the last token taken. -/
def fail {α : Type} (reader : Reader) (reason : GrammarError) : Except Failure α :=
  .error ⟨reader.last, reason, reader⟩

/-- Takes white space. -/
def skipBlanks (reader : Reader) : Reader :=
  go reader.last reader.rest
where
  go (last : Position) : List Located → Reader
    | [] => ⟨last, []⟩
    | item :: rest =>
      if item.token = .whitespace then go item.position rest else ⟨last, item :: rest⟩

/-- Taking anything but the end leaves fewer tokens. -/
theorem advance_length_lt (reader : Reader) (h : reader.peek ≠ .eof) :
    reader.advance.rest.length < reader.rest.length := by
  unfold peek at h
  unfold advance
  cases hrest : reader.rest with
  | nil => simp [hrest] at h
  | cons item rest => simp

theorem advance_length_le (reader : Reader) :
    reader.advance.rest.length ≤ reader.rest.length := by
  unfold advance
  cases hrest : reader.rest with
  | nil => simp [hrest]
  | cons item rest => simp

theorem skipBlanks_length_le (reader : Reader) :
    reader.skipBlanks.rest.length ≤ reader.rest.length := by
  unfold skipBlanks
  generalize reader.last = last
  induction reader.rest generalizing last with
  | nil => simp [skipBlanks.go]
  | cons item rest ih =>
    rw [skipBlanks.go]
    split
    · have := ih item.position
      simp only [List.length_cons]
      omega
    · exact Nat.le_refl _

end Reader

end DeepScope
