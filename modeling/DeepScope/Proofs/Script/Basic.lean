import DeepScope.Proofs.Reader
import DeepScope.Value.Reader

/-!
Scripts: what a reader does, one step after the other. What holds of every step holds of all that
is read by a script, whichever tokens there are.
-/

namespace DeepScope

/-- The steps of a reader. It looks at a token, or at its place, before it takes
    it. Reading stops with `refuse` behind the token at fault, and with `fail`
    where it is, for a reason at the last token taken or at another place. What
    is `nested` stands one level further in. -/
inductive Script : Type → Type 1 where
  | done {α : Type} (result : α) : Script α
  | fail {α : Type} (place : Option Position) (reason : GrammarError) : Script α
  | refuse {α : Type} (reason : GrammarError) : Script α
  | peek {α : Type} (next : Token → Script α) : Script α
  | here {α : Type} (next : Position → Script α) : Script α
  | take {α : Type} (next : Script α) : Script α
  | nested {α β : Type} (inside : Script β) (next : β → Script α) : Script α

namespace Script

/-- One script after the other. -/
def bind {β : Type} : {α : Type} → Script α → (α → Script β) → Script β
  | _, .done result, next => next result
  | _, .fail place reason, _ => .fail place reason
  | _, .refuse reason, _ => .refuse reason
  | _, .peek front, next => .peek fun token => (front token).bind next
  | _, .here front, next => .here fun place => (front place).bind next
  | _, .take front, next => .take (front.bind next)
  | _, .nested inside front, next => .nested inside fun found => (front found).bind next

instance : Monad Script where
  pure := .done
  bind := .bind

/-- The next token. -/
def look : Script Token := .peek .done

/-- Where the next token begins. -/
def place : Script Position := .here .done

/-- Takes the next token, which must not be the end. -/
def step : Script Unit := .take (.done ())

/-- Goes one level further in for a while. -/
def nest {α : Type} (inside : Script α) : Script α := .nested inside .done

/-- What is left to do when no more steps are allowed. -/
def exhausted {α : Type} : Script α := .fail none .unexpectedEnd

/-- Reads by a script inside so many other levels. Behind the end nothing is
    taken. -/
def run (limit : Option Nat) :
    {α : Type} → Script α → Nat → Reader → Except Failure (α × Reader)
  | _, .done result, _, reader => .ok (result, reader)
  | _, .fail place reason, _, reader => .error ⟨place.getD reader.last, reason, reader⟩
  | _, .refuse reason, _, reader => reader.advance.fail reason
  | _, .peek next, depth, reader => (next reader.peek).run limit depth reader
  | _, .here next, depth, reader => (next reader.here).run limit depth reader
  | _, .take next, depth, reader =>
    if reader.peek = .eof then reader.advance.fail .unexpectedEnd
    else next.run limit depth reader.advance
  | _, .nested inside next, depth, reader =>
    if mayNest limit depth then
      match inside.run limit (depth + 1) reader with
      | .error failure => .error failure
      | .ok (found, after) => (next found).run limit depth after
    else reader.fail .tooDeep

variable {α β : Type} {limit : Option Nat} {depth : Nat} {reader after : Reader}

theorem run_bind (script : Script α) (next : α → Script β) (depth : Nat) (reader : Reader) :
    (script >>= next).run limit depth reader =
      match script.run limit depth reader with
      | .error failure => .error failure
      | .ok (result, after) => (next result).run limit depth after := by
  show (script.bind next).run limit depth reader = _
  induction script generalizing depth reader with
  | done | fail | refuse => rfl
  | peek front ih => exact ih reader.peek next depth reader
  | here front ih => exact ih reader.here next depth reader
  | take front ih =>
    simp only [bind, run]
    split
    · rfl
    · exact ih next depth reader.advance
  | nested inside front _ ih =>
    simp only [bind, run]
    split
    · cases inside.run limit (depth + 1) reader with
      | error failure => rfl
      | ok pair => exact ih pair.1 next depth pair.2
    · rfl

@[simp] theorem run_pure (result : α) :
    (pure result : Script α).run limit depth reader = .ok (result, reader) := rfl

@[simp] theorem run_look (next : Token → Script α) :
    (look >>= next).run limit depth reader = (next reader.peek).run limit depth reader := rfl

@[simp] theorem run_place (next : Position → Script α) :
    (place >>= next).run limit depth reader = (next reader.here).run limit depth reader := rfl

theorem run_step (next : Unit → Script α) (h : reader.peek ≠ .eof) :
    (step >>= next).run limit depth reader = (next ()).run limit depth reader.advance :=
  if_neg h

theorem run_nest (inside : Script α) :
    (nest inside).run limit depth reader =
      if mayNest limit depth then inside.run limit (depth + 1) reader
      else reader.fail .tooDeep := by
  simp only [nest, run]
  split
  · cases inside.run limit (depth + 1) reader <;> rfl
  · rfl

/-- What is left of the tokens where reading stopped. -/
def leftover {α : Type} : Except Failure (α × Reader) → List Located
  | .error failure => failure.reader.rest
  | .ok (_, after) => after.rest

/-- What is left is the end of what was there, whether reading fails or not. -/
theorem leftover_run_suffix (limit : Option Nat) (script : Script α) (depth : Nat)
    (reader : Reader) : leftover (script.run limit depth reader) <:+ reader.rest := by
  induction script generalizing depth reader with
  | done | fail => exact List.suffix_rfl
  | refuse => exact reader.advance_suffix
  | peek next ih => exact ih reader.peek depth reader
  | here next ih => exact ih reader.here depth reader
  | take next ih =>
    simp only [run]
    split
    · exact reader.advance_suffix
    · exact (ih depth reader.advance).trans reader.advance_suffix
  | nested inside next ihInside ih =>
    have hinside := ihInside (depth + 1) reader
    simp only [run]
    split
    · cases hrun : inside.run limit (depth + 1) reader with
      | error failure =>
        rw [hrun] at hinside
        exact hinside
      | ok pair =>
        rw [hrun] at hinside
        exact (ih pair.1 depth pair.2).trans hinside
    · exact List.suffix_rfl

theorem leftover_run_length_le (limit : Option Nat) (script : Script α) (depth : Nat)
    (reader : Reader) :
    (leftover (script.run limit depth reader)).length ≤ reader.rest.length :=
  (leftover_run_suffix limit script depth reader).length_le

theorem run_suffix {script : Script α} {result : α}
    (h : script.run limit depth reader = .ok (result, after)) : after.rest <:+ reader.rest := by
  simpa only [h, leftover] using leftover_run_suffix limit script depth reader

theorem run_length_le {script : Script α} {result : α}
    (h : script.run limit depth reader = .ok (result, after)) :
    after.rest.length ≤ reader.rest.length :=
  (run_suffix h).length_le

end Script

end DeepScope
