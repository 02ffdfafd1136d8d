import DeepScope.Proofs.Script.Basic

namespace DeepScope.Script

variable {α : Type}

/-- A limit changes nothing but that some of what is read is too deep. -/
theorem run_limit (script : Script α) (limit depth : Nat) (reader : Reader) :
    script.run (some limit) depth reader = script.run none depth reader ∨
      ∃ failure, script.run (some limit) depth reader = .error failure ∧
        failure.reason = .tooDeep := by
  induction script generalizing depth reader with
  | done | fail | refuse => exact .inl rfl
  | peek next ih => exact ih reader.peek depth reader
  | here next ih => exact ih reader.here depth reader
  | take next ih =>
    simp only [run]
    split
    · exact .inl rfl
    · exact ih depth reader.advance
  | nested inside next ihInside ih =>
    simp only [run]
    have hnone : mayNest none depth = true := rfl
    rw [if_pos hnone]
    split
    · obtain hsame | ⟨failure, herror, hreason⟩ := ihInside (depth + 1) reader
      · rw [hsame]
        cases inside.run none (depth + 1) reader with
        | error failure => exact .inl rfl
        | ok pair => exact ih pair.1 depth pair.2
      · exact .inr ⟨failure, by rw [herror], hreason⟩
    · exact .inr ⟨_, rfl, rfl⟩

/-- A reader that keeps count of the levels it is in. -/
structure Counted where
  reader : Reader
  depth : Nat
deriving DecidableEq, Repr

/-- Runs a script on one count of levels for all of its steps. What is nested
    counts one level up and, however it ends, down again. -/
def execute (limit : Option Nat) : {α : Type} → Script α → Counted → Except Failure α × Counted
  | _, .done result, state => (.ok result, state)
  | _, .fail place reason, state =>
    (.error ⟨place.getD state.reader.last, reason, state.reader⟩, state)
  | _, .refuse reason, state =>
    let state := { state with reader := state.reader.advance }
    (state.reader.fail reason, state)
  | _, .peek next, state => (next state.reader.peek).execute limit state
  | _, .here next, state => (next state.reader.here).execute limit state
  | _, .take next, state =>
    let after := { state with reader := state.reader.advance }
    if state.reader.peek = .eof then (after.reader.fail .unexpectedEnd, after)
    else next.execute limit after
  | _, .nested inside next, state =>
    if mayNest limit state.depth then
      match inside.execute limit { state with depth := state.depth + 1 } with
      | (.error failure, after) => (.error failure, { after with depth := after.depth - 1 })
      | (.ok found, after) => (next found).execute limit { after with depth := after.depth - 1 }
    else (state.reader.fail .tooDeep, state)

/-- The depth that is handed down to what is nested is the one that is counted. -/
theorem execute_run (limit : Option Nat) (script : Script α) (state : Counted) :
    script.execute limit state =
      match script.run limit state.depth state.reader with
      | .error failure => (.error failure, ⟨failure.reader, state.depth⟩)
      | .ok (result, after) => (.ok result, ⟨after, state.depth⟩) := by
  induction script generalizing state with
  | done | fail | refuse => rfl
  | peek next ih => exact ih state.reader.peek state
  | here next ih => exact ih state.reader.here state
  | take next ih =>
    simp only [execute, run]
    split
    · rfl
    · exact ih { state with reader := state.reader.advance }
  | nested inside next ihInside ih =>
    simp only [execute, run]
    split
    · rw [ihInside]
      cases inside.run limit (state.depth + 1) state.reader with
      | error failure => rfl
      | ok pair => exact ih pair.1 ⟨pair.2, state.depth⟩
    · rfl

/-- The count is back where it was, whether reading fails or not. -/
theorem execute_depth (limit : Option Nat) (script : Script α) (state : Counted) :
    (script.execute limit state).2.depth = state.depth := by
  rw [execute_run]
  split <;> rfl

end DeepScope.Script
