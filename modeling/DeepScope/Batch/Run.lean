import DeepScope.Batch.Transform

namespace DeepScope

/-- How many files of a run failed. -/
structure RunError where
  failed : Nat
  total : Nat
deriving DecidableEq, Repr

/-- The wording of a failed run. -/
def RunError.message (e : RunError) : String :=
  toString e.failed ++ " of " ++ toString e.total ++ " files could not be transformed"

section

variable {m : Type → Type} [Monad m] [Workspace m]

/-- Transforms one file of a run, if it is there, and logs the outcome. -/
def tryFile (config : Config) (input : String) : m (Option FileReport) := do
  if ← Workspace.isFile input then
    match ← transformFile config input with
    | .ok report =>
      Workspace.log (.transformed input report.changed report.kept)
      pure (some report)
    | .error reason =>
      Workspace.log (.failed reason)
      pure none
  else
    Workspace.log (.missing input)
    pure none

/-- Transforms files in order, with nothing in the place of those that fail. -/
def tryFiles (config : Config) : List String → m (List (Option FileReport))
  | [] => pure []
  | input :: rest => do
    let outcome ← tryFile config input
    let outcomes ← tryFiles config rest
    pure (outcome :: outcomes)

/-- The result of a run: a report for each file, if none of them failed. -/
def summarize (outcomes : List (Option FileReport)) : Except RunError (List FileReport) :=
  let reports := outcomes.filterMap id
  if reports.length = outcomes.length then .ok reports
  else .error ⟨outcomes.length - reports.length, outcomes.length⟩

/-- Transforms all files of a run. -/
def run (config : Config) (inputs : List String) : m (Except RunError (List FileReport)) := do
  let outcomes ← tryFiles config inputs
  pure (summarize outcomes)

end

end DeepScope
