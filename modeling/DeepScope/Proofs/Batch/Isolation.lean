import DeepScope.Proofs.Batch.Run
import Mathlib.Data.List.Forall2
import Mathlib.Data.List.ReduceOption

namespace DeepScope

/-- Whether an error is only found when files are being written. -/
def FileError.isOfWriting : FileError → Bool
  | .unwritable .. => true
  | _ => false

/-- A file of a run, and the state in which its turn comes. -/
structure Turn where
  input : String
  state : Snapshot

namespace Turn

/-- What comes of transforming the file at its turn. -/
def result (config : Config) (turn : Turn) : Except FileError FileReport :=
  ((transformFile config turn.input : InMemory _).run turn.state).1

/-- There is a file, and it is transformed. -/
def Succeeds (config : Config) (turn : Turn) (report : FileReport) : Prop :=
  turn.state.files.isFile turn.input = true ∧ turn.result config = .ok report

/-- There is no file, or transforming it ends in an error. -/
def fails (config : Config) (turn : Turn) : Bool :=
  !turn.state.files.isFile turn.input || !(turn.result config).isOk

/-- It fails before the first file is written. -/
def FailsUnwritten (config : Config) (turn : Turn) : Prop :=
  turn.state.files.isFile turn.input = false ∨
    ∃ reason, turn.result config = .error reason ∧ reason.isOfWriting = false

instance (config : Config) (turn : Turn) : Decidable (turn.FailsUnwritten config) :=
  match h : turn.result config with
  | .ok _ => decidable_of_iff (turn.state.files.isFile turn.input = false) (by simp [FailsUnwritten, h])
  | .error reason =>
    decidable_of_iff (turn.state.files.isFile turn.input = false ∨ reason.isOfWriting = false)
      (by simp [FailsUnwritten, h])

end Turn

/-- The state behind files that have been tried, each in the state that the one before
    it has left. -/
def tried (config : Config) (snapshot : Snapshot) (inputs : List String) : Snapshot :=
  inputs.foldl (fun state input => ((tryFile config input : InMemory _).run state).2) snapshot

/-- The turns of files that are tried in order. -/
def turns (config : Config) (snapshot : Snapshot) : List String → List Turn
  | [] => []
  | input :: rest => ⟨input, snapshot⟩ :: turns config (tried config snapshot [input]) rest

/-- The reports on files that are tried in order, with nothing in the place of those
    that fail. -/
def reports (config : Config) (snapshot : Snapshot) (inputs : List String) :
    List (Option FileReport) :=
  ((tryFiles config inputs : InMemory _).run snapshot).1

section

variable {config : Config} {turn : Turn} {report : FileReport} {snapshot : Snapshot}
  {input : String} {inputs : List String} {outcomes : List (Option FileReport)}

namespace Turn

theorem result_eq (config : Config) (turn : Turn) :
    turn.result config = (turn.state.files.transform config turn.input).1 := by
  obtain ⟨log, hrun⟩ := InMemory.Performs.run turn.state
    (InMemory.performs_transformFile config turn.input)
  rw [result, hrun]

/-- What trying the file at its turn leaves of it. -/
theorem outcome_eq (config : Config) (turn : Turn) :
    ((tryFile config turn.input : InMemory _).run turn.state).1 = (turn.result config).toOption := by
  obtain ⟨log, hrun⟩ := InMemory.Performs.run turn.state (InMemory.performs_tryFile config turn.input)
  rw [hrun, result_eq]

/-- What is no file is not transformed. -/
theorem toOption_result (h : turn.state.files.isFile turn.input = false) :
    (turn.result config).toOption = none := by
  rw [result_eq]
  exact (FileTree.transform_of_not_isFile config h).1

theorem succeeds_iff : turn.Succeeds config report ↔ (turn.result config).toOption = some report := by
  constructor
  · rintro ⟨-, hresult⟩
    rw [hresult]
    rfl
  · intro h
    refine ⟨?_, eq_ok_of_toOption h⟩
    by_contra hmissing
    rw [toOption_result (Bool.eq_false_iff.2 hmissing)] at h
    cases h

theorem fails_eq (config : Config) (turn : Turn) :
    turn.fails config = (turn.result config).toOption.isNone := by
  unfold fails
  cases hfile : turn.state.files.isFile turn.input with
  | false => rw [toOption_result hfile, Bool.not_false, Bool.true_or, Option.isNone_none]
  | true => cases turn.result config <;> rfl

/-- A report is about the file whose turn it is. -/
theorem Succeeds.input_eq (h : turn.Succeeds config report) : report.input = turn.input := by
  have hresult := h.2
  rw [result_eq] at hresult
  unfold FileTree.transform at hresult
  split at hresult
  · cases hresult
  · obtain ⟨-, -, rfl⟩ := exists_of_map_eq_ok hresult
    rfl

/-- A failure before anything is written leaves the files as they are. -/
theorem FailsUnwritten.transform (h : turn.FailsUnwritten config) :
    (turn.state.files.transform config turn.input).1.toOption = none ∧
      (turn.state.files.transform config turn.input).2 = turn.state.files := by
  rcases h with hmissing | ⟨reason, hresult, hunwritten⟩
  · exact FileTree.transform_of_not_isFile config hmissing
  · rw [result_eq] at hresult
    rw [hresult]
    refine ⟨rfl, ?_⟩
    unfold FileTree.transform at hresult ⊢
    cases hprepare : turn.state.files.prepare config turn.input with
    | error => rfl
    | ok pair =>
      obtain ⟨outputs, sheet⟩ := pair
      rw [hprepare] at hresult
      obtain ⟨-, done, rest, -, -, -, hend⟩ := FileTree.writeAll_spec turn.state.files
        ((Rendering.ofSheet config sheet).files outputs)
      match rest, hend with
      | [], hend =>
        simp only [hend] at hresult
        cases hresult
      | (path, text) :: _, hend =>
        obtain ⟨why, herror, -⟩ := hend
        simp only [herror] at hresult
        cases hresult
        cases hunwritten

end Turn

theorem tried_append (config : Config) (snapshot : Snapshot) (front back : List String) :
    tried config snapshot (front ++ back) = tried config (tried config snapshot front) back :=
  List.foldl_append

theorem run_tryFiles (config : Config) (snapshot : Snapshot) (inputs : List String) :
    (tryFiles config inputs : InMemory _).run snapshot =
      (reports config snapshot inputs, tried config snapshot inputs) := by
  refine Prod.ext rfl ?_
  induction inputs generalizing snapshot with
  | nil => rfl
  | cons input rest ih => exact ih (tried config snapshot [input])

theorem run_eq (config : Config) (snapshot : Snapshot) (inputs : List String) :
    (run config inputs : InMemory _).run snapshot =
      (summarize (reports config snapshot inputs), tried config snapshot inputs) := by
  rw [run, StateT.run_bind, run_tryFiles]
  rfl

theorem reports_append (config : Config) (snapshot : Snapshot) (front back : List String) :
    reports config snapshot (front ++ back) =
      reports config snapshot front ++ reports config (tried config snapshot front) back := by
  induction front generalizing snapshot with
  | nil => rfl
  | cons input rest ih => exact congrArg (_ :: ·) (ih (tried config snapshot [input]))

/-- The reports tell for each turn what comes of it. -/
theorem reports_eq (config : Config) (snapshot : Snapshot) (inputs : List String) :
    reports config snapshot inputs =
      (turns config snapshot inputs).map fun turn => (turn.result config).toOption := by
  induction inputs generalizing snapshot with
  | nil => rfl
  | cons input rest ih =>
    rw [turns, List.map_cons, ← ih, ← Turn.outcome_eq]
    rfl

theorem map_input_turns (config : Config) (snapshot : Snapshot) (inputs : List String) :
    (turns config snapshot inputs).map Turn.input = inputs := by
  induction inputs generalizing snapshot with
  | nil => rfl
  | cons input rest ih => exact congrArg (input :: ·) (ih (tried config snapshot [input]))

theorem length_reports (config : Config) (snapshot : Snapshot) (inputs : List String) :
    (reports config snapshot inputs).length = inputs.length := by
  have hlength := congrArg List.length (map_input_turns config snapshot inputs)
  rw [List.length_map] at hlength
  rw [reports_eq, List.length_map, hlength]

/-- What has been logged before makes no difference to what is done with files. -/
theorem exists_tried (config : Config) (files : FileTree) (inputs : List String) :
    ∃ events, ∀ log, reports config ⟨files, log⟩ inputs = (files.transformAll config inputs).1 ∧
      tried config ⟨files, log⟩ inputs = ⟨(files.transformAll config inputs).2, log ++ events⟩ := by
  obtain ⟨events, hevents⟩ := @InMemory.performs_tryFiles files config inputs
  refine ⟨events, fun log => ?_⟩
  rw [← Prod.mk.injEq, ← run_tryFiles]
  exact hevents log

/-- Of a file that fails before anything is written nothing stays but what is logged. -/
theorem Turn.FailsUnwritten.exists_tried (h : turn.FailsUnwritten config) :
    ∃ events, tried config turn.state [turn.input] = ⟨turn.state.files, turn.state.log ++ events⟩ ∧
      reports config turn.state [turn.input] = [none] := by
  obtain ⟨houtcome, hfiles⟩ := h.transform
  obtain ⟨events, hevents⟩ := @InMemory.performs_tryFile turn.state.files config turn.input
  rw [houtcome, hfiles] at hevents
  have hrun := hevents turn.state.log
  refine ⟨events, congrArg Prod.snd hrun, ?_⟩
  exact congrArg ([·]) (congrArg Prod.fst hrun)

theorem map_some_reduceOption (h : ∀ outcome ∈ outcomes, outcome.isSome) :
    outcomes.reduceOption.map some = outcomes := by
  induction outcomes with
  | nil => rfl
  | cons outcome rest ih =>
    obtain ⟨hfirst, hrest⟩ := List.forall_mem_cons.1 h
    obtain ⟨report, rfl⟩ := Option.isSome_iff_exists.1 hfirst
    rw [List.reduceOption_cons_of_some, List.map_cons, ih hrest]

/-- A run comes to an end with all reports, or with the number of those that are
    missing. -/
theorem summarize_spec (outcomes : List (Option FileReport)) :
    match summarize outcomes with
    | .ok found => outcomes = found.map some
    | .error e => e = ⟨outcomes.countP Option.isNone, outcomes.length⟩ ∧ 0 < e.failed := by
  have hlength := List.length_eq_reduceOption_length_add_filter_none (l := outcomes)
  rw [← List.countP_eq_length_filter] at hlength
  have hsummarize : summarize outcomes =
      if outcomes.reduceOption.length = outcomes.length then .ok outcomes.reduceOption
      else .error ⟨outcomes.length - outcomes.reduceOption.length, outcomes.length⟩ := rfl
  rw [hsummarize]
  by_cases hall : outcomes.reduceOption.length = outcomes.length
  · rw [if_pos hall]
    exact (map_some_reduceOption (List.reduceOption_length_eq_iff.1 hall)).symm
  · have hcount : outcomes.length - outcomes.reduceOption.length = outcomes.countP Option.isNone := by
      omega
    have hpos : 0 < outcomes.countP Option.isNone := by omega
    rw [if_neg hall, hcount]
    exact ⟨rfl, hpos⟩

/-- Whether each turn of a run succeeds, with these reports in order, or how many of
    them fail. -/
theorem summarize_reports (config : Config) (snapshot : Snapshot) (inputs : List String) :
    match summarize (reports config snapshot inputs) with
    | .ok found => List.Forall₂ (Turn.Succeeds config) (turns config snapshot inputs) found
    | .error e =>
      e = ⟨(turns config snapshot inputs).countP (Turn.fails config), inputs.length⟩ ∧ 0 < e.failed := by
  have hcount : (reports config snapshot inputs).countP Option.isNone =
      (turns config snapshot inputs).countP (Turn.fails config) := by
    rw [reports_eq, List.countP_map]
    exact congrArg (List.countP · _) (funext fun turn => (Turn.fails_eq config turn).symm)
  have hspec := summarize_spec (reports config snapshot inputs)
  rw [hcount, length_reports] at hspec
  revert hspec
  cases summarize (reports config snapshot inputs) with
  | error e => exact id
  | ok found =>
    intro (hfound : reports config snapshot inputs = found.map some)
    rw [reports_eq, ← List.forall₂_eq_eq_eq, List.forall₂_map_left_iff,
      List.forall₂_map_right_iff] at hfound
    exact hfound.imp fun _ _ => Turn.succeeds_iff.2

theorem Turn.fails_of_forall₂ {turns : List Turn} {found : List FileReport}
    (h : List.Forall₂ (Succeeds config) turns found) :
    (∀ turn ∈ turns, turn.fails config = false) ∧
      found.map FileReport.input = turns.map Turn.input := by
  induction h with
  | nil => exact ⟨nofun, rfl⟩
  | cons hfirst _ ih =>
    refine ⟨List.forall_mem_cons.2 ⟨?_, ih.1⟩, ?_⟩
    · rw [fails_eq, succeeds_iff.1 hfirst, Option.isNone_some]
    · rw [List.map_cons, List.map_cons, hfirst.input_eq, ih.2]

end

/-- A file that fails stands for itself. Without one that fails before anything is
    written for it, the files at the end, the reports on the others and all that is
    logged on their account are the same. A run comes to an end with a report for
    each file, in their order, exactly if none of them fails at its turn, and
    otherwise with the number of those that do; either way all of them have been
    tried. -/
theorem run_isolates_failures (config : Config) (snapshot : Snapshot) :
    (∀ front input back, Turn.FailsUnwritten config ⟨input, tried config snapshot front⟩ →
      ((run config (front ++ input :: back) : InMemory _).run snapshot).2.files =
        ((run config (front ++ back) : InMemory _).run snapshot).2.files ∧
      (∃ before behind, before.length = front.length ∧
        reports config snapshot (front ++ input :: back) = before ++ none :: behind ∧
        reports config snapshot (front ++ back) = before ++ behind) ∧
      ∃ events later,
        ((run config (front ++ input :: back) : InMemory _).run snapshot).2.log =
          (tried config snapshot front).log ++ events ++ later ∧
        ((run config (front ++ back) : InMemory _).run snapshot).2.log =
          (tried config snapshot front).log ++ later) ∧
    ∀ inputs,
      ((run config inputs : InMemory _).run snapshot).2 = tried config snapshot inputs ∧
      match ((run config inputs : InMemory _).run snapshot).1 with
      | .ok found =>
        (∀ turn ∈ turns config snapshot inputs, turn.fails config = false) ∧
        List.Forall₂ (Turn.Succeeds config) (turns config snapshot inputs) found ∧
        found.map FileReport.input = inputs
      | .error e =>
        e = ⟨(turns config snapshot inputs).countP (Turn.fails config), inputs.length⟩ ∧
        ∃ turn ∈ turns config snapshot inputs, turn.fails config = true := by
  refine ⟨fun front input back hfails => ?_, fun inputs => ?_⟩
  · obtain ⟨events, htried, hreports⟩ := hfails.exists_tried
    obtain ⟨later, hlater⟩ := exists_tried config (tried config snapshot front).files back
    obtain ⟨hbehind, hafter⟩ := hlater (tried config snapshot front).log
    obtain ⟨hbehind', hafter'⟩ := hlater ((tried config snapshot front).log ++ events)
    have hstate : tried config snapshot (front ++ input :: back) =
        ⟨((tried config snapshot front).files.transformAll config back).2,
          (tried config snapshot front).log ++ events ++ later⟩ := by
      rw [← List.singleton_append, tried_append, tried_append, htried]
      exact hafter'
    have houtcomes : reports config snapshot (front ++ input :: back) =
        reports config snapshot front ++
          none :: ((tried config snapshot front).files.transformAll config back).1 := by
      rw [← List.singleton_append, reports_append, reports_append, hreports, htried, hbehind']
      rfl
    rw [run_eq, run_eq, hstate, houtcomes, tried_append, reports_append, hafter, hbehind]
    exact ⟨rfl, ⟨_, _, length_reports config snapshot front, rfl, rfl⟩, events, later, rfl, rfl⟩
  · rw [run_eq]
    refine ⟨rfl, ?_⟩
    have hspec := summarize_reports config snapshot inputs
    revert hspec
    dsimp only
    cases summarize (reports config snapshot inputs) with
    | error e =>
      rintro ⟨he, hpos⟩
      refine ⟨he, ?_⟩
      rw [he] at hpos
      exact List.countP_pos_iff.1 hpos
    | ok found =>
      intro hfound
      obtain ⟨hnone, hinputs⟩ := Turn.fails_of_forall₂ hfound
      rw [map_input_turns] at hinputs
      exact ⟨hnone, hfound, hinputs⟩

/-- A stylesheet that cannot be read and one that can, in the same directory. -/
def Snapshot.badAndGood : Snapshot :=
  .ofSheets [("/t/bad.css", "a{} \x7d"), ("/t/good.css", "a{}")]

/-- The one that can be read is transformed behind the other one, and behind a path to
    no file at all. -/
theorem run_isolates_unreadable :
    Turn.FailsUnwritten ⟨none, false, none⟩
      ⟨"/t/bad.css", tried ⟨none, false, none⟩ .badAndGood ["/t/missing.css"]⟩ ∧
    ((run ⟨none, false, none⟩ ["/t/missing.css", "/t/bad.css", "/t/good.css"] : InMemory _).run
        .badAndGood).2.files =
      ((run ⟨none, false, none⟩ ["/t/missing.css", "/t/good.css"] : InMemory _).run
        .badAndGood).2.files ∧
    ((run ⟨none, false, none⟩ ["/t/missing.css", "/t/bad.css", "/t/good.css"] : InMemory _).run
        .badAndGood).1 = .error ⟨2, 3⟩ ∧
    (((run ⟨none, false, none⟩ ["/t/missing.css", "/t/bad.css", "/t/good.css"] : InMemory _).run
        .badAndGood).2.files.changesSince Snapshot.badAndGood.files).map Prod.fst =
      [["", "t", "good_deep.min.css"], ["", "t", "good_deep.css"], ["", "t", "good.min.css"]] := by
  have hfails : Turn.FailsUnwritten ⟨none, false, none⟩
      ⟨"/t/bad.css", tried ⟨none, false, none⟩ .badAndGood ["/t/missing.css"]⟩ := by decide +kernel
  have hfiles := ((run_isolates_failures _ _).1 ["/t/missing.css"] "/t/bad.css" ["/t/good.css"]
    hfails).1
  simp only [List.singleton_append] at hfiles
  exact ⟨hfails, hfiles, by decide +kernel, by decide +kernel⟩

end DeepScope
