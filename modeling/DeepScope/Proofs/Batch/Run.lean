import DeepScope.Batch.Run
import DeepScope.Proofs.Batch.Transform

namespace DeepScope

namespace FileTree

variable {config : Config} {tree before after : FileTree} {input path : String}
  {writes : List (Location × Bytes)} {inputs : List String}

/-- Transforms files of a tree in order, with nothing in the place of those that
    fail. -/
def transformAll (config : Config) (tree : FileTree) :
    List String → List (Option FileReport) × FileTree
  | [] => ([], tree)
  | input :: rest =>
    let (outcomes, after) := (tree.transform config input).2.transformAll config rest
    ((tree.transform config input).1.toOption :: outcomes, after)

theorem isFile_of_read {bytes : Bytes} (h : tree.read path = .ok bytes) : tree.isFile path = true := by
  obtain ⟨place, hresolve, hlookup⟩ := read_eq_ok.1 h
  rw [isFile, hresolve]
  dsimp only
  rw [hlookup]

/-- What cannot be read is not transformed, and what is no file cannot be
    read. -/
theorem transform_of_not_isFile (config : Config) (h : tree.isFile input = false) :
    (tree.transform config input).1.toOption = none ∧ (tree.transform config input).2 = tree := by
  unfold transform
  cases hprepare : tree.prepare config input with
  | error reason => exact ⟨rfl, rfl⟩
  | ok pair =>
    obtain ⟨-, bytes, hread, -⟩ := prepare_eq_ok.1 hprepare
    rw [isFile_of_read hread] at h
    cases h

end FileTree

namespace InMemory

variable {tree : FileTree}

theorem performs_tryFile (config : Config) (input : String) :
    Performs (tryFile config input) tree (tree.transform config input).1.toOption
      (tree.transform config input).2 := by
  refine (performs_isFile input).bind ?_
  cases hfile : tree.isFile input with
  | false =>
    obtain ⟨houtcome, hafter⟩ := FileTree.transform_of_not_isFile config hfile
    rw [houtcome, hafter]
    exact (performs_log _).bind (performs_pure _)
  | true =>
    refine (performs_transformFile config input).bind ?_
    cases (tree.transform config input).1 <;> exact (performs_log _).bind (performs_pure _)

theorem performs_tryFiles (config : Config) (inputs : List String) :
    Performs (tryFiles config inputs) tree (tree.transformAll config inputs).1
      (tree.transformAll config inputs).2 := by
  induction inputs generalizing tree with
  | nil => exact performs_pure _
  | cons input rest ih => exact (performs_tryFile config input).bind (ih.bind (performs_pure _))

theorem performs_run (config : Config) (inputs : List String) :
    Performs (run config inputs) tree (summarize (tree.transformAll config inputs).1)
      (tree.transformAll config inputs).2 :=
  (performs_tryFiles config inputs).bind (performs_pure _)

end InMemory

namespace FileTree

variable {config : Config} {tree before after : FileTree} {input path : String}
  {writes : List (Location × Bytes)} {inputs : List String}

theorem prepare_congr (h : ∀ bytes, after.read input = .ok bytes ↔ before.read input = .ok bytes)
    (pair : OutputPaths × StyleSheet) :
    after.prepare config input = .ok pair ↔ before.prepare config input = .ok pair := by
  obtain ⟨outputs, sheet⟩ := pair
  simp only [prepare_eq_ok, h]

/-- An input is transformed in the same way where it has the same contents and the
    same places are directories. -/
theorem SameDirectories.transform_eq (config : Config) (hsame : SameDirectories before after)
    (hread : ∀ bytes, after.read input = .ok bytes ↔ before.read input = .ok bytes) :
    (after.transform config input).1.toOption = (before.transform config input).1.toOption ∧
      after.writesFor config input = before.writesFor config input := by
  unfold transform writesFor
  cases hbefore : before.prepare config input with
  | error reason =>
    cases hafter : after.prepare config input with
    | error reason' => exact ⟨rfl, rfl⟩
    | ok pair =>
      rw [(prepare_congr hread pair).1 hafter] at hbefore
      cases hbefore
  | ok pair =>
    rw [(prepare_congr hread pair).2 hbefore]
    obtain ⟨outputs, sheet⟩ := pair
    refine ⟨?_, hsame.writesOf_eq _⟩
    dsimp only
    have hiff : (after.writeAll ((Rendering.ofSheet config sheet).files outputs)).1 = .ok () ↔
        (before.writeAll ((Rendering.ofSheet config sheet).files outputs)).1 = .ok () := by
      simp only [writeAll_eq_ok, hsame.admits_iff]
    cases hafter : (after.writeAll ((Rendering.ofSheet config sheet).files outputs)).1 with
    | error =>
      cases hbefore : (before.writeAll ((Rendering.ofSheet config sheet).files outputs)).1 with
      | error => rfl
      | ok =>
        rw [hiff.2 hbefore] at hafter
        cases hafter
    | ok => rw [hiff.1 hafter]

/-- Inputs that no earlier one has put anything in the place of, and that leave one
    another alone, are all transformed as in the tree at the beginning. -/
theorem transformAll_put (hvacates : tree.Vacates writes)
    (huntouched : ∀ input ∈ inputs, ∀ write ∈ writes, tree.resolve input ≠ .ok write.1)
    (halone : ∀ input ∈ inputs, ∀ other ∈ inputs, tree.LeavesAlone config input other) :
    (tree.put writes).transformAll config inputs =
      (inputs.map fun input => (tree.transform config input).1.toOption,
        tree.put (writes ++ inputs.flatMap (tree.writesFor config))) := by
  induction inputs generalizing writes with
  | nil => simp [transformAll]
  | cons input rest ih =>
    obtain ⟨houtcome, hwrites⟩ := hvacates.sameDirectories_put.transform_eq config
      fun _ => hvacates.read_put (huntouched input List.mem_cons_self)
    have hrest : (tree.put (writes ++ tree.writesFor config input)).transformAll config rest = _ :=
      ih (List.forall_mem_append.2 ⟨hvacates, vacates_writesFor config tree input⟩)
        (fun other hother => List.forall_mem_append.2
          ⟨huntouched other (List.mem_cons_of_mem input hother),
            halone input List.mem_cons_self other (List.mem_cons_of_mem input hother)⟩)
        fun first hfirst second hsecond =>
          halone first (List.mem_cons_of_mem input hfirst) second (List.mem_cons_of_mem input hsecond)
    rw [transformAll, houtcome, transform_eq_put, hwrites, ← put_append, hrest, List.map_cons,
      List.flatMap_cons, List.append_assoc]

theorem agrees_flatMap_writesFor
    (halone : ∀ input ∈ inputs, ∀ other ∈ inputs, tree.LeavesAlone config input other) :
    Agrees (inputs.flatMap (tree.writesFor config)) := by
  intro write hwrite write' hwrite' hplace
  obtain ⟨input, hinput, hwrite⟩ := List.mem_flatMap.1 hwrite
  obtain ⟨other, hother, hwrite'⟩ := List.mem_flatMap.1 hwrite'
  exact (halone input hinput other hother).agrees (halone other hother input hinput) hwrite hwrite'
    hplace

theorem vacates_flatMap_writesFor (config : Config) (tree : FileTree) (inputs : List String) :
    tree.Vacates (inputs.flatMap (tree.writesFor config)) := by
  intro write hwrite
  obtain ⟨input, -, hwrite⟩ := List.mem_flatMap.1 hwrite
  exact vacates_writesFor config tree input write hwrite

instance (config : Config) (tree : FileTree) (input other : String) :
    Decidable (tree.LeavesAlone config input other) :=
  decidable_of_iff
    (∀ write ∈ tree.writesFor config input, (tree.resolve other).toOption ≠ some write.1)
    ⟨fun h write hwrite heq => h write hwrite (heq ▸ rfl),
      fun h write hwrite heq => h write hwrite (eq_ok_of_toOption heq)⟩

end FileTree

/-- Runs that come to the same, but for the order of the reports. -/
def SameUpToOrder : Except RunError (List FileReport) → Except RunError (List FileReport) → Prop
  | .ok reports, .ok reports' => reports.Perm reports'
  | .error failure, .error failure' => failure = failure'
  | _, _ => False

theorem summarize_perm {outcomes outcomes' : List (Option FileReport)}
    (h : outcomes.Perm outcomes') : SameUpToOrder (summarize outcomes) (summarize outcomes') := by
  have hreports := h.filterMap id
  unfold summarize
  dsimp only
  rw [← h.length_eq, ← hreports.length_eq]
  split
  · exact hreports
  · exact rfl

/-- The order in which files are transformed makes no difference, as long as no file
    that is written for one of them alone is another one of them. The files are
    the same afterwards, and so are the reports, or the number of those that
    failed. -/
theorem run_perm (config : Config) (snapshot : Snapshot) {inputs inputs' : List String}
    (hperm : inputs.Perm inputs')
    (halone : ∀ input ∈ inputs, ∀ other ∈ inputs, input ≠ other →
      snapshot.files.LeavesAlone config input other) :
    (∀ place, ((run config inputs' : InMemory _).run snapshot).2.files.lookup place =
      ((run config inputs : InMemory _).run snapshot).2.files.lookup place) ∧
    SameUpToOrder ((run config inputs : InMemory _).run snapshot).1
      ((run config inputs' : InMemory _).run snapshot).1 := by
  have halone : ∀ input ∈ inputs, ∀ other ∈ inputs, snapshot.files.LeavesAlone config input other := by
    intro input hinput other hother
    by_cases heq : input = other
    · exact heq ▸ FileTree.leavesAlone_self config snapshot.files input
    · exact halone input hinput other hother heq
  have hrun : ∀ list : List String, inputs.Perm list → ∃ log,
      (run config list : InMemory _).run snapshot =
        (summarize (list.map fun input => (snapshot.files.transform config input).1.toOption),
          ⟨snapshot.files.put (list.flatMap (snapshot.files.writesFor config)), log⟩) := by
    intro list hlist
    obtain ⟨log, hlog⟩ := InMemory.Performs.run snapshot (InMemory.performs_run config list)
    have hall : (snapshot.files.put []).transformAll config list = _ :=
      FileTree.transformAll_put nofun nofun fun input hinput other hother =>
        halone input (hlist.mem_iff.2 hinput) other (hlist.mem_iff.2 hother)
    rw [show snapshot.files.transformAll config list = _ from hall] at hlog
    exact ⟨log, hlog⟩
  obtain ⟨log, hfirst⟩ := hrun inputs (.refl inputs)
  obtain ⟨log', hsecond⟩ := hrun inputs' hperm
  rw [hfirst, hsecond]
  exact ⟨fun place => (FileTree.vacates_flatMap_writesFor config snapshot.files inputs).lookup_put_perm
    (FileTree.agrees_flatMap_writesFor halone) (hperm.flatMap_right _) place,
    summarize_perm (hperm.map _)⟩

/-- Two stylesheets in different directories that have nothing to do with one
    another. -/
theorem run_separate :
    (∀ place, ((run ⟨none, false, none⟩ ["/t/b.css", "a.css"] : InMemory _).run
        (.ofSheets [("a.css", "a{}"), ("/t/b.css", "b{}")])).2.files.lookup place =
      ((run ⟨none, false, none⟩ ["a.css", "/t/b.css"] : InMemory _).run
        (.ofSheets [("a.css", "a{}"), ("/t/b.css", "b{}")])).2.files.lookup place) ∧
    SameUpToOrder
      ((run ⟨none, false, none⟩ ["a.css", "/t/b.css"] : InMemory _).run
        (.ofSheets [("a.css", "a{}"), ("/t/b.css", "b{}")])).1
      ((run ⟨none, false, none⟩ ["/t/b.css", "a.css"] : InMemory _).run
        (.ofSheets [("a.css", "a{}"), ("/t/b.css", "b{}")])).1 :=
  run_perm _ _ (.swap "/t/b.css" "a.css" []) (by decide +kernel)

/-- A stylesheet that is the minified output of another one. Whether it is scoped as
    it was, or as it is after it has been written anew, depends on the order. -/
theorem run_overlapping :
    ["a.css", "a.min.css"].Perm ["a.min.css", "a.css"] ∧ ["a.css", "a.min.css"].Nodup ∧
    (∀ input ∈ ["a.css", "a.min.css"], endsWith input ".css") ∧
    ((run ⟨none, false, none⟩ ["a.css", "a.min.css"] : InMemory _).run
        (.ofSheets [("a.css", ""), ("a.min.css", "a{}")])).2.files.lookup
          ["work", "a.min_deep.css"] ≠
      ((run ⟨none, false, none⟩ ["a.min.css", "a.css"] : InMemory _).run
        (.ofSheets [("a.css", ""), ("a.min.css", "a{}")])).2.files.lookup
          ["work", "a.min_deep.css"] :=
  ⟨.swap "a.min.css" "a.css" [], by decide, by decide +kernel, by decide +kernel⟩

end DeepScope
