import DeepScope.Proofs.Files.Output
import DeepScope.Proofs.Files.Write

namespace DeepScope

namespace FileTree

/-- What is known of an input before anything is written for it: where its outputs
    belong, and its stylesheet. -/
def prepare (config : Config) (tree : FileTree) (input : String) :
    Except FileError (OutputPaths × StyleSheet) :=
  match OutputPaths.ofInput input with
  | none => .error (.badName input)
  | some outputs =>
    match tree.read input with
    | .error reason => .error (.unreadable input reason)
    | .ok bytes =>
      match StyleSheet.parseBytes bytes config.hint with
      | .error reason => .error (.unparsable input reason)
      | .ok sheet => .ok (outputs, sheet)

/-- Transforms a file of a tree. -/
def transform (config : Config) (tree : FileTree) (input : String) :
    Except FileError FileReport × FileTree :=
  match tree.prepare config input with
  | .error reason => (.error reason, tree)
  | .ok (outputs, sheet) =>
    let rendering := Rendering.ofSheet config sheet
    ((tree.writeAll (rendering.files outputs)).1.map fun () =>
      ⟨input, outputs, rendering.report.changed, rendering.report.kept⟩,
      (tree.writeAll (rendering.files outputs)).2)

end FileTree

namespace InMemory

variable {α β : Type} {before middle after tree : FileTree}

/-- From a tree of files an action gives a result and leaves another tree, whatever
    has been logged before, and it logs the same behind that. -/
def Performs (action : InMemory α) (before : FileTree) (result : α) (after : FileTree) : Prop :=
  ∃ events, ∀ log, action.run ⟨before, log⟩ = (result, ⟨after, log ++ events⟩)

theorem Performs.run {action : InMemory α} {result : α} (snapshot : Snapshot)
    (h : Performs action snapshot.files result after) :
    ∃ log, action.run snapshot = (result, ⟨after, log⟩) := by
  obtain ⟨events, hevents⟩ := h
  exact ⟨_, hevents snapshot.log⟩

theorem Performs.bind {action : InMemory α} {next : α → InMemory β} {first : α} {second : β}
    (h : Performs action before first middle) (hnext : Performs (next first) middle second after) :
    Performs (action >>= next) before second after := by
  obtain ⟨events, hevents⟩ := h
  obtain ⟨more, hmore⟩ := hnext
  refine ⟨events ++ more, fun log => ?_⟩
  rw [StateT.run_bind, hevents, ← List.append_assoc]
  exact hmore (log ++ events)

theorem performs_pure (result : α) : Performs (pure result) tree result tree :=
  ⟨[], fun log => by rw [List.append_nil]; rfl⟩

theorem performs_log (event : Event) : Performs (Workspace.log event) tree () tree :=
  ⟨[event], fun _ => rfl⟩

theorem performs_isFile (path : String) :
    Performs (Workspace.isFile path) tree (tree.isFile path) tree :=
  ⟨[], fun log => by rw [List.append_nil]; rfl⟩

theorem performs_read (path : String) : Performs (Workspace.read path) tree (tree.read path) tree :=
  ⟨[], fun log => by rw [List.append_nil]; rfl⟩

theorem performs_write_error {path : String} {bytes : Bytes} {reason : IoError}
    (h : tree.write path bytes = .error reason) :
    Performs (Workspace.write path bytes) tree (.error reason) tree := by
  refine ⟨[], fun log => ?_⟩
  show InMemory.write path bytes ⟨tree, log⟩ = _
  rw [InMemory.write, h, List.append_nil]

theorem performs_write_ok {path : String} {bytes : Bytes} (h : before.write path bytes = .ok after) :
    Performs (Workspace.write path bytes) before (.ok ()) after := by
  refine ⟨[], fun log => ?_⟩
  show InMemory.write path bytes ⟨before, log⟩ = _
  rw [InMemory.write, h, List.append_nil]

theorem performs_logAll (events : List Event) : Performs (logAll events) tree () tree := by
  induction events with
  | nil => exact performs_pure ()
  | cons event rest ih => exact (performs_log event).bind ih

theorem performs_writeAll (files : List (String × String)) :
    Performs (writeAll files) tree (tree.writeAll files).1 (tree.writeAll files).2 := by
  induction files generalizing tree with
  | nil => exact performs_pure _
  | cons file rest ih =>
    obtain ⟨path, text⟩ := file
    rw [FileTree.writeAll]
    cases hwrite : tree.write path (FileTree.textBytes text) with
    | error reason => exact (performs_write_error hwrite).bind (performs_pure _)
    | ok next => exact (performs_write_ok hwrite).bind ((performs_log _).bind ih)

theorem performs_transformFile (config : Config) (input : String) :
    Performs (transformFile config input) tree (tree.transform config input).1
      (tree.transform config input).2 := by
  unfold transformFile FileTree.transform FileTree.prepare
  cases OutputPaths.ofInput input with
  | none => exact performs_pure _
  | some outputs =>
    refine (performs_read input).bind ?_
    cases tree.read input with
    | error reason => exact performs_pure _
    | ok bytes =>
      refine (performs_logAll _).bind ?_
      dsimp only
      cases StyleSheet.parseBytes bytes config.hint with
      | error reason => exact performs_pure _
      | ok sheet =>
        refine (performs_log _).bind ((performs_logAll _).bind ((performs_writeAll _).bind ?_))
        dsimp only
        cases (tree.writeAll ((Rendering.ofSheet config sheet).files outputs)).1 <;>
          exact performs_pure _

end InMemory

namespace FileTree

variable {config : Config} {tree : FileTree} {input other : String} {outputs : OutputPaths}
  {sheet : StyleSheet} {write write' : Location × Bytes}

theorem prepare_eq_ok : tree.prepare config input = .ok (outputs, sheet) ↔
    OutputPaths.ofInput input = some outputs ∧
      ∃ bytes, tree.read input = .ok bytes ∧ StyleSheet.parseBytes bytes config.hint = .ok sheet := by
  unfold prepare
  cases OutputPaths.ofInput input with
  | none => simp
  | some outputs' =>
    cases tree.read input with
    | error reason => simp
    | ok bytes =>
      simp only [Option.some.injEq, Except.ok.injEq, exists_eq_left']
      cases StyleSheet.parseBytes bytes config.hint <;> simp

/-- What transforming an input puts where. -/
def writesFor (config : Config) (tree : FileTree) (input : String) : List (Location × Bytes) :=
  match tree.prepare config input with
  | .error _ => []
  | .ok (outputs, sheet) => tree.writesOf ((Rendering.ofSheet config sheet).files outputs)

theorem vacates_writesFor (config : Config) (tree : FileTree) (input : String) :
    tree.Vacates (tree.writesFor config input) := by
  unfold writesFor
  split
  · exact nofun
  · exact vacates_writesOf tree _

theorem transform_eq_put (config : Config) (tree : FileTree) (input : String) :
    (tree.transform config input).2 = tree.put (tree.writesFor config input) := by
  unfold transform writesFor
  cases tree.prepare config input with
  | error reason => rfl
  | ok pair => exact (writeAll_spec tree _).1

/-- The input stands in a directory under a name that ends in `.css`, and this is its
    stylesheet. -/
structure Source (config : Config) (tree : FileTree) (input : String) (directory : Location)
    (stem : String) (sheet : StyleSheet) : Prop where
  place : tree.resolve input = .ok (directory ++ [stem ++ ".css"])
  contents : ∃ bytes, tree.lookup (directory ++ [stem ++ ".css"]) = some (.file bytes) ∧
    StyleSheet.parseBytes bytes config.hint = .ok sheet

/-- What is put anywhere for an input is one of three texts, under a name of its own
    beside the input. The last one is not put anywhere unless the second one
    is. -/
theorem exists_source_of_mem_writesFor (h : write ∈ tree.writesFor config input) :
    ∃ directory stem sheet, Source config tree input directory stem sheet ∧
      (write = (directory ++ [stem ++ ".min.css"], textBytes (Rendering.ofSheet config sheet).minified) ∨
        write = (directory ++ [stem ++ "_deep.css"], textBytes (Rendering.ofSheet config sheet).deep) ∨
        write = (directory ++ [stem ++ "_deep.min.css"],
          textBytes (Rendering.ofSheet config sheet).deepMinified) ∧
        ∃ earlier ∈ tree.writesFor config input, earlier.1 = directory ++ [stem ++ "_deep.css"]) := by
  unfold writesFor at h ⊢
  cases hprepare : tree.prepare config input with
  | error reason =>
    rw [hprepare] at h
    cases h
  | ok pair =>
    obtain ⟨outputs, sheet⟩ := pair
    rw [hprepare] at h
    obtain ⟨hname, bytes, hread, hparse⟩ := prepare_eq_ok.1 hprepare
    obtain ⟨place, hresolve, hlookup⟩ := read_eq_ok.1 hread
    obtain ⟨directory, stem, rfl, hminified, hdeep, hdeepMinified⟩ :=
      exists_output_places hname hresolve
    refine ⟨directory, stem, sheet, ⟨hresolve, bytes, hlookup, hparse⟩, ?_⟩
    obtain ⟨place, contents⟩ := write
    obtain ⟨front, path, text, back, hfiles, hfront, hplace, htext⟩ := exists_of_mem_writesOf h
    obtain rfl : contents = textBytes text := htext
    unfold Rendering.files at hfiles
    match front, hfiles with
    | [], hfiles =>
      cases hfiles
      exact .inl (by rw [← hminified place hplace])
    | [_], hfiles =>
      cases hfiles
      exact .inr (.inl (by rw [← hdeep place hplace]))
    | [_, _], hfiles =>
      cases hfiles
      obtain ⟨earlier, hearlier, hplace'⟩ := hfront _ (List.mem_cons_of_mem _ List.mem_cons_self)
      exact .inr (.inr ⟨by rw [← hdeepMinified place hplace], earlier, hearlier,
        hdeep earlier.1 hplace'⟩)
    | _ :: _ :: _ :: _, hfiles => simp at hfiles

/-- Transforming one input puts nothing where the other one leads. -/
def LeavesAlone (config : Config) (tree : FileTree) (input other : String) : Prop :=
  ∀ write ∈ tree.writesFor config input, tree.resolve other ≠ .ok write.1

theorem leavesAlone_self (config : Config) (tree : FileTree) (input : String) :
    tree.LeavesAlone config input input := by
  intro write hwrite hresolve
  obtain ⟨directory, stem, sheet, hsource, rfl | rfl | ⟨rfl, -⟩⟩ :=
    exists_source_of_mem_writesFor hwrite <;>
  · rw [hsource.place] at hresolve
    simp at hresolve

theorem min_ne_deep (stem stem' : String) : stem ++ ".min.css" ≠ stem' ++ "_deep.css" := by
  intro h
  have := congrArg (fun text => text.toList.reverse) h
  simp at this

theorem deep_ne_deepMin (stem stem' : String) : stem ++ "_deep.css" ≠ stem' ++ "_deep.min.css" := by
  intro h
  have := congrArg (fun text => text.toList.reverse) h
  simp at this

theorem min_eq_deepMin {stem stem' : String} (h : stem ++ ".min.css" = stem' ++ "_deep.min.css") :
    stem = stem' ++ "_deep" := by
  have hsame : stem ++ ".min.css" = stem' ++ "_deep" ++ ".min.css" := by
    rw [h, String.append_assoc]
    rfl
  exact (String.append_left_inj _).1 hsame

theorem Source.sheet_eq {directory : Location} {stem : String} {sheet' : StyleSheet}
    (h : Source config tree input directory stem sheet)
    (h' : Source config tree other directory stem sheet') : sheet = sheet' := by
  obtain ⟨bytes, hlookup, hparse⟩ := h.contents
  obtain ⟨bytes', hlookup', hparse'⟩ := h'.contents
  rw [hlookup] at hlookup'
  cases hlookup'
  rw [hparse] at hparse'
  exact Except.ok.inj hparse'

/-- The minified text of one input and the minified scoped text of another do not
    meet. They only could if the first input were the scoped text of the second
    one. -/
theorem LeavesAlone.min_ne_deepMin (halone : tree.LeavesAlone config other input)
    {directory : Location} {stem stem' : String} (h : Source config tree input directory stem sheet)
    {earlier : Location × Bytes} (hearlier : earlier ∈ tree.writesFor config other)
    (hplace : earlier.1 = directory ++ [stem' ++ "_deep.css"]) :
    stem ++ ".min.css" ≠ stem' ++ "_deep.min.css" := by
  intro hname
  obtain rfl := min_eq_deepMin hname
  refine halone earlier hearlier (h.place.trans ?_)
  rw [hplace, String.append_assoc]
  rfl

/-- Where texts of two inputs that leave one another alone meet, they are the
    same. -/
theorem LeavesAlone.agrees (halone : tree.LeavesAlone config input other)
    (halone' : tree.LeavesAlone config other input) (hwrite : write ∈ tree.writesFor config input)
    (hwrite' : write' ∈ tree.writesFor config other) (hplace : write.1 = write'.1) :
    write.2 = write'.2 := by
  obtain ⟨directory, stem, sheet, hsource, hcases⟩ := exists_source_of_mem_writesFor hwrite
  obtain ⟨directory', stem', sheet', hsource', hcases'⟩ := exists_source_of_mem_writesFor hwrite'
  have hjoint : ∀ {name name' : String}, write.1 = directory ++ [name] →
      write'.1 = directory' ++ [name'] → directory = directory' ∧ name = name' := by
    intro name name' h h'
    have := List.append_inj' (h.symm.trans (hplace.trans h')) rfl
    simpa using this
  rcases hcases with rfl | rfl | ⟨rfl, earlier, hearlier, hdeep⟩ <;>
    rcases hcases' with rfl | rfl | ⟨rfl, earlier', hearlier', hdeep'⟩ <;>
    obtain ⟨rfl, hname⟩ := hjoint rfl rfl
  · obtain rfl := (String.append_left_inj _).1 hname
    rw [hsource.sheet_eq hsource']
  · exact absurd hname (min_ne_deep stem stem')
  · exact absurd hname (halone'.min_ne_deepMin hsource hearlier' hdeep')
  · exact absurd hname.symm (min_ne_deep stem' stem)
  · obtain rfl := (String.append_left_inj _).1 hname
    rw [hsource.sheet_eq hsource']
  · exact absurd hname (deep_ne_deepMin stem stem')
  · exact absurd hname.symm (halone.min_ne_deepMin hsource' hearlier hdeep)
  · exact absurd hname.symm (deep_ne_deepMin stem' stem)
  · obtain rfl := (String.append_left_inj _).1 hname
    rw [hsource.sheet_eq hsource']

theorem agrees_writesFor (config : Config) (tree : FileTree) (input : String) :
    Agrees (tree.writesFor config input) := fun _ hwrite _ hwrite' =>
  (leavesAlone_self config tree input).agrees (leavesAlone_self config tree input) hwrite hwrite'

end FileTree

/-- The texts for a stylesheet at the paths of its outputs: the stylesheet itself,
    and what scoping makes of it. -/
def OutputPaths.texts (outputs : OutputPaths) (config : Config) (sheet : StyleSheet) :
    List (String × String) :=
  [(outputs.minified, sheet.serialize ⟨.minified, config.emitCharset, config.header⟩),
    (outputs.deep, sheet.scope.1.serialize ⟨.pretty, config.emitCharset, config.header⟩),
    (outputs.deepMinified, sheet.scope.1.serialize ⟨.minified, config.emitCharset, config.header⟩)]

/-- Why an input could not be transformed, if this was found before anything was
    written. -/
def FileError.IsEarly (config : Config) (tree : FileTree) (input : String) : FileError → Prop
  | badName path => path = input ∧ OutputPaths.ofInput input = none
  | unreadable path reason =>
    path = input ∧ OutputPaths.ofInput input ≠ none ∧ tree.read input = .error reason
  | unparsable path reason => path = input ∧ OutputPaths.ofInput input ≠ none ∧
    ∃ bytes, tree.read input = .ok bytes ∧ StyleSheet.parseBytes bytes config.hint = .error reason
  | unwritable .. => False

theorem FileTree.isEarly_of_prepare {config : Config} {tree : FileTree} {input : String}
    {reason : FileError} (h : tree.prepare config input = .error reason) :
    reason.IsEarly config tree input := by
  unfold FileTree.prepare at h
  cases hname : OutputPaths.ofInput input with
  | none =>
    rw [hname] at h
    cases h
    exact ⟨rfl, hname⟩
  | some outputs =>
    have hsome : OutputPaths.ofInput input ≠ none := hname ▸ nofun
    rw [hname] at h
    cases hread : tree.read input with
    | error reason' =>
      rw [hread] at h
      cases h
      exact ⟨rfl, hsome, hread⟩
    | ok bytes =>
      rw [hread] at h
      cases hparse : StyleSheet.parseBytes bytes config.hint with
      | error reason' =>
        simp only [hparse] at h
        cases h
        exact ⟨rfl, hsome, bytes, hread, hparse⟩
      | ok sheet =>
        simp only [hparse] at h
        cases h

/-- Of a file that could be read, texts are written up to one that cannot be. -/
theorem FileTree.transform_of_prepare {config : Config} {tree : FileTree} {input : String}
    {outputs : OutputPaths} {sheet : StyleSheet} {bytes : Bytes}
    (h : tree.prepare config input = .ok (outputs, sheet)) (hread : tree.read input = .ok bytes) :
    ∃ done rest, outputs.texts config sheet = done ++ rest ∧
      tree.WritesExactly done (tree.transform config input).2 ∧
      (tree.transform config input).2.read input = .ok bytes ∧
      match rest with
      | [] => (tree.transform config input).1 =
        .ok ⟨input, outputs, sheet.scope.2.changed, sheet.scope.2.kept⟩
      | (path, text) :: _ => ∃ reason,
        (tree.transform config input).1 = .error (.unwritable path reason) ∧
          (tree.transform config input).2.write path (textBytes text) = .error reason := by
  have hinput : (tree.transform config input).2.read input = .ok bytes := by
    rw [transform_eq_put]
    exact ((vacates_writesFor config tree input).read_put (leavesAlone_self config tree input)).2 hread
  have hagrees := agrees_writesFor config tree input
  simp only [writesFor, h] at hagrees
  obtain ⟨done, rest, hfiles, hexactly, hend⟩ := writeAll_writesExactly hagrees
  unfold transform at hinput ⊢
  rw [h] at hinput ⊢
  refine ⟨done, rest, hfiles, hexactly, hinput, ?_⟩
  match rest, hend with
  | [], hend =>
    dsimp only
    rw [hend]
    rfl
  | (path, text) :: rest, hend =>
    obtain ⟨reason, herror, hwrite⟩ := hend
    dsimp only
    rw [herror]
    exact ⟨reason, rfl, hwrite⟩

/-- Transforming a file is atomic up to writing. Where it fails because of the name,
    or since the file cannot be read as a stylesheet, the files are those before.
    Where a text cannot be written, those in front of it have been, and nothing
    else. And where it succeeds, the three texts stand where they belong, and
    everything else is as it was, the input included. -/
theorem transformFile_atomic (config : Config) (input : String) (snapshot : Snapshot) :
    match (transformFile config input : InMemory _).run snapshot with
    | (.error (.unwritable path reason), after) => ∃ outputs bytes sheet done text rest,
      OutputPaths.ofInput input = some outputs ∧ snapshot.files.read input = .ok bytes ∧
      StyleSheet.parseBytes bytes config.hint = .ok sheet ∧
      outputs.texts config sheet = done ++ (path, text) :: rest ∧
      snapshot.files.WritesExactly done after.files ∧
      after.files.write path (Utf8.encode text.toList) = .error reason ∧
      after.files.read input = .ok bytes
    | (.error reason, after) =>
      reason.IsEarly config snapshot.files input ∧ after.files = snapshot.files
    | (.ok report, after) => ∃ outputs bytes sheet,
      OutputPaths.ofInput input = some outputs ∧ snapshot.files.read input = .ok bytes ∧
      StyleSheet.parseBytes bytes config.hint = .ok sheet ∧
      snapshot.files.WritesExactly (outputs.texts config sheet) after.files ∧
      after.files.read input = .ok bytes ∧
      report = ⟨input, outputs, sheet.scope.2.changed, sheet.scope.2.kept⟩ := by
  obtain ⟨log, hrun⟩ := InMemory.Performs.run snapshot (InMemory.performs_transformFile config input)
  rw [hrun]
  cases hprepare : snapshot.files.prepare config input with
  | error reason =>
    have hearly := FileTree.isEarly_of_prepare hprepare
    unfold FileTree.transform
    rw [hprepare]
    cases reason with
    | unwritable => exact hearly.elim
    | badName | unreadable | unparsable => exact ⟨hearly, rfl⟩
  | ok pair =>
    obtain ⟨outputs, sheet⟩ := pair
    obtain ⟨hname, bytes, hread, hparse⟩ := FileTree.prepare_eq_ok.1 hprepare
    obtain ⟨done, rest, htexts, hexactly, hinput, hend⟩ := FileTree.transform_of_prepare hprepare hread
    match rest, hend with
    | [], hend =>
      rw [hend]
      rw [List.append_nil] at htexts
      exact ⟨outputs, bytes, sheet, hname, hread, hparse, htexts ▸ hexactly, hinput, rfl⟩
    | (path, text) :: rest, hend =>
      obtain ⟨reason, herror, hwrite⟩ := hend
      rw [herror]
      exact ⟨outputs, bytes, sheet, done, text, rest, hname, hread, hparse, htexts, hexactly, hwrite,
        hinput⟩

/-- Stylesheets at paths, with no other files. -/
def Snapshot.ofSheets (sheets : List (String × String)) : Snapshot :=
  ⟨sheets.foldl (fun tree sheet => tree.addFile sheet.1 (FileTree.textBytes sheet.2)) .empty, []⟩

example :
    ((transformFile ⟨none, false, none⟩ "/t/../t/site.css" : InMemory _).run
        (.ofSheets [("/t/site.css", "a{}")])).2.files.changesSince
        (Snapshot.ofSheets [("/t/site.css", "a{}")]).files =
      [(["", "t", "site_deep.min.css"], FileTree.textBytes "body /deep/ a{}"),
        (["", "t", "site_deep.css"], FileTree.textBytes "body /deep/ a \x7b\n\x7d\n"),
        (["", "t", "site.min.css"], FileTree.textBytes "a{}")] := by
  decide +kernel

/-- A stylesheet, and a directory under the name of its second output. -/
def Snapshot.obstructed : Snapshot :=
  ⟨(FileTree.empty.addFile "/t/site.css" (FileTree.textBytes "a{}")).addDirectory
    "/t/site_deep.css", []⟩

example :
    ((transformFile ⟨none, false, none⟩ "/t/site.css" : InMemory _).run .obstructed).1.toOption =
        none ∧
      ((transformFile ⟨none, false, none⟩ "/t/site.css" : InMemory _).run
        .obstructed).2.files.changesSince Snapshot.obstructed.files =
      [(["", "t", "site.min.css"], FileTree.textBytes "a{}")] := by
  decide +kernel

end DeepScope
