import DeepScope.Proofs.Files.Components
import DeepScope.Proofs.Files.Output

namespace DeepScope

namespace OutputPaths

/-- A path to a file with such a name in the directory that another path leads
    into. -/
structure IsBeside (path other name : String) : Prop where
  parent_eq : Path.parent other = Path.parent path
  fileName_eq : Path.fileName other = some name

variable {path : String} {outputs : OutputPaths}

theorem isBeside_of_components {other name inputName : String} {front : List Path.Component}
    (hpath : Path.components path = front ++ [.name inputName])
    (hother : Path.components other = front ++ [.name name]) : IsBeside path other name := by
  obtain ⟨hparent, -⟩ := Path.components_eq_concat_iff.1 hpath
  obtain ⟨hparent', hname⟩ := Path.components_eq_concat_iff.1 hother
  exact ⟨hparent'.trans hparent.symm, hname⟩

/-- The outputs have the components of their input, but for what comes behind the
    stem. -/
theorem exists_components (h : ofInput path = some outputs) : ∃ front stem,
    Path.components path = front ++ [.name (stem ++ ".css")] ∧
      Path.components outputs.minified = front ++ [.name (stem ++ ".min.css")] ∧
      Path.components outputs.deep = front ++ [.name (stem ++ "_deep.css")] ∧
      Path.components outputs.deepMinified = front ++ [.name (stem ++ "_deep.min.css")] := by
  obtain ⟨directory, stem, -, hsplit, rfl⟩ := ofInput_eq_some_iff.1 h
  obtain ⟨front, hpath, hsiblings⟩ := Path.components_of_splitName hsplit
  have hsibling : ∀ ending : String, 2 < ending.toList.length → '/' ∉ ending.toList →
      Path.components (sibling directory (stem ++ ending)) = front ++ [.name (stem ++ ending)] := by
    intro ending hlong hending
    have hlength : 2 < (stem ++ ending).toList.length := by
      rw [String.toList_append, List.length_append]
      omega
    have hcomponents := hsiblings (stem ++ ending).toList (Path.isVoid_of_length hlength)
      (Path.ne_up_of_length hlength) (slash_not_mem_of_ending hsplit hending)
    rwa [String.ofList_toList] at hcomponents
  rw [String.ofList_toList] at hpath
  exact ⟨front, stem, hpath, hsibling _ (by decide) (by decide), hsibling _ (by decide) (by decide),
    hsibling _ (by decide) (by decide)⟩

/-- The inputs that have outputs are those whose file name ends in `.css`, with
    something in front. -/
theorem exists_ofInput_iff : (∃ outputs, ofInput path = some outputs) ↔
    ∃ stem, stem ≠ "" ∧ Path.fileName path = some (stem ++ ".css") := by
  rw [Path.fileName_eq]
  constructor
  · rintro ⟨outputs, h⟩
    obtain ⟨directory, stem, hne, hsplit, -⟩ := ofInput_eq_some_iff.1 h
    exact ⟨stem, hne, by simp [hsplit]⟩
  · rintro ⟨stem, hne, hname⟩
    obtain ⟨⟨directory, name⟩, hsplit, hstem⟩ := Option.map_eq_some_iff.1 hname
    obtain rfl : name = (stem ++ ".css").toList := by simpa using congrArg String.toList hstem
    exact ⟨_, ofInput_eq_some_iff.2 ⟨directory, stem, hne, hsplit, rfl⟩⟩

/-- An input has outputs if its file name ends in `.css`, with a stem in front.
    They stand beside it and are named by that stem. None of them has the name of
    another one or of the input, and inputs that are not the same have no output of
    one kind in common. -/
theorem ofInput_names (path : String) :
    ((∃ outputs, ofInput path = some outputs) ↔
      ∃ stem, stem ≠ "" ∧ Path.fileName path = some (stem ++ ".css")) ∧
    ∀ outputs, ofInput path = some outputs →
      (∀ stem, Path.fileName path = some (stem ++ ".css") →
        IsBeside path outputs.minified (stem ++ ".min.css") ∧
        IsBeside path outputs.deep (stem ++ "_deep.css") ∧
        IsBeside path outputs.deepMinified (stem ++ "_deep.min.css")) ∧
      ([path, outputs.minified, outputs.deep, outputs.deepMinified].map Path.fileName).Nodup ∧
      ∀ other others, ofInput other = some others →
        let same := Path.components path = Path.components other
        (Path.components outputs.minified = Path.components others.minified ↔ same) ∧
        (Path.components outputs.deep = Path.components others.deep ↔ same) ∧
        (Path.components outputs.deepMinified = Path.components others.deepMinified ↔ same) := by
  refine ⟨exists_ofInput_iff, fun outputs h => ?_⟩
  obtain ⟨front, stem, hpath, hminified, hdeep, hdeepMinified⟩ := exists_components h
  have hname : Path.fileName path = some (stem ++ ".css") :=
    (Path.components_eq_concat_iff.1 hpath).2
  have hbesideMinified := isBeside_of_components hpath hminified
  have hbesideDeep := isBeside_of_components hpath hdeep
  have hbesideDeepMinified := isBeside_of_components hpath hdeepMinified
  refine ⟨fun stem' hstem => ?_, ?_, fun other others hother => ?_⟩
  · rw [hname, Option.some.injEq, String.append_left_inj] at hstem
    subst hstem
    exact ⟨hbesideMinified, hbesideDeep, hbesideDeepMinified⟩
  · simp [hname, hbesideMinified.fileName_eq, hbesideDeep.fileName_eq,
      hbesideDeepMinified.fileName_eq, String.append_right_inj]
  · obtain ⟨front', stem', hpath', hminified', hdeep', hdeepMinified'⟩ := exists_components hother
    simp [hpath, hminified, hdeep, hdeepMinified, hpath', hminified', hdeep', hdeepMinified',
      List.append_singleton_inj, String.append_left_inj]

/-- A path with slashes and dots that have no meaning, and one of a file beside it
    whose minified output is that very file. -/
theorem ofInput_names_dots :
    let path := "./x//a.min.css/."
    let outputs : OutputPaths :=
      ⟨"./x/a.min.min.css", "./x/a.min_deep.css", "./x/a.min_deep.min.css"⟩
    let others : OutputPaths := ⟨"./x/a.min.css", "./x/a_deep.css", "./x/a_deep.min.css"⟩
    ofInput path = some outputs ∧ ofInput "./x/a.css" = some others ∧
      Path.fileName path = some ("a.min" ++ ".css") ∧ IsBeside path outputs.minified "a.min.min.css" ∧
      ([path, outputs.minified, outputs.deep, outputs.deepMinified].map Path.fileName).Nodup ∧
      (Path.components outputs.minified = Path.components others.minified ↔
        Path.components path = Path.components "./x/a.css") := by
  intro path outputs others
  have houtputs : ofInput path = some outputs := by decide
  have hothers : ofInput "./x/a.css" = some others := by decide
  have hname : Path.fileName path = some ("a.min" ++ ".css") := by decide
  obtain ⟨hbeside, hnodup, hsame⟩ := (ofInput_names path).2 outputs houtputs
  exact ⟨houtputs, hothers, hname, (hbeside "a.min" hname).1, hnodup, (hsame _ others hothers).1⟩

end OutputPaths

end DeepScope
