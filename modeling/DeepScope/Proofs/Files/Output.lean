import DeepScope.Files.Path
import DeepScope.Proofs.Files.Path
import DeepScope.Proofs.Files.Tree

namespace DeepScope

theorem dropEnding_eq_some_iff {text ending stem : String} :
    dropEnding text ending = some stem ↔ text = stem ++ ending := by
  unfold dropEnding endsWith
  constructor
  · intro h
    split at h
    · next hends =>
      cases h
      obtain ⟨front, hfront⟩ := List.isSuffixOf_iff_suffix.1 hends
      apply String.toList_injective
      rw [String.toList_append, String.toList_ofList, ← hfront]
      simp
    · cases h
  · rintro rfl
    rw [String.toList_append, if_pos (List.isSuffixOf_iff_suffix.2 (List.suffix_append _ _))]
    simp

namespace OutputPaths

/-- The file for a name in a directory. -/
def sibling (directory : List (List Char)) (name : String) : String :=
  Path.ofSegments (directory ++ [name.toList])

theorem ofInput_eq_some_iff {input : String} {outputs : OutputPaths} :
    ofInput input = some outputs ↔ ∃ directory stem, stem ≠ "" ∧
      Path.splitName input = some (directory, (stem ++ ".css").toList) ∧
      outputs = ⟨sibling directory (stem ++ ".min.css"), sibling directory (stem ++ "_deep.css"),
        sibling directory (stem ++ "_deep.min.css")⟩ := by
  unfold ofInput
  simp only [bind, Option.bind_eq_some_iff]
  constructor
  · rintro ⟨⟨directory, name⟩, hname, stem, hstem, houtputs⟩
    split at houtputs
    · cases houtputs
    · next hempty =>
      cases houtputs
      refine ⟨directory, stem, fun hnil => hempty (by rw [hnil]; rfl), ?_, rfl⟩
      rw [hname, ← dropEnding_eq_some_iff.1 hstem, String.toList_ofList]
  · rintro ⟨directory, stem, hne, hname, rfl⟩
    refine ⟨_, hname, stem, dropEnding_eq_some_iff.2 (String.ofList_toList), ?_⟩
    rw [if_neg (by simpa using hne)]
    rfl

section

variable {input stem old ending : String} {directory : List (List Char)}

theorem slash_not_mem_of_ending
    (h : Path.splitName input = some (directory, (stem ++ old).toList))
    (hending : '/' ∉ ending.toList) : '/' ∉ (stem ++ ending).toList := by
  have hname := Path.slash_not_mem_of_splitName h
  rw [String.toList_append, List.mem_append, not_or] at hname ⊢
  exact ⟨hname.1, hending⟩

/-- The segments of a file whose name has the stem of an input, in the directory
    of that input. -/
theorem segments_sibling (h : Path.splitName input = some (directory, (stem ++ old).toList))
    (hending : '/' ∉ ending.toList) :
    Path.segments (sibling directory (stem ++ ending)) = directory ++ [(stem ++ ending).toList] :=
  Path.segments_of_splitName h (slash_not_mem_of_ending h hending)

end

end OutputPaths

namespace FileTree

variable {tree : FileTree} {place directoryPlace : Location}

/-- A longer name than two dots leads down. -/
theorem follow_name {name : List Char} (hname : 2 < name.length)
    (h : tree.follow directoryPlace [name] = .ok place) :
    place = directoryPlace ++ [String.ofList name] := by
  obtain ⟨-, next, henter, hnext⟩ := follow_cons_eq_ok.1 h
  cases hnext
  rw [enter, Path.isVoid_of_length hname, if_neg (by simp), if_neg (Path.ne_up_of_length hname)]
    at henter
  split at henter
  · cases henter
  · exact (Except.ok.inj henter).symm

/-- A way that leads on from a directory to a name with nothing else around it leads to
    that name in the directory. -/
theorem follow_around_name {name : List Char} {front back : List (List Char)}
    (hname : 2 < name.length) (hfront : ∀ segment ∈ front, Path.isVoid segment = true)
    (hback : ∀ segment ∈ back, Path.isVoid segment = true)
    (h : tree.follow directoryPlace (front ++ name :: back) = .ok place) :
    place = directoryPlace ++ [String.ofList name] := by
  obtain ⟨same, hsame, hrest⟩ := follow_append_eq_ok.1 h
  obtain rfl := follow_of_isVoid hfront hsame
  obtain ⟨last, hlast, hvoids⟩ := follow_append_eq_ok.1
    (show tree.follow same ([name] ++ back) = .ok place from hrest)
  obtain rfl := follow_of_isVoid hback hvoids
  exact follow_name hname hlast

/-- A path with another name in place of the last one starts from the same
    directory. -/
theorem origin_of_splitName {input : String} {directory : List (List Char)} {name other : List Char}
    (h : Path.splitName input = some (directory, name)) (hother : Path.isVoid other = false) :
    tree.origin (directory ++ [other]) = tree.origin (Path.segments input) := by
  obtain ⟨hname, -, front, back, hsegments, hnil, -⟩ := Path.splitName_eq_some h
  rw [hsegments]
  by_cases hdirectory : directory = []
  · rw [hnil hdirectory, hdirectory, List.nil_append, List.nil_append, List.nil_append,
      origin_of_not_isVoid hother, origin_of_not_isVoid hname]
  · exact origin_append hdirectory _ _

/-- An input stands in some directory under a name that ends in `.css`. Its
    outputs, where they lead anywhere, stand in the same directory. -/
theorem exists_output_places {input : String} {outputs : OutputPaths}
    (houtputs : OutputPaths.ofInput input = some outputs) (h : tree.resolve input = .ok place) :
    ∃ directory stem, place = directory ++ [stem ++ ".css"] ∧
      (∀ other, tree.resolve outputs.minified = .ok other →
        other = directory ++ [stem ++ ".min.css"]) ∧
      (∀ other, tree.resolve outputs.deep = .ok other → other = directory ++ [stem ++ "_deep.css"]) ∧
      ∀ other, tree.resolve outputs.deepMinified = .ok other →
        other = directory ++ [stem ++ "_deep.min.css"] := by
  obtain ⟨segments, stem, -, hsplit, rfl⟩ := OutputPaths.ofInput_eq_some_iff.1 houtputs
  obtain ⟨-, -, front, back, hsegments, -, hfront, hback⟩ := Path.splitName_eq_some hsplit
  have hfollow := (resolve_eq_ok_iff.1 h).2
  rw [hsegments] at hfollow
  obtain ⟨directory, hdirectory, hname⟩ := follow_append_eq_ok.1 hfollow
  rw [← hsegments] at hdirectory
  have hsibling : ∀ (ending : String) (other : Location), 2 < ending.toList.length →
      '/' ∉ ending.toList →
      tree.resolve (OutputPaths.sibling segments (stem ++ ending)) = .ok other →
      other = directory ++ [stem ++ ending] := by
    intro ending other hlong hending hother
    have hlonger : 2 < (stem ++ ending).toList.length := by
      rw [String.toList_append, List.length_append]
      omega
    have hother := (resolve_eq_ok_iff.1 hother).2
    rw [OutputPaths.segments_sibling hsplit hending,
      origin_of_splitName hsplit (Path.isVoid_of_length hlonger)] at hother
    obtain ⟨middle, hmiddle, hname⟩ := follow_append_eq_ok.1 hother
    rw [hdirectory] at hmiddle
    cases hmiddle
    rw [follow_name hlonger hname, String.ofList_toList]
  refine ⟨directory, stem, ?_, fun other => hsibling _ other (by decide) (by decide),
    fun other => hsibling _ other (by decide) (by decide),
    fun other => hsibling _ other (by decide) (by decide)⟩
  rw [follow_around_name (by simp) hfront hback hname, String.ofList_toList]

end FileTree

end DeepScope
