import DeepScope.Proofs.Files.Path

namespace DeepScope.Path

/-- A step on the way that a path leads. -/
inductive Component where
  /-- From the outermost directory. -/
  | root
  /-- From where one is. -/
  | here
  /-- Up to the directory around this one. -/
  | up
  | name (text : String)
deriving DecidableEq, Repr

/-- The step that a segment stands for, if any. -/
def Component.ofSegment (segment : List Char) : Option Component :=
  if isVoid segment then none
  else if segment = ['.', '.'] then some .up
  else some (.name (String.ofList segment))

/-- A path that begins with a slash starts from the outermost directory. A dot has
    a meaning at the beginning only. -/
def opening : List (List Char) → List Component
  | [] :: _ :: _ => [.root]
  | ['.'] :: _ => [.here]
  | _ => []

/-- The steps that segments stand for. -/
def steps (segments : List (List Char)) : List Component :=
  opening segments ++ segments.filterMap Component.ofSegment

/-- The components of a path. Two paths are the same if they have the same
    components. -/
def components (path : String) : List Component :=
  steps (segments path)

/-- The last component of a path, if it is a name. -/
def fileName (path : String) : Option String :=
  match (components path).getLast? with
  | some (.name text) => some text
  | _ => none

/-- The components in front of the last one. There are none in front of the
    beginning of an absolute path. -/
def parent (path : String) : Option (List Component) :=
  match (components path).getLast? with
  | none | some .root => none
  | some _ => some (components path).dropLast

/-- A path ends in a name if that is its file name, and the rest is its parent. -/
theorem components_eq_concat_iff {path name : String} {front : List Component} :
    components path = front ++ [.name name] ↔ parent path = some front ∧ fileName path = some name := by
  unfold parent fileName
  constructor
  · intro h
    rw [h]
    simp
  · intro h
    cases hlast : (components path).getLast? with
    | none => simp [hlast] at h
    | some last =>
      obtain ⟨ys, hys⟩ := List.getLast?_eq_some_iff.1 hlast
      rw [hlast] at h
      cases last with
      | name text =>
        obtain ⟨hfront, htext⟩ := h
        rw [hys, List.dropLast_concat] at hfront
        cases hfront
        cases htext
        exact hys
      | _ => simp at h

theorem ofSegment_of_isVoid {segment : List Char} (h : isVoid segment = true) :
    Component.ofSegment segment = none := by
  rw [Component.ofSegment, if_pos h]

theorem ofSegment_of_name {segment : List Char} (h : isVoid segment = false)
    (hup : segment ≠ ['.', '.']) :
    Component.ofSegment segment = some (.name (String.ofList segment)) := by
  rw [Component.ofSegment, h, if_neg (by simp), if_neg hup]

theorem findSome?_dropWhile_isVoid (list : List (List Char)) :
    (list.dropWhile isVoid).findSome? Component.ofSegment = list.findSome? Component.ofSegment := by
  induction list with
  | nil => rfl
  | cons segment rest ih =>
    cases h : isVoid segment with
    | true => rw [List.dropWhile_cons_of_pos h, ih, List.findSome?_cons, ofSegment_of_isVoid h]
    | false => rw [List.dropWhile_cons_of_neg (by simp [h])]

theorem splitStart_fst_isVoid {list : List (List Char)} :
    ∀ segment ∈ (splitStart list).1, isVoid segment = true := by
  unfold splitStart
  split
  · exact nofun
  · split
    · next first body h =>
      intro segment hsegment
      rw [List.mem_singleton.1 hsegment]
      simp only [Bool.or_eq_true, Bool.and_eq_true, decide_eq_true_eq] at h
      rcases h with ⟨rfl, -⟩ | rfl <;> rfl
    · exact nofun

/-- The last segment that stands for anything is the last component, unless there
    is none. -/
theorem getLast?_components (path : String) : (components path).getLast? =
    (((splitStart (segments path)).2.reverse.dropWhile isVoid).findSome? Component.ofSegment).or
      (opening (segments path)).getLast? := by
  have hstart : (splitStart (segments path)).1.reverse.findSome? Component.ofSegment = none :=
    List.findSome?_eq_none_iff.2 fun segment hsegment =>
      ofSegment_of_isVoid (splitStart_fst_isVoid segment (List.mem_reverse.1 hsegment))
  have hsplit : (segments path).reverse =
      (splitStart (segments path)).2.reverse ++ (splitStart (segments path)).1.reverse := by
    rw [← List.reverse_append, splitStart_append]
  unfold components steps
  rw [List.getLast?_append, List.getLast?_filterMap, findSome?_dropWhile_isVoid, hsplit,
    List.findSome?_append, hstart, Option.or_none]

theorem opening_getLast?_ne (list : List (List Char)) (text : String) :
    (opening list).getLast? ≠ some (.name text) := by
  unfold opening
  split <;> simp

/-- The file name of a path is the name that is split off. -/
theorem fileName_eq (path : String) :
    fileName path = (splitName path).map fun split => String.ofList split.2 := by
  unfold fileName splitName
  rw [getLast?_components]
  dsimp only
  have hhead := List.head?_dropWhile_not isVoid (splitStart (segments path)).2.reverse
  revert hhead
  cases ((splitStart (segments path)).2.reverse.dropWhile isVoid) with
  | nil =>
    intro _
    rw [List.findSome?_nil, Option.none_or]
    split
    · next htext => exact absurd htext (opening_getLast?_ne _ _)
    · rfl
  | cons name before =>
    intro hvoid
    have hvoid : isVoid name = false := by simpa using hvoid
    dsimp only
    by_cases hup : name = ['.', '.']
    · subst hup
      rfl
    · rw [List.findSome?_cons, ofSegment_of_name hvoid hup, if_neg hup]
      rfl

theorem opening_of_name {segment : List Char} (h : isVoid segment = false)
    (rest : List (List Char)) : opening (segment :: rest) = [] := by
  unfold opening
  split
  · next heq =>
    rw [(List.cons.inj heq).1] at h
    cases h
  · next heq =>
    rw [(List.cons.inj heq).1] at h
    cases h
  · rfl

/-- How a path begins is told by its first segment and by whether it is the only
    one. -/
theorem opening_cons_congr (first : List Char) {rest others : List (List Char)} (hrest : rest ≠ [])
    (hothers : others ≠ []) : opening (first :: rest) = opening (first :: others) := by
  obtain ⟨second, rest, rfl⟩ := List.exists_cons_of_ne_nil hrest
  obtain ⟨other, others, rfl⟩ := List.exists_cons_of_ne_nil hothers
  unfold opening
  split <;> simp_all

theorem filterMap_of_isVoid {list : List (List Char)} (h : ∀ segment ∈ list, isVoid segment = true) :
    list.filterMap Component.ofSegment = [] :=
  List.filterMap_eq_nil_iff.2 fun segment hsegment => ofSegment_of_isVoid (h segment hsegment)

/-- Another name in place of the last one leaves the components in front of it as
    they are. -/
theorem components_of_splitName {path : String} {directory : List (List Char)} {name : List Char}
    (h : splitName path = some (directory, name)) :
    ∃ front, components path = front ++ [.name (String.ofList name)] ∧
      ∀ other : List Char, isVoid other = false → other ≠ ['.', '.'] → '/' ∉ other →
        components (ofSegments (directory ++ [other])) = front ++ [.name (String.ofList other)] := by
  obtain ⟨hname, hup, front, back, hsegments, hnil, hfront, hback⟩ := splitName_eq_some h
  refine ⟨opening (segments path) ++ directory.filterMap Component.ofSegment, ?_,
    fun other hother hotherUp hslash => ?_⟩
  · rw [components, steps, hsegments, List.filterMap_append, List.filterMap_append,
      filterMap_of_isVoid hfront, List.filterMap_cons, ofSegment_of_name hname hup]
    simp [filterMap_of_isVoid hback]
  · have hopening : opening (directory ++ [other]) = opening (segments path) := by
      rw [hsegments]
      cases directory with
      | nil =>
        rw [hnil rfl, List.nil_append, List.nil_append, List.nil_append, opening_of_name hother,
          opening_of_name hname]
      | cons first rest => exact opening_cons_congr first (by simp) (by simp)
    rw [components, segments_of_splitName h hslash, steps, hopening, List.filterMap_append,
      List.filterMap_cons, ofSegment_of_name hother hotherUp]
    simp

end DeepScope.Path
