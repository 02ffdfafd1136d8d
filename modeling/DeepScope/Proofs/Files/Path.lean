import DeepScope.Files.Path
import DeepScope.Proofs.Pieces

namespace DeepScope.Path

theorem not_mem_of_mem_segments {path : String} {segment : List Char}
    (h : segment ∈ segments path) : '/' ∉ segment := fun hslash => by
  have := not_separates_of_mem_splitOn h hslash
  simp at this

theorem isVoid_of_length {segment : List Char} (h : 2 < segment.length) : isVoid segment = false :=
  Bool.eq_false_iff.2 fun hvoid => by
    simp only [isVoid, Bool.or_eq_true, decide_eq_true_eq] at hvoid
    rcases hvoid with rfl | rfl <;> simp at h

theorem ne_up_of_length {segment : List Char} (h : 2 < segment.length) : segment ≠ ['.', '.'] := by
  rintro rfl
  simp at h

theorem names_append (front back : List (List Char)) :
    names (front ++ back) = names front ++ names back := by
  rw [names, List.filter_append, List.map_append, ← names, ← names]

/-- A path made of segments has these segments. -/
theorem segments_ofSegments {list : List (List Char)} (hne : list ≠ [])
    (h : ∀ segment ∈ list, '/' ∉ segment) : segments (ofSegments list) = list := by
  rw [segments, ofSegments, String.toList_ofList]
  refine splitOn_intercalate (by simp) hne fun segment hsegment c hc => ?_
  rw [decide_eq_false_iff_not]
  rintro rfl
  exact h segment hsegment hc

theorem splitStart_append (list : List (List Char)) :
    (splitStart list).1 ++ (splitStart list).2 = list := by
  unfold splitStart
  split
  · rfl
  · split <;> rfl

/-- Where nothing is taken off, the path begins with a segment that names
    something, unless it is its only one. -/
theorem eq_nil_of_splitStart {first : List Char} {rest : List (List Char)}
    (h : (splitStart (first :: rest)).1 = []) (hvoid : isVoid first = true) : rest = [] := by
  unfold splitStart at h
  dsimp only at h
  split at h
  · cases h
  · next hstart =>
    simp only [isVoid, Bool.or_eq_true, decide_eq_true_eq] at hvoid
    rcases hvoid with rfl | rfl
    · simpa using hstart
    · simp at hstart

/-- The last of some values that is none of a kind, and those of the kind behind
    it. -/
theorem exists_of_dropWhile_reverse {α : Type} {p : α → Bool} {list before : List α} {last : α}
    (h : list.reverse.dropWhile p = last :: before) :
    p last = false ∧ ∃ back, list = before.reverse ++ last :: back ∧ ∀ x ∈ back, p x = true := by
  have hall := List.takeWhile_append_dropWhile (p := p) (l := list.reverse)
  rw [h] at hall
  refine ⟨?_, (list.reverse.takeWhile p).reverse, ?_, fun x hx => ?_⟩
  · have hhead := List.head?_dropWhile_not p list.reverse
    rw [h] at hhead
    simpa using hhead
  · simpa using (congrArg List.reverse hall).symm
  · exact List.all_eq_true.1 List.all_takeWhile x (List.mem_reverse.1 hx)

/-- The last name of a path stands behind the segments in front of it. Nothing
    else but segments that name nothing stands around it, and none of them at the
    beginning. -/
theorem splitName_eq_some {path : String} {directory : List (List Char)} {name : List Char}
    (h : splitName path = some (directory, name)) :
    isVoid name = false ∧ name ≠ ['.', '.'] ∧
      ∃ front back, segments path = directory ++ (front ++ name :: back) ∧
        (directory = [] → front = []) ∧
        (∀ segment ∈ front, isVoid segment = true) ∧ ∀ segment ∈ back, isVoid segment = true := by
  unfold splitName at h
  have happend := splitStart_append (segments path)
  have hfirst : ∀ first rest, segments path = first :: rest →
      (splitStart (segments path)).1 = [] → isVoid first = true → rest = [] :=
    fun first rest heq hstart => eq_nil_of_splitStart (heq ▸ hstart)
  revert h happend hfirst
  rcases splitStart (segments path) with ⟨start, body⟩
  dsimp only
  intro h happend hfirst
  split at h
  · cases h
  · next last before hdrop =>
    split at h
    · cases h
    · next hdots =>
      cases h
      obtain ⟨hname, back, hsplit, hback⟩ := exists_of_dropWhile_reverse hdrop
      have hbefore := List.takeWhile_append_dropWhile (p := isVoid) (l := before)
      have hvoid : ∀ segment ∈ before.takeWhile isVoid, isVoid segment = true :=
        List.all_eq_true.1 List.all_takeWhile
      refine ⟨hname, hdots, (before.takeWhile isVoid).reverse, back, ?_, fun hdirectory => ?_,
        fun segment hsegment => hvoid segment (List.mem_reverse.1 hsegment), hback⟩
      · have hfront := congrArg List.reverse hbefore
        rw [List.reverse_append] at hfront
        rw [← happend, List.append_assoc, ← List.append_assoc _ _ (name :: _), hfront, ← hsplit]
      · obtain ⟨rfl, hnil⟩ := List.append_eq_nil_iff.1 hdirectory
        rw [List.reverse_eq_nil_iff.1 hnil, List.append_nil] at hbefore
        rw [hbefore] at hvoid ⊢
        cases hreverse : before.reverse with
        | nil => rfl
        | cons first rest =>
          have hnone := hfirst first (rest ++ name :: back)
            (by rw [← happend, List.nil_append, ← List.cons_append, ← hreverse, ← hsplit]) rfl
            (hvoid first (List.mem_reverse.1 (by simp [hreverse])))
          simp at hnone

theorem slash_not_mem_of_splitName {path : String} {directory : List (List Char)}
    {name : List Char} (h : splitName path = some (directory, name)) : '/' ∉ name := by
  obtain ⟨-, -, front, back, hsegments, -⟩ := splitName_eq_some h
  have hmem : name ∈ segments path := by simp [hsegments]
  exact not_mem_of_mem_segments hmem

/-- A name may be put in place of the last one of a path. -/
theorem segments_of_splitName {path : String} {directory : List (List Char)}
    {name other : List Char} (h : splitName path = some (directory, name)) (hslash : '/' ∉ other) :
    segments (ofSegments (directory ++ [other])) = directory ++ [other] := by
  obtain ⟨-, -, front, back, hsegments, -⟩ := splitName_eq_some h
  refine segments_ofSegments (by simp) fun segment hsegment => ?_
  rcases List.mem_append.1 hsegment with hsegment | hsegment
  · exact not_mem_of_mem_segments (by rw [hsegments]; exact List.mem_append_left _ hsegment)
  · rwa [List.mem_singleton.1 hsegment]

end DeepScope.Path
