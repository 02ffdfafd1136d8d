import DeepScope.Proofs.Token.Cover

namespace DeepScope

/-- Whether a fault, if there is one, is found in the text. -/
def FaultIn {α : Type} (text : List Char) (outcome : Except Fault α) : Prop :=
  ∀ fault, outcome = .error fault → fault.rest <:+ text

variable {text rest : List Char}

namespace FaultIn

variable {α β : Type} {outcome : Except Fault α}

theorem ok (a : α) : FaultIn text (.ok a) := nofun

theorem error {fault : Fault} (h : fault.rest <:+ text) : FaultIn text (.error fault : Except Fault α) := by
  rintro _ ⟨⟩
  exact h

/-- A sequence fails where one of its parts does. -/
theorem bind {next : α → Except Fault β} (h : FaultIn text outcome)
    (hnext : ∀ a, FaultIn text (next a)) : FaultIn text (outcome >>= next) := by
  cases outcome with
  | error fault => exact error (h fault rfl)
  | ok a => exact hnext a

end FaultIn

theorem suffix_of_cons {c : Char} (h : c :: rest <:+ text) : rest <:+ text :=
  (List.suffix_cons c rest).trans h

theorem drop_suffix_of (n : Nat) (h : rest <:+ text) : rest.drop n <:+ text :=
  (List.drop_suffix n rest).trans h

theorem Comment.faultIn_size (h : rest <:+ text) : FaultIn text (size rest) := by
  fun_induction size rest with
  | case1 => exact .error h
  | case2 rest n hclose ih =>
    have hrest := drop_suffix_of n (suffix_of_cons (suffix_of_cons h))
    exact (ih hrest).bind fun more => .ok _
  | case3 => exact .ok 0

theorem Comment.faultIn_sizeWithBlanks (h : rest <:+ text) : FaultIn text (sizeWithBlanks rest) := by
  fun_induction sizeWithBlanks rest with
  | case1 => exact .error h
  | case2 rest n hclose ih =>
    have hrest := drop_suffix_of n (suffix_of_cons (suffix_of_cons h))
    exact (ih hrest).bind fun more => .ok _
  | case3 c rest _ hblank ih => exact (ih (suffix_of_cons h)).bind fun more => .ok _
  | case4 | case5 => exact .ok 0

namespace Url

variable {start : List Char}

theorem faultIn_readEnd (hstart : start <:+ text) (h : rest <:+ text) :
    FaultIn text (readEnd start rest) := by
  have hdrop := (List.dropWhile_suffix isBlank).trans h
  unfold readEnd
  split
  · exact .error hstart
  · exact .ok _
  · exact .error hdrop

theorem faultIn_readAddress (hstart : start <:+ text) (h : rest <:+ text) :
    FaultIn text (readAddress start rest) := by
  fun_induction readAddress start rest with
  | case1 => exact .error hstart
  | case2 => exact .ok _
  | case3 | case6 => exact .error h
  | case4 => exact .error List.nil_suffix
  | case5 rest _ _ k _ _ _ ih =>
    exact (ih (drop_suffix_of k (suffix_of_cons h))).bind fun pair => .ok _
  | case7 c rest =>
    exact (faultIn_readEnd hstart (suffix_of_cons h)).bind fun n => .ok _
  | case8 c rest _ _ _ _ ih => exact (ih (suffix_of_cons h)).bind fun pair => .ok _

theorem faultIn_read (hstart : start <:+ text) (h : rest <:+ text) :
    FaultIn text (read start rest) := by
  have hdrop := (List.dropWhile_suffix isBlank).trans h
  exact (faultIn_readAddress hstart hdrop).bind fun pair => .ok _

end Url

namespace Token

/-- A name is only at fault at the end of the text. -/
theorem faultIn_scanName (text rest : List Char) : FaultIn text (scanName rest) := by
  unfold scanName
  split
  · exact .error List.nil_suffix
  · exact .ok _

theorem faultIn_scanNumeric (text rest : List Char) : FaultIn text (scanNumeric rest) := by
  unfold scanNumeric
  dsimp only
  split
  · exact (faultIn_scanName text _).bind fun pair => .ok _
  · split <;> exact .ok _

theorem faultIn_scanUrl {start : List Char} (name : String) (hstart : start <:+ text)
    (h : rest <:+ text) : FaultIn text (scanUrl start name rest) := by
  unfold scanUrl
  split
  · exact .ok _
  · exact (Url.faultIn_read hstart h).bind fun pair => .ok _

theorem faultIn_scanIdentLike (h : rest <:+ text) : FaultIn text (scanIdentLike rest) := by
  refine (faultIn_scanName text rest).bind fun pair => ?_
  have hdrop := drop_suffix_of pair.2 h
  dsimp only
  split
  · next after heq =>
    rw [heq] at hdrop
    split
    · exact (faultIn_scanUrl pair.1 h (suffix_of_cons hdrop)).bind fun found => .ok _
    · exact .ok _
  · exact .ok _

theorem faultIn_scanSymbol {c : Char} (h : c :: rest <:+ text) : FaultIn text (scanSymbol c rest) := by
  unfold scanSymbol
  split
  case h_1 | h_2 =>
    split
    · exact (faultIn_scanName text _).bind fun pair => .ok _
    · exact .ok _
  case h_4 => exact .error h
  all_goals exact .ok _

/-- Whatever token is begun, it fails in the text that is left. -/
theorem faultIn_scan (h : rest <:+ text) : FaultIn text (scan rest) := by
  unfold scan
  split
  · exact .ok _
  · split
    · exact (Comment.faultIn_sizeWithBlanks (suffix_of_cons h)).bind fun n => .ok _
    · split
      · split
        · exact .error h
        · exact .ok _
      · split
        · exact faultIn_scanNumeric text _
        · split
          · exact .ok _
          · split
            · exact faultIn_scanIdentLike h
            · exact faultIn_scanSymbol h

end Token

/-- Slices that follow one another from one text up to another one, without the
    end. -/
inductive Slice.Leads : List Char → List Slice → List Char → Prop where
  | nil {before rest : List Char} : Leads before [] rest
  | step {before rest : List Char} {slice : Slice} {slices : List Slice} :
    slice.item.token ≠ .eof → slice.Fits before (textAll slices ++ rest) →
    Leads (before ++ slice.text) slices rest → Leads before (slice :: slices) rest

namespace Cursor

variable {cursor : Cursor} {before : List Char} {position : Position} {reason : LexicalError}

/-- A suffix of the text begins behind the rest of it. -/
theorem exists_placeOf (hposition : cursor.position = Position.behind before)
    (h : rest <:+ cursor.rest) :
    ∃ more, more ++ rest = cursor.rest ∧ cursor.placeOf rest = Position.behind (before ++ more) := by
  obtain ⟨more, hmore⟩ := h
  refine ⟨more, hmore, ?_⟩
  have hlength : cursor.rest.length - rest.length = more.length := by
    rw [← hmore, List.length_append, Nat.add_sub_cancel_right]
  rw [placeOf, advance, hlength, ← hmore, List.take_left, hposition, Position.behind_after]

/-- Where no token can be read, the place that is reported is one in the text. -/
theorem exists_of_next_error (hposition : cursor.position = Position.behind before)
    (h : cursor.next = .error (position, reason)) :
    ∃ more back, more ++ back = cursor.rest ∧ position = Position.behind (before ++ more) := by
  unfold next at h
  split at h
  · next fault hsize =>
    obtain ⟨more, hmore, hplace⟩ := exists_placeOf hposition
      (Comment.faultIn_size (List.suffix_refl _) fault hsize)
    cases h
    exact ⟨more, fault.rest, hmore, hplace⟩
  · next n hsize =>
    dsimp only at h
    split at h
    · next fault hscan =>
      have hstart : (cursor.advance n).position = Position.behind (before ++ cursor.rest.take n) := by
        rw [advance, hposition, Position.behind_after]
      obtain ⟨more, hmore, hplace⟩ := exists_placeOf hstart
        (Token.faultIn_scan (List.suffix_refl _) fault hscan)
      cases h
      refine ⟨cursor.rest.take n ++ more, fault.rest, ?_, by rw [hplace, List.append_assoc]⟩
      rw [List.append_assoc, hmore]
      exact List.take_append_drop n cursor.rest
    · cases h

/-- Up to the fault in a text, its tokens are read from slices, and the place that
    is reported does not stand in front of the end of the last one. -/
theorem exists_leads (hposition : cursor.position = Position.behind before)
    (h : collect cursor.items = .error (position, reason)) :
    ∃ slices more back, Slice.Leads before slices (more ++ back) ∧
      Slice.textAll slices ++ (more ++ back) = cursor.rest ∧
      cursor.items = slices.map (fun slice => .ok slice.item) ++ [.error (position, reason)] ∧
      position = Position.behind (before ++ (Slice.textAll slices ++ more)) := by
  fun_induction Cursor.items cursor generalizing before with
  | case1 cursor fault hread =>
    cases h
    obtain ⟨more, back, hrest, hplace⟩ := exists_of_next_error hposition hread
    exact ⟨[], more, back, .nil, hrest, rfl, hplace⟩
  | case2 => cases h
  | case3 cursor item after hread hend _ ih =>
    obtain ⟨slice, rfl, htext, hfits, hafter⟩ := exists_fits_of_next hposition hread
    have hothers : collect after.items = .error (position, reason) := by
      cases hcollect : collect after.items with
      | error e =>
        rw [collect, hcollect] at h
        exact h
      | ok items =>
        rw [collect, hcollect] at h
        cases h
    obtain ⟨slices, more, back, hleads, hrest, hitems, hplace⟩ := ih hafter hothers
    refine ⟨slice :: slices, more, back, .step hend (by rwa [hrest]) hleads, ?_, ?_, ?_⟩
    · rw [← htext, ← hrest, Slice.textAll, List.flatMap_cons, List.append_assoc]
      rfl
    · rw [hitems]
      rfl
    · rw [hplace, List.append_assoc, ← List.append_assoc slice.text]
      rfl

end Cursor

end DeepScope
