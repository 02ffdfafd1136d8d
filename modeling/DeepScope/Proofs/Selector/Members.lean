import DeepScope.Proofs.Selector.Compound

namespace DeepScope.Selector

variable {values rest : List Value}

section Members

theorem forms_of_readCombinator_some {combinator : Combinator}
    (h : readCombinator values = .ok (some combinator, rest))
    (hstarts : startsCombinator values = true) :
    ∃ front, CombinatorForms front combinator ∧ values = front ++ rest := by
  obtain ⟨blanks, hblanks, hvalues⟩ := exists_blanks values
  have hsign : ∀ {sign back : List Value} {found : Combinator},
      SignForms sign found → skipBlanks values = sign ++ back →
      ∃ front, CombinatorForms front found ∧ values = front ++ skipBlanks back := by
    intro sign back found hform heq
    obtain ⟨behind, hbehind, hback⟩ := exists_blanks back
    refine ⟨blanks ++ (sign ++ behind), .sign hblanks hform hbehind, ?_⟩
    rw [List.append_assoc, List.append_assoc, ← hback, ← heq, ← hvalues]
  unfold readCombinator at h
  split at h
  · next heq =>
    cases h
    exact hsign .nextSibling heq
  · next heq =>
    cases h
    exact hsign .child heq
  · next heq =>
    cases h
    exact hsign .laterSibling heq
  · next heq =>
    split at h
    · split at h
      · next hdeep =>
        cases h
        exact hsign (.deep hdeep) heq
      · cases h
    · cases h
  · cases h
  · cases h
  · next hplus hgreater htilde hslash _ _ =>
    cases h
    refine ⟨blanks, .descendant hblanks ?_, hvalues⟩
    -- Without white space a sign would stand here.
    rintro rfl
    rw [List.nil_append] at hvalues
    rw [hvalues] at hstarts
    unfold startsCombinator at hstarts
    split at hstarts
    · next heq => cases head_skipBlanks heq
    · next heq =>
      have hc := of_decide_eq_true hstarts
      simp only [List.mem_cons, List.not_mem_nil, or_false] at hc
      rcases hc with rfl | rfl | rfl | rfl
      · exact hplus _ heq
      · exact hgreater _ heq
      · exact htilde _ heq
      · exact hslash _ heq
    · cases hstarts

/-- White space at the end of a selector. -/
theorem blanks_of_readCombinator_none (h : readCombinator values = .ok (none, rest)) :
    ∃ blanks, Value.Blanks blanks ∧ values = blanks ++ rest := by
  obtain ⟨blanks, hblanks, hvalues⟩ := exists_blanks values
  refine ⟨blanks, hblanks, ?_⟩
  unfold readCombinator at h
  split at h
  case h_4 =>
    split at h
    · split at h <;> cases h
    · cases h
  case h_5 heq =>
    cases h
    rwa [heq] at hvalues
  case h_6 heq =>
    cases h
    rwa [heq] at hvalues
  all_goals cases h

theorem readCombinator_of_forms {front : List Value} {combinator : Combinator}
    (h : CombinatorForms front combinator) (hrest : beginsCompound rest = true) :
    readCombinator (front ++ rest) = .ok (some combinator, rest) := by
  have hskip := skipBlanks_of_beginsCompound hrest
  cases h with
  | descendant hblanks _ =>
    unfold readCombinator
    rw [skipBlanks_append hblanks, hskip]
    split <;> simp_all [beginsCompound]
  | @sign front sign back _ hfront hsign hback =>
    have hbehind : skipBlanks (back ++ rest) = rest := (skipBlanks_append hback rest).trans hskip
    unfold readCombinator
    rw [List.append_assoc, List.append_assoc, skipBlanks_append hfront]
    cases hsign with
    | deep hdeep =>
      rw [List.cons_append, skipBlanks_of_not_blank rfl]
      simp only [List.cons_append, List.nil_append]
      rw [if_pos hdeep, hbehind]
    | _ =>
      rw [List.singleton_append, skipBlanks_of_not_blank rfl]
      simp only [hbehind]

/-- A combinator stands where a compound selector ends. -/
theorem CombinatorForms.starts {front : List Value} {combinator : Combinator}
    (h : CombinatorForms front combinator) (rest : List Value) :
    startsCombinator (front ++ rest) = true ∧ endsCompound (front ++ rest) = true := by
  cases h with
  | descendant hblanks hne =>
    obtain ⟨v, blanks, rfl⟩ := List.exists_cons_of_ne_nil hne
    obtain ⟨rfl, -⟩ := List.forall_mem_cons.1 hblanks
    exact ⟨rfl, rfl⟩
  | @sign front sign back _ hfront hsign _ =>
    cases front with
    | nil => cases hsign <;> exact ⟨rfl, rfl⟩
    | cons v front =>
      obtain ⟨rfl, -⟩ := List.forall_mem_cons.1 hfront
      exact ⟨rfl, rfl⟩

/-- What may follow a selector and the white space at its end. -/
def endsSelector : List Value → Bool
  | [] | .token .comma :: _ => true
  | _ => false

/-- What is read behind a compound selector. -/
theorem readMembers_eq {compound : List SimpleSelector}
    (h : readCompound values = .ok (compound, rest)) :
    readMembers values =
      if startsCombinator rest then
        match readCombinator rest with
        | .error e => .error e
        | .ok (none, after) => .ok (compound.map .simple, after)
        | .ok (some combinator, after) => do
          let (others, last) ← readMembers after
          return (compound.map .simple ++ .combinator combinator :: others, last)
      else .ok (compound.map .simple, rest) := by
  rw [readMembers]
  split
  · next heq =>
    rw [h] at heq
    cases heq
  · next heq =>
    rw [h] at heq
    cases heq
    split
    · split <;> next heq => simp only [heq]
    · rfl

theorem readMembers_of_end {compound : List SimpleSelector}
    (hcompound : readCompound values = .ok (compound, rest)) (h : startsCombinator rest = false) :
    readMembers values = .ok (compound.map .simple, rest) := by
  rw [readMembers_eq hcompound, if_neg (by simp [h])]

theorem readMembers_of_none {compound : List SimpleSelector} {after : List Value}
    (hcompound : readCompound values = .ok (compound, rest)) (h : startsCombinator rest = true)
    (hcombinator : readCombinator rest = .ok (none, after)) :
    readMembers values = .ok (compound.map .simple, after) := by
  rw [readMembers_eq hcompound, if_pos h, hcombinator]

theorem readMembers_of_some {compound : List SimpleSelector} {combinator : Combinator}
    {members : List Member} {after last : List Value}
    (hcompound : readCompound values = .ok (compound, rest)) (h : startsCombinator rest = true)
    (hcombinator : readCombinator rest = .ok (some combinator, after))
    (hmembers : readMembers after = .ok (members, last)) :
    readMembers values = .ok (compound.map .simple ++ .combinator combinator :: members, last) := by
  rw [readMembers_eq hcompound, if_pos h, hcombinator]
  dsimp only
  rw [hmembers]
  rfl

theorem forms_of_readMembers {members : List Member}
    (h : readMembers values = .ok (members, rest)) :
    ∃ front blanks, MembersForms front members ∧ Value.Blanks blanks ∧
      values = front ++ (blanks ++ rest) := by
  fun_induction readMembers values generalizing members rest with
  | case1 => cases h
  | case2 => cases h
  | case3 values compound after hcompound _ last hcombinator =>
    cases h
    obtain ⟨front, hfront, rfl⟩ := forms_of_readCompound hcompound
    obtain ⟨blanks, hblanks, rfl⟩ := blanks_of_readCombinator_none hcombinator
    exact ⟨front, blanks, .compound hfront, hblanks, rfl⟩
  | case4 values compound after hcompound hstarts combinator last hcombinator _ ih =>
    obtain ⟨⟨others, final⟩, hothers, hpure⟩ := exists_of_bind_eq_ok h
    cases hpure
    obtain ⟨front, hfront, rfl⟩ := forms_of_readCompound hcompound
    obtain ⟨between, hbetween, rfl⟩ := forms_of_readCombinator_some hcombinator hstarts
    obtain ⟨back, blanks, hback, hblanks, rfl⟩ := ih hothers
    exact ⟨front ++ (between ++ back), blanks, .combined hfront hbetween hback, hblanks,
      by simp only [List.append_assoc]⟩
  | case5 values compound after hcompound =>
    cases h
    obtain ⟨front, hfront, rfl⟩ := forms_of_readCompound hcompound
    exact ⟨front, [], .compound hfront, Value.blanks_nil, rfl⟩

theorem MembersForms.beginsCompound {front : List Value} {members : List Member}
    (h : MembersForms front members) (rest : List Value) :
    beginsCompound (front ++ rest) = true := by
  cases h with
  | compound hfront => exact hfront.beginsCompound rest
  | combined hfront =>
    rw [List.append_assoc]
    exact hfront.beginsCompound _

/-- Only white space at its end may stand between a selector and what ends it. -/
theorem readMembers_of_forms {front blanks : List Value} {members : List Member}
    (h : MembersForms front members) (hblanks : Value.Blanks blanks)
    (hrest : endsSelector rest = true) :
    readMembers (front ++ (blanks ++ rest)) = .ok (members, rest) := by
  -- White space would be read as a combinator, if it did not stand at the end.
  have hends : endsCompound (blanks ++ rest) = true ∧
      (blanks = [] ∧ startsCombinator rest = false ∨ startsCombinator (blanks ++ rest) = true) := by
    cases blanks with
    | nil =>
      unfold endsSelector at hrest
      split at hrest
      · exact ⟨rfl, .inl ⟨rfl, rfl⟩⟩
      · exact ⟨rfl, .inl ⟨rfl, rfl⟩⟩
      · cases hrest
    | cons v blanks =>
      obtain ⟨rfl, -⟩ := List.forall_mem_cons.1 hblanks
      exact ⟨rfl, .inr rfl⟩
  induction h with
  | compound hfront =>
    have hread := readCompound_of_forms hfront hends.1
    rcases hends.2 with ⟨rfl, hstarts⟩ | hstarts
    · exact readMembers_of_end hread hstarts
    · refine readMembers_of_none hread hstarts ?_
      unfold readCombinator
      rw [skipBlanks_append hblanks]
      unfold endsSelector at hrest
      split at hrest
      · rfl
      · rfl
      · cases hrest
  | @combined front between back _ _ _ hfront hbetween hback ih =>
    rw [List.append_assoc, List.append_assoc]
    obtain ⟨hstarts, hcompound⟩ := hbetween.starts (back ++ (blanks ++ rest))
    exact readMembers_of_some (readCompound_of_forms hfront hcompound) hstarts
      (readCombinator_of_forms hbetween (hback.beginsCompound _)) ih

end Members

section List

theorem readList_of_end {members : List Member} (h : readMembers values = .ok (members, [])) :
    readList values = .ok [⟨members⟩] := by
  rw [readList]
  split
  · next heq =>
    rw [h] at heq
    cases heq
  · next heq =>
    rw [h] at heq
    cases heq
    rfl
  · next heq =>
    rw [h] at heq
    cases heq
  · next heq =>
    rw [h] at heq
    cases heq

theorem readList_of_comma {members : List Member} {others : List Selector}
    (h : readMembers values = .ok (members, .token .comma :: rest))
    (hothers : readList (skipBlanks rest) = .ok others) :
    readList values = .ok (⟨members⟩ :: others) := by
  rw [readList]
  split
  · next heq =>
    rw [h] at heq
    cases heq
  · next heq =>
    rw [h] at heq
    cases heq
  · next heq =>
    rw [h] at heq
    cases heq
    dsimp only
    rw [hothers]
    rfl
  · next hno heq =>
    rw [h] at heq
    cases heq
    exact (hno rfl).elim

theorem forms_of_readList {selectors : List Selector} (h : readList values = .ok selectors) :
    ListForms values selectors := by
  fun_induction readList values generalizing selectors with
  | case1 => cases h
  | case2 values members hmembers =>
    cases h
    obtain ⟨front, blanks, hfront, hblanks, rfl⟩ := forms_of_readMembers hmembers
    rw [List.append_nil]
    exact .last hfront hblanks
  | case3 values members more hmembers _ ih =>
    obtain ⟨others, hothers, hpure⟩ := exists_of_bind_eq_ok h
    cases hpure
    obtain ⟨front, blanks, hfront, hblanks, rfl⟩ := forms_of_readMembers hmembers
    obtain ⟨behind, hbehind, hmore⟩ := exists_blanks more
    rw [hmore]
    exact .comma hfront hblanks hbehind (ih hothers)
  | case4 => cases h

theorem ListForms.beginsCompound {selectors : List Selector} (h : ListForms values selectors) :
    beginsCompound values = true := by
  cases h with
  | last hfront => exact hfront.beginsCompound _
  | comma hfront => exact hfront.beginsCompound _

theorem readList_of_forms {selectors : List Selector} (h : ListForms values selectors) :
    readList values = .ok selectors := by
  induction h with
  | @last front blanks members hfront hblanks =>
    have hread : readMembers (front ++ (blanks ++ [])) = .ok (_, []) :=
      readMembers_of_forms hfront hblanks rfl
    rw [List.append_nil] at hread
    exact readList_of_end hread
  | comma hfront hblanks hbehind hback ih =>
    refine readList_of_comma (readMembers_of_forms hfront hblanks rfl) ?_
    rw [skipBlanks_append hbehind, skipBlanks_of_beginsCompound hback.beginsCompound]
    exact ih

theorem readAll_of_forms {selectors : List Selector} (h : GroupForms values selectors) :
    readAll values = .ok selectors := by
  obtain ⟨blanks, back, rfl, hblanks, hback⟩ := h
  rw [readAll, skipBlanks_append hblanks, skipBlanks_of_beginsCompound hback.beginsCompound]
  exact readList_of_forms hback

theorem forms_of_readAll {selectors : List Selector} (h : readAll values = .ok selectors) :
    GroupForms values selectors := by
  obtain ⟨blanks, hblanks, hvalues⟩ := exists_blanks values
  exact ⟨blanks, skipBlanks values, hvalues, hblanks, forms_of_readList h⟩

/-- Values are read as selectors if and only if the grammar derives the selectors
    from them. So there is at most one list that it derives from given values. -/
theorem readAll_eq_ok_iff {selectors : List Selector} :
    readAll values = .ok selectors ↔ GroupForms values selectors :=
  ⟨forms_of_readAll, readAll_of_forms⟩

end List

end DeepScope.Selector
