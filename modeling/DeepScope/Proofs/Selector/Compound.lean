import DeepScope.Proofs.Selector.Grammar

namespace DeepScope.Selector

variable {values rest : List Value}

section Head

/-- What may follow a type or universal selector, or stand where there is none. -/
def followsHead : List Value → Bool
  | .token (.ident _) :: _ => false
  | .token (.delim c) :: _ => c ≠ '*' && c ≠ '|'
  | _ => true

theorem forms_of_readHead (values : List Value) :
    ∃ front, HeadForms front (readHead values).1 ∧ values = front ++ (readHead values).2 := by
  unfold readHead
  split
  · exact ⟨_, .type _ (.named _), rfl⟩
  · exact ⟨_, .type _ .any, rfl⟩
  · exact ⟨_, .type _ .empty, rfl⟩
  · exact ⟨_, .universal (.named _), rfl⟩
  · exact ⟨_, .universal .any, rfl⟩
  · exact ⟨_, .universal .empty, rfl⟩
  · exact ⟨_, .type _ .none, rfl⟩
  · exact ⟨_, .universal .none, rfl⟩
  · exact ⟨[], .none, rfl⟩

theorem readHead_of_forms {front : List Value} {head : List SimpleSelector}
    (h : HeadForms front head) (hrest : followsHead rest = true) :
    readHead (front ++ rest) = (head, rest) := by
  cases h with
  | none =>
    rw [List.nil_append]
    unfold readHead
    split <;> first | rfl | simp [followsHead] at hrest
  | type name hns =>
    cases hns with
    | none =>
      rw [List.nil_append, List.singleton_append]
      unfold readHead
      split <;> simp_all [followsHead]
    | _ => rfl
  | universal hns =>
    cases hns with
    | none =>
      rw [List.nil_append, List.singleton_append]
      unfold readHead
      split <;> simp_all [followsHead]
    | _ => rfl

end Head

section Attribute

theorem forms_of_readAttributeNamespace (values : List Value) :
    ∃ front, NamespaceForms front (readAttributeNamespace values).1 ∧
      values = front ++ (readAttributeNamespace values).2 := by
  unfold readAttributeNamespace
  split
  · exact ⟨_, .named _, rfl⟩
  · exact ⟨_, .any, rfl⟩
  · exact ⟨_, .empty, rfl⟩
  · exact ⟨[], .none, rfl⟩

theorem readAttributeNamespace_of_forms {front : List Value} {ns : Option String}
    (h : NamespaceForms front ns) (name : String)
    (hrest : ∀ other more, rest ≠ .token (.delim '|') :: .token (.ident other) :: more) :
    readAttributeNamespace (front ++ .token (.ident name) :: rest) =
      (ns, .token (.ident name) :: rest) := by
  cases h with
  | none =>
    rw [List.nil_append]
    unfold readAttributeNamespace
    split <;> simp_all
  | _ => rfl

/-- A namespace, or the name behind it, is no white space. -/
theorem skipBlanks_namespace {front : List Value} {ns : Option String}
    (h : NamespaceForms front ns) (name : String) (rest : List Value) :
    skipBlanks (front ++ .token (.ident name) :: rest) = front ++ .token (.ident name) :: rest := by
  cases h <;> rfl

theorem forms_of_readOperator {c : Char} {operator : String}
    (h : readOperator c values = .ok (operator, rest)) :
    ∃ front, OperatorForms front operator ∧ .token (.delim c) :: values = front ++ rest := by
  unfold readOperator at h
  split at h
  · next hc =>
    subst hc
    cases h
    exact ⟨_, .equal, rfl⟩
  · split at h
    · next hc =>
      split at h
      · cases h
        exact ⟨_, .matching hc, rfl⟩
      · cases h
    · cases h

/-- An operator begins with a sign, which is no bar in front of a name. -/
theorem readOperator_of_forms {front : List Value} {operator : String}
    (h : OperatorForms front operator) (rest : List Value) :
    ∃ c back, front = .token (.delim c) :: back ∧
      readOperator c (back ++ rest) = .ok (operator, rest) ∧
      ∀ other more, front ++ rest ≠ .token (.delim '|') :: .token (.ident other) :: more := by
  cases h with
  | equal => exact ⟨'=', [], rfl, rfl, by simp⟩
  | @matching c hc =>
    refine ⟨c, [.token (.delim '=')], rfl, ?_, by simp⟩
    have hne : c ≠ '=' := by
      rintro rfl
      simp at hc
    unfold readOperator
    rw [if_neg hne, if_pos hc]
    rfl

theorem forms_of_readAttributeValue {text : String}
    (h : readAttributeValue values = .ok (text, rest)) :
    ∃ blanks v back, Value.Blanks blanks ∧ Value.Blanks back ∧
      (v = .token (.ident text) ∨ v = .token (.string text)) ∧
      values = blanks ++ v :: (back ++ rest) := by
  obtain ⟨blanks, hblanks, hvalues⟩ := exists_blanks values
  unfold readAttributeValue at h
  split at h
  · next more heq =>
    cases h
    obtain ⟨back, hback, hmore⟩ := exists_blanks more
    exact ⟨blanks, _, back, hblanks, hback, .inl rfl, by rw [← hmore, ← heq, ← hvalues]⟩
  · next more heq =>
    cases h
    obtain ⟨back, hback, hmore⟩ := exists_blanks more
    exact ⟨blanks, _, back, hblanks, hback, .inr rfl, by rw [← hmore, ← heq, ← hvalues]⟩
  · cases h

theorem readAttributeValue_of_forms {blanks back : List Value} {v : Value} {text : String}
    (hblanks : Value.Blanks blanks) (hv : v = .token (.ident text) ∨ v = .token (.string text))
    (hback : Value.Blanks back) :
    readAttributeValue (blanks ++ v :: back) = .ok (text, []) := by
  have hskip : skipBlanks (v :: back) = v :: back :=
    skipBlanks_of_not_blank (by rcases hv with rfl | rfl <;> rfl) back
  unfold readAttributeValue
  rw [skipBlanks_append hblanks, hskip]
  rcases hv with rfl | rfl
  · dsimp only
    rw [skipBlanks_blanks hback]
  · dsimp only
    rw [skipBlanks_blanks hback]

theorem forms_of_readAttribute {contents : List Value} {s : SimpleSelector}
    (h : readAttribute contents = .ok s) : AttributeForms contents s := by
  obtain ⟨blanks, hblanks, hcontents⟩ := exists_blanks contents
  obtain ⟨front, hns, hfront⟩ := forms_of_readAttributeNamespace (skipBlanks contents)
  unfold readAttribute at h
  generalize readAttributeNamespace (skipBlanks contents) = found at h hns hfront
  obtain ⟨ns, afterNamespace⟩ := found
  dsimp only at h hns hfront
  split at h
  · next name afterName =>
    obtain ⟨behind, hbehind, hafter⟩ := exists_blanks afterName
    -- What is compared is all that is left open.
    have hform : ∀ {test : List Value} {operator value : Option String},
        skipBlanks afterName = test → TestForms test operator value →
        AttributeForms contents (.attr ns name operator value) := by
      intro test operator value htest hforms
      rw [hcontents, hfront, hafter, htest]
      exact .attr name hblanks hns hbehind hforms
    split at h
    · next hend =>
      cases h
      exact hform hend .absent
    · next c afterChar htest =>
      obtain ⟨⟨operator, afterOperator⟩, hoperator, h⟩ := exists_of_bind_eq_ok h
      obtain ⟨⟨value, last⟩, hvalue, h⟩ := exists_of_bind_eq_ok h
      dsimp only at h hvalue
      split at h
      · cases h
        obtain ⟨sign, hsign, hchars⟩ := forms_of_readOperator hoperator
        obtain ⟨space, v, back, hspace, hback, hv, htext⟩ := forms_of_readAttributeValue hvalue
        rw [List.append_nil] at htext
        exact hform (htest.trans (hchars.trans (by rw [htext])))
          (.compare hsign hspace hv hback)
      · cases h
    · cases h
  · cases h

theorem readAttribute_of_forms {contents : List Value} {s : SimpleSelector}
    (h : AttributeForms contents s) : readAttribute contents = .ok s := by
  obtain @⟨blanks, front, behind, test, ns, name, operator, value, hblanks, hns, hbehind, htest⟩ := h
  -- The bar of an operator has no name behind it.
  have hbar : ∀ other more,
      behind ++ test ≠ .token (.delim '|') :: .token (.ident other) :: more := by
    intro other more heq
    cases behind with
    | cons v behind =>
      obtain ⟨rfl, -⟩ := List.forall_mem_cons.1 hbehind
      cases heq
    | nil =>
      cases htest with
      | absent => cases heq
      | compare hoperator =>
        obtain ⟨_, _, _, _, hne⟩ := readOperator_of_forms hoperator (_ ++ _ :: _)
        exact hne other more heq
  unfold readAttribute
  rw [skipBlanks_append hblanks, skipBlanks_namespace hns,
    readAttributeNamespace_of_forms hns name hbar]
  dsimp only
  rw [skipBlanks_append hbehind]
  cases htest with
  | absent => rfl
  | @compare sign space back _ _ v hoperator hspace hv hback =>
    obtain ⟨c, rest, rfl, hread, -⟩ := readOperator_of_forms hoperator (space ++ v :: back)
    rw [List.cons_append, skipBlanks_of_not_blank rfl]
    dsimp only
    rw [hread]
    dsimp only [bind, Except.bind]
    rw [readAttributeValue_of_forms hspace hv hback]
    rfl

end Attribute

section Compound

/-- What may follow a compound selector: a combinator, a comma or nothing. -/
def endsCompound : List Value → Bool
  | [] | .token .whitespace :: _ | .token .comma :: _ => true
  | .token (.delim c) :: _ => c ∈ ['+', '>', '~', '/']
  | _ => false

/-- Whether a compound selector begins here. -/
def beginsCompound : List Value → Bool
  | .token (.ident _) :: _ | .token (.hash ..) :: _ | .token .colon :: _ => true
  | .block .openSquare _ :: _ => true
  | .token (.delim c) :: _ => c ∈ ['*', '|', '.']
  | _ => false

theorem isBlank_of_beginsCompound {v : Value} {rest : List Value}
    (h : beginsCompound (v :: rest) = true) : v.isBlank = false ∧ v.isComma = false := by
  unfold beginsCompound at h
  split at h <;> simp_all [Value.isBlank, Value.isComma]

theorem skipBlanks_of_beginsCompound {rest : List Value} (h : beginsCompound rest = true) :
    skipBlanks rest = rest := by
  cases rest with
  | nil => rfl
  | cons v rest => exact skipBlanks_of_not_blank (isBlank_of_beginsCompound h).1 rest

theorem followsHead_of_endsCompound (h : endsCompound rest = true) : followsHead rest = true := by
  unfold endsCompound at h
  split at h
  · rfl
  · rfl
  · rfl
  · have hc := of_decide_eq_true h
    simp only [List.mem_cons, List.not_mem_nil, or_false] at hc
    rcases hc with rfl | rfl | rfl | rfl <;> rfl
  · cases h

theorem forms_of_readPseudo {kind : PseudoKind} {s : SimpleSelector}
    (h : readPseudo kind values = .ok (s, rest)) :
    ∃ front, SimpleForms (kind.values ++ front) s ∧ values = front ++ rest := by
  unfold readPseudo at h
  split at h
  · cases h
    exact ⟨_, .pseudo kind _, rfl⟩
  · cases h
    exact ⟨_, .functionalPseudo kind _ _, rfl⟩
  · cases h

theorem forms_of_readSimple {s : SimpleSelector} (h : readSimple values = .ok (some (s, rest))) :
    ∃ front, SimpleForms front s ∧ values = front ++ rest := by
  have hpseudo : ∀ {kind : PseudoKind} {tail : List Value},
      (some <$> readPseudo kind tail : Except SelectorError _) = .ok (some (s, rest)) →
      ∃ front, SimpleForms front s ∧ kind.values ++ tail = front ++ rest := by
    intro kind tail hmap
    obtain ⟨pair, hread, hpair⟩ := exists_of_map_eq_ok hmap
    cases hpair
    obtain ⟨front, hform, rfl⟩ := forms_of_readPseudo hread
    exact ⟨_, hform, (List.append_assoc ..).symm⟩
  unfold readSimple at h
  split at h
  · cases h
    exact ⟨_, .id _, rfl⟩
  · cases h
  · cases h
    exact ⟨_, .className _, rfl⟩
  · cases h
  · obtain ⟨found, hread, hpure⟩ := exists_of_bind_eq_ok h
    cases hpure
    exact ⟨_, .attr (forms_of_readAttribute hread), rfl⟩
  · cases h
  · exact hpseudo h
  · exact hpseudo h
  · cases h

theorem readSimple_of_forms {front : List Value} {s : SimpleSelector}
    (h : SimpleForms front s) (rest : List Value) :
    readSimple (front ++ rest) = .ok (some (s, rest)) := by
  cases h with
  | id name => rfl
  | className name => rfl
  | attr hcontents =>
    rw [List.singleton_append, readSimple, readAttribute_of_forms hcontents]
    rfl
  | pseudo kind name => cases kind <;> rfl
  | functionalPseudo kind name arguments => cases kind <;> rfl

theorem readSimple_of_endsCompound (h : endsCompound rest = true) : readSimple rest = .ok none := by
  unfold readSimple
  split <;> first | rfl | simp [endsCompound] at h

theorem followsHead_of_simple {front : List Value} {s : SimpleSelector}
    (h : SimpleForms front s) (rest : List Value) :
    followsHead (front ++ rest) = true ∧ beginsCompound (front ++ rest) = true := by
  cases h with
  | pseudo kind name => cases kind <;> exact ⟨rfl, rfl⟩
  | functionalPseudo kind name arguments => cases kind <;> exact ⟨rfl, rfl⟩
  | _ => exact ⟨rfl, rfl⟩

theorem readSimples_of_none (h : readSimple values = .ok none) :
    readSimples values = .ok ([], values) := by
  rw [readSimples]
  split
  · next heq =>
    rw [h] at heq
    cases heq
  · rfl
  · next heq =>
    rw [h] at heq
    cases heq

theorem readSimples_of_some {s : SimpleSelector} {simples : List SimpleSelector}
    {after : List Value} (h : readSimple values = .ok (some (s, rest)))
    (hrest : readSimples rest = .ok (simples, after)) :
    readSimples values = .ok (s :: simples, after) := by
  rw [readSimples]
  split
  · next heq =>
    rw [h] at heq
    cases heq
  · next heq =>
    rw [h] at heq
    cases heq
  · next heq =>
    rw [h] at heq
    cases heq
    rw [hrest]
    rfl

theorem forms_of_readSimples {simples : List SimpleSelector}
    (h : readSimples values = .ok (simples, rest)) :
    ∃ front, SimplesForms front simples ∧ values = front ++ rest := by
  fun_induction readSimples values generalizing simples rest with
  | case1 => cases h
  | case2 =>
    cases h
    exact ⟨[], .nil, rfl⟩
  | case3 values s tail hread _ ih =>
    obtain ⟨⟨others, last⟩, hothers, hpure⟩ := exists_of_bind_eq_ok h
    cases hpure
    obtain ⟨front, hform, rfl⟩ := forms_of_readSimple hread
    obtain ⟨back, hforms, rfl⟩ := ih hothers
    exact ⟨front ++ back, .cons hform hforms, (List.append_assoc ..).symm⟩

theorem readSimples_of_forms {front : List Value} {simples : List SimpleSelector}
    (h : SimplesForms front simples) (hrest : endsCompound rest = true) :
    readSimples (front ++ rest) = .ok (simples, rest) := by
  induction h with
  | nil => exact readSimples_of_none (readSimple_of_endsCompound hrest)
  | cons hform _ ih =>
    rw [List.append_assoc]
    exact readSimples_of_some (readSimple_of_forms hform _) ih

theorem forms_of_readCompound {compound : List SimpleSelector}
    (h : readCompound values = .ok (compound, rest)) :
    ∃ front, CompoundForms front compound ∧ values = front ++ rest := by
  obtain ⟨front, hhead, hfront⟩ := forms_of_readHead values
  unfold readCompound at h
  dsimp only at h
  obtain ⟨⟨simples, after⟩, hread, hrest⟩ := exists_of_bind_eq_ok h
  obtain ⟨back, hback, hafter⟩ := forms_of_readSimples hread
  dsimp only at hrest
  split at hrest
  · cases hrest
  · next hempty =>
    cases hrest
    refine ⟨front ++ back, .compound hhead hback ?_, ?_⟩
    · simpa [List.append_eq_nil_iff] using hempty
    · rw [List.append_assoc, ← hafter, ← hfront]

/-- What follows an optional type or universal selector: a simple selector, or
    the end of the compound selector. -/
theorem SimplesForms.followsHead {back : List Value} {simples : List SimpleSelector}
    (h : SimplesForms back simples) (hrest : endsCompound rest = true) :
    followsHead (back ++ rest) = true := by
  cases h with
  | nil => exact followsHead_of_endsCompound hrest
  | cons hform _ =>
    rw [List.append_assoc]
    exact (followsHead_of_simple hform _).1

theorem readCompound_of_forms {front : List Value} {compound : List SimpleSelector}
    (h : CompoundForms front compound) (hrest : endsCompound rest = true) :
    readCompound (front ++ rest) = .ok (compound, rest) := by
  obtain ⟨hhead, hback, hne⟩ := h
  unfold readCompound
  rw [List.append_assoc, readHead_of_forms hhead (hback.followsHead hrest)]
  dsimp only
  rw [readSimples_of_forms hback hrest]
  dsimp only [bind, Except.bind]
  rw [if_neg (by simpa [List.append_eq_nil_iff] using hne)]
  rfl

theorem HeadForms.beginsCompound {front : List Value} {head : List SimpleSelector}
    (h : HeadForms front head) (hne : head ≠ []) (rest : List Value) :
    beginsCompound (front ++ rest) = true := by
  cases h with
  | none => exact absurd rfl hne
  | type name hns => cases hns <;> rfl
  | universal hns => cases hns <;> rfl

theorem CompoundForms.beginsCompound {front : List Value} {compound : List SimpleSelector}
    (h : CompoundForms front compound) (rest : List Value) :
    beginsCompound (front ++ rest) = true := by
  obtain @⟨front, back, head, simples, hhead, hback, hne⟩ := h
  rw [List.append_assoc]
  by_cases hnil : head = []
  · subst hnil
    cases hhead
    cases hback with
    | nil => exact absurd rfl hne
    | cons hform _ =>
      rw [List.nil_append, List.append_assoc]
      exact (followsHead_of_simple hform _).2
  · exact hhead.beginsCompound hnil _

end Compound

end DeepScope.Selector
