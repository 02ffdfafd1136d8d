import DeepScope.Proofs.Selector.Shape

namespace DeepScope

namespace Value.Sound

variable {limit : Option Nat} {depth : Nat} {values others : List Value}

theorem of_subset (h : Sound limit depth values) (hsub : others ⊆ values) :
    Sound limit depth others :=
  .of_forall fun v hv => h.singleton v (hsub hv)

theorem of_append {front back : List Value} (h : Sound limit depth (front ++ back)) :
    Sound limit depth front ∧ Sound limit depth back :=
  ⟨h.of_subset (List.subset_append_left _ _), h.of_subset (List.subset_append_right _ _)⟩

theorem legible {t : Token} (h : Sound limit depth values) (ht : .token t ∈ values) : t.Legible := by
  have hsingle := h.singleton _ ht
  generalize heq : [Value.token t] = found at hsingle
  cases hsingle with
  | nil => cases heq
  | token hlegible =>
    cases heq
    exact hlegible
  | @nested _ opener contents =>
    have hnest : nest opener contents = .token t := (List.cons.inj heq).1.symm
    cases opener <;> cases hnest

theorem isName {name : String} (h : Sound limit depth values) (ht : .token (.ident name) ∈ values) :
    IsName name :=
  h.legible ht

/-- What a block holds is sound one level further in. -/
theorem contents {opener : Token} {contents : List Value} (h : Sound limit depth values)
    (hblock : .block opener contents ∈ values) :
    mayNest limit depth = true ∧ Sound limit (depth + 1) contents := by
  have hsingle := h.singleton _ hblock
  generalize heq : [Value.block opener contents] = found at hsingle
  cases hsingle with
  | nil => cases heq
  | token => cases heq
  | @nested _ first inner _ _ _ _ hnest _ hinner =>
    have hblock : nest first inner = .block opener contents := (List.cons.inj heq).1.symm
    obtain ⟨-, rfl⟩ := nest_eq_block hblock
    exact ⟨hnest, hinner⟩

end Value.Sound

namespace Selector

variable {limit : Option Nat} {depth : Nat} {front : List Value}

theorem NamespaceForms.isNamespace {ns : Option String} (h : NamespaceForms front ns)
    (hvalues : Value.Sound limit depth front) : IsNamespace ns := by
  cases h with
  | none => trivial
  | empty => exact .inl rfl
  | any => exact .inr (by decide)
  | named => exact .inr (hvalues.isName List.mem_cons_self)

theorem HeadForms.sound {head : List SimpleSelector} (h : HeadForms front head)
    (hvalues : Value.Sound limit depth front) : ∀ s ∈ head, s.Sound limit depth := by
  cases h with
  | none => exact List.forall_mem_nil _
  | type name hns =>
    obtain ⟨hspace, hname⟩ := hvalues.of_append
    exact List.forall_mem_singleton.2 ⟨hns.isNamespace hspace, hname.isName List.mem_cons_self⟩
  | universal hns => exact List.forall_mem_singleton.2 (hns.isNamespace hvalues.of_append.1)

theorem OperatorForms.isOperator {operator : String} (h : OperatorForms front operator) :
    IsOperator operator := by
  cases h with
  | equal => exact .inl rfl
  | matching hc => exact .inr ⟨_, hc, rfl⟩

theorem TestForms.sound {operator value : Option String} (h : TestForms front operator value)
    (hvalues : Value.Sound limit depth front) :
    operator = none ∧ value = none ∨ ∃ op text, operator = some op ∧ value = some text ∧
      IsOperator op ∧ '\x00' ∉ text.toList := by
  cases h with
  | absent => exact .inl ⟨rfl, rfl⟩
  | @compare _ _ _ op text v hoperator _ hv _ =>
    refine .inr ⟨op, text, rfl, rfl, hoperator.isOperator, ?_⟩
    have hbehind := hvalues.of_append.2.of_append.2
    rcases hv with rfl | rfl
    · exact (hbehind.isName List.mem_cons_self).2
    · exact hbehind.legible (t := .string text) List.mem_cons_self

theorem AttributeForms.sound {s : SimpleSelector} (h : AttributeForms front s)
    (hvalues : Value.Sound limit (depth + 1) front) (hnest : mayNest limit depth = true) :
    s.Sound limit depth := by
  obtain ⟨name, _, hns, _, htest⟩ := h
  obtain ⟨hspace, hname⟩ := hvalues.of_append.2.of_append
  have hbehind := hname.of_subset (List.subset_cons_self _ _)
  exact ⟨hns.isNamespace hspace, hname.isName List.mem_cons_self, hnest,
    htest.sound hbehind.of_append.2⟩

theorem SimpleForms.sound {s : SimpleSelector} (h : SimpleForms front s)
    (hvalues : Value.Sound limit depth front) : s.Sound limit depth := by
  cases h with
  | id name => exact hvalues.legible (t := .hash name .id) List.mem_cons_self
  | className name => exact hvalues.isName (List.mem_cons_of_mem _ List.mem_cons_self)
  | attr hform =>
    obtain ⟨hnest, hcontents⟩ := hvalues.contents List.mem_cons_self
    exact hform.sound hcontents hnest
  | pseudo kind name => exact hvalues.of_append.2.isName List.mem_cons_self
  | functionalPseudo kind name arguments => exact hvalues.of_append.2

theorem SimplesForms.sound {simples : List SimpleSelector} (h : SimplesForms front simples)
    (hvalues : Value.Sound limit depth front) : ∀ s ∈ simples, s.Sound limit depth := by
  induction h with
  | nil => exact List.forall_mem_nil _
  | cons hform _ ih =>
    obtain ⟨hfirst, hothers⟩ := hvalues.of_append
    exact List.forall_mem_cons.2 ⟨hform.sound hfirst, ih hothers⟩

theorem CompoundForms.sound {compound : List SimpleSelector} (h : CompoundForms front compound)
    (hvalues : Value.Sound limit depth front) : SoundCompound limit depth compound := by
  obtain ⟨hne, htail, -⟩ := h.canonical
  refine ⟨hne, ?_, htail⟩
  obtain ⟨hhead, hsimples, -⟩ := h
  obtain ⟨hfirst, hothers⟩ := hvalues.of_append
  exact List.forall_mem_append.2 ⟨hhead.sound hfirst, hsimples.sound hothers⟩

theorem MembersForms.sound {members : List Member} (h : MembersForms front members)
    (hvalues : Value.Sound limit depth front) : SoundMembers limit depth members := by
  induction h with
  | compound hcompound => exact .compound (hcompound.sound hvalues)
  | combined hcompound _ _ ih =>
    obtain ⟨hfirst, hbehind⟩ := hvalues.of_append
    exact .combined (hcompound.sound hfirst) (ih hbehind.of_append.2)

theorem ListForms.sound {selectors : List Selector} (h : ListForms front selectors)
    (hvalues : Value.Sound limit depth front) :
    selectors ≠ [] ∧ ∀ s ∈ selectors, SoundMembers limit depth s.members := by
  induction h with
  | last hmembers =>
    exact ⟨List.cons_ne_nil _ _, List.forall_mem_singleton.2 (hmembers.sound hvalues.of_append.1)⟩
  | comma hmembers _ _ _ ih =>
    obtain ⟨hfirst, hbehind⟩ := hvalues.of_append
    have hcomma := hbehind.of_append.2.of_subset (List.subset_cons_self _ _)
    have hothers := ih hcomma.of_append.2
    exact ⟨List.cons_ne_nil _ _, List.forall_mem_cons.2 ⟨hmembers.sound hfirst, hothers.2⟩⟩

/-- The selectors that are read from sound values are sound. -/
theorem readAll_sound {values : List Value} {selectors : List Selector}
    (hvalues : Value.Sound limit depth values) (h : readAll values = .ok selectors) :
    selectors ≠ [] ∧ ∀ s ∈ selectors, SoundMembers limit depth s.members := by
  obtain ⟨blanks, back, rfl, -, hlist⟩ := forms_of_readAll h
  exact hlist.sound hvalues.of_append.2

end Selector

end DeepScope
