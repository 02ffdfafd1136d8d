import DeepScope.Proofs.Selector.Values
import DeepScope.Proofs.Value.Canonical

namespace DeepScope

/-- A simple selector as reading makes it: an attribute has both an operator and
    a value or neither, and arguments are values as reading makes them. -/
def SimpleSelector.Canonical : SimpleSelector → Prop
  | attr _ _ operator value => operator.isSome = value.isSome
  | functionalPseudo _ _ arguments => Value.CanonicalList arguments
  | _ => True

/-- Two members that may follow one another: two combinators may not, and a type
    or universal selector only comes behind a combinator. -/
def Member.Follows : Member → Member → Prop
  | .combinator _, .combinator _ => False
  | .simple _, .simple second => second.isHead = false
  | _, _ => True

/-- Members as reading makes them. -/
structure Selector.CanonicalMembers (members : List Member) : Prop where
  first : ∃ s, members.head? = some (.simple s)
  last : ∃ s, members.getLast? = some (.simple s)
  follows : List.IsChain Member.Follows members
  simples : ∀ s, .simple s ∈ members → s.Canonical

/-- A selector as reading makes it. -/
def Selector.Canonical (selector : Selector) : Prop :=
  CanonicalMembers selector.members

namespace Selector

variable {front : List Value}

theorem AttributeForms.canonical {s : SimpleSelector} (h : AttributeForms front s) :
    s.isHead = false ∧ s.Canonical := by
  obtain ⟨_, _, _, _, htest⟩ := h
  cases htest with
  | absent => exact ⟨rfl, rfl⟩
  | compare => exact ⟨rfl, rfl⟩

/-- No other simple selector than a type or universal one begins a compound
    selector. -/
theorem SimpleForms.canonical {s : SimpleSelector} (h : SimpleForms front s) :
    s.isHead = false ∧ ((∀ v ∈ front, v.Canonical) → s.Canonical) := by
  cases h with
  | attr hcontents => exact ⟨hcontents.canonical.1, fun _ => hcontents.canonical.2⟩
  | functionalPseudo kind name arguments =>
    refine ⟨rfl, fun hvalues => ?_⟩
    cases hvalues _ (List.mem_append_right _ List.mem_cons_self) with
    | function htidy heach => exact ⟨htidy, heach⟩
  | _ => exact ⟨rfl, fun _ => trivial⟩

theorem SimplesForms.canonical {simples : List SimpleSelector} (h : SimplesForms front simples) :
    (∀ s ∈ simples, s.isHead = false) ∧
      ((∀ v ∈ front, v.Canonical) → ∀ s ∈ simples, s.Canonical) := by
  induction h with
  | nil => exact ⟨List.forall_mem_nil _, fun _ => List.forall_mem_nil _⟩
  | cons hform _ ih =>
    obtain ⟨hhead, hcanonical⟩ := hform.canonical
    refine ⟨List.forall_mem_cons.2 ⟨hhead, ih.1⟩, fun hvalues => ?_⟩
    obtain ⟨hfront, hback⟩ := List.forall_mem_append.1 hvalues
    exact List.forall_mem_cons.2 ⟨hcanonical hfront, ih.2 hback⟩

/-- One compound selector is a selector. -/
theorem CanonicalMembers.compound {compound : List SimpleSelector} (hne : compound ≠ [])
    (hheads : ∀ s ∈ compound.tail, s.isHead = false) (hall : ∀ s ∈ compound, s.Canonical) :
    CanonicalMembers (compound.map .simple) := by
  have hfollows : ∀ {s : SimpleSelector} {others : List SimpleSelector},
      (∀ t ∈ others, t.isHead = false) →
      List.IsChain Member.Follows ((s :: others).map Member.simple) := by
    intro s others
    induction others generalizing s with
    | nil => exact fun _ => .singleton _
    | cons t others ih =>
      intro hheads
      obtain ⟨hhead, hheads⟩ := List.forall_mem_cons.1 hheads
      exact .cons_cons hhead (ih hheads)
  cases compound with
  | nil => exact absurd rfl hne
  | cons s others =>
    refine ⟨⟨s, rfl⟩, ?_, hfollows hheads, fun t ht => hall t (by simpa using ht)⟩
    rw [List.getLast?_map, List.getLast?_eq_some_getLast hne]
    exact ⟨_, rfl⟩

/-- A combinator leads from one selector to the next. -/
theorem CanonicalMembers.combine {members others : List Member} (h : CanonicalMembers members)
    (combinator : Combinator) (h' : CanonicalMembers others) :
    CanonicalMembers (members ++ .combinator combinator :: others) := by
  obtain ⟨first, hfirst⟩ := h.first
  obtain ⟨next, hnext⟩ := h'.first
  refine ⟨⟨first, ?_⟩, ?_, ?_, fun s hs => ?_⟩
  · rw [List.head?_append, hfirst]
    rfl
  · obtain ⟨last, hlast⟩ := h'.last
    rw [List.getLast?_append, List.getLast?_cons, hlast]
    exact ⟨last, rfl⟩
  · refine h.follows.append (h'.follows.cons fun m hm => ?_) fun m hm n hn => ?_
    · rw [hnext] at hm
      cases hm
      trivial
    · obtain ⟨last, hlast⟩ := h.last
      rw [hlast] at hm
      cases hm
      cases hn
      trivial
  · rcases List.mem_append.1 hs with hs | hs
    · exact h.simples s hs
    · exact h'.simples s (by simpa using hs)

/-- A compound selector is not empty, and only its first simple selector may be a
    type or universal selector. -/
theorem CompoundForms.canonical {compound : List SimpleSelector} (h : CompoundForms front compound) :
    compound ≠ [] ∧ (∀ s ∈ compound.tail, s.isHead = false) ∧
      ((∀ v ∈ front, v.Canonical) → ∀ s ∈ compound, s.Canonical) := by
  obtain ⟨hhead, hsimples, hne⟩ := h
  obtain ⟨hheads, hcanonical⟩ := hsimples.canonical
  refine ⟨hne, ?_, fun hvalues => ?_⟩
  · cases hhead with
    | none => exact fun s hs => hheads s (List.mem_of_mem_tail hs)
    | type | universal => exact hheads
  · have hback := hcanonical (List.forall_mem_append.1 hvalues).2
    cases hhead with
    | none => exact hback
    | type | universal => exact List.forall_mem_cons.2 ⟨trivial, hback⟩

theorem MembersForms.canonical {members : List Member} (h : MembersForms front members)
    (hvalues : ∀ v ∈ front, v.Canonical) : CanonicalMembers members := by
  induction h with
  | compound hcompound =>
    obtain ⟨hne, hheads, hall⟩ := hcompound.canonical
    exact .compound hne hheads (hall hvalues)
  | @combined _ _ _ _ combinator _ hcompound _ _ ih =>
    obtain ⟨hfront, hbehind⟩ := List.forall_mem_append.1 hvalues
    obtain ⟨hne, hheads, hall⟩ := hcompound.canonical
    have hmembers := ih (List.forall_mem_append.1 hbehind).2
    exact (CanonicalMembers.compound hne hheads (hall hfront)).combine combinator hmembers

theorem ListForms.canonical {selectors : List Selector} (h : ListForms front selectors)
    (hvalues : ∀ v ∈ front, v.Canonical) : selectors ≠ [] ∧ ∀ s ∈ selectors, s.Canonical := by
  induction h with
  | last hmembers =>
    have hmember := hmembers.canonical (List.forall_mem_append.1 hvalues).1
    exact ⟨List.cons_ne_nil _ _, List.forall_mem_singleton.2 hmember⟩
  | comma hmembers _ _ _ ih =>
    obtain ⟨hfront, hbehind⟩ := List.forall_mem_append.1 hvalues
    have hcomma := (List.forall_mem_cons.1 (List.forall_mem_append.1 hbehind).2).2
    have hothers := ih (List.forall_mem_append.1 hcomma).2
    exact ⟨List.cons_ne_nil _ _,
      List.forall_mem_cons.2 ⟨hmembers.canonical hfront, hothers.2⟩⟩

/-- Reading finds at least one selector, and each of them has the shape of one. -/
theorem readAll_canonical {values : List Value} {selectors : List Selector}
    (hvalues : ∀ v ∈ values, v.Canonical) (h : readAll values = .ok selectors) :
    selectors ≠ [] ∧ ∀ s ∈ selectors, s.Canonical := by
  obtain ⟨blanks, back, rfl, -, hlist⟩ := forms_of_readAll h
  exact hlist.canonical (List.forall_mem_append.1 hvalues).2

end Selector

end DeepScope
