import DeepScope.Proofs.Selector.Members
import DeepScope.Proofs.Value.Nesting

namespace DeepScope

/-- The levels of a simple selector. The brackets of an attribute selector are
    one, and so are the parentheses around arguments. -/
def SimpleSelector.nesting : SimpleSelector → Nat
  | .attr .. => 1
  | .functionalPseudo _ _ arguments => Value.nesting arguments + 1
  | _ => 0

/-- The levels of a member of a selector. -/
def Member.nesting : Member → Nat
  | .simple selector => selector.nesting
  | .combinator _ => 0

namespace Selector

/-- How deep a selector is nested. -/
def nesting (selector : Selector) : Nat :=
  deepest Member.nesting selector.members

variable {front : List Value}

theorem nesting_blanks (h : Value.Blanks front) : Value.nesting front = 0 := by
  induction front with
  | nil => rw [Value.nesting_nil]
  | cons v front ih =>
    obtain ⟨rfl, hblanks⟩ := List.forall_mem_cons.1 h
    rw [Value.nesting_token, ih hblanks]

theorem NamespaceForms.nesting {ns : Option String} (h : NamespaceForms front ns) :
    Value.nesting front = 0 := by
  cases h <;> simp

theorem HeadForms.nesting {head : List SimpleSelector} (h : HeadForms front head) :
    Value.nesting front = 0 ∧ deepest SimpleSelector.nesting head = 0 := by
  cases h with
  | none => simp
  | type name hns =>
    rw [Value.nesting_append, hns.nesting]
    simp [SimpleSelector.nesting]
  | universal hns =>
    rw [Value.nesting_append, hns.nesting]
    simp [SimpleSelector.nesting]

theorem TestForms.nesting {operator value : Option String} (h : TestForms front operator value) :
    Value.nesting front = 0 := by
  cases h with
  | absent => rw [Value.nesting_nil]
  | compare hoperator hblanks hv hback =>
    rw [Value.nesting_append, Value.nesting_append, nesting_blanks hblanks]
    rcases hv with rfl | rfl <;> cases hoperator <;> simp [nesting_blanks hback]

/-- Between the brackets of an attribute selector stand tokens only. -/
theorem AttributeForms.nesting {s : SimpleSelector} (h : AttributeForms front s) :
    Value.nesting front = 0 ∧ s.nesting = 1 := by
  obtain ⟨name, hblanks, hns, hbehind, htest⟩ := h
  refine ⟨?_, rfl⟩
  rw [Value.nesting_append, Value.nesting_append, Value.nesting_token, Value.nesting_append,
    nesting_blanks hblanks, hns.nesting, nesting_blanks hbehind, htest.nesting]
  rfl

theorem SimpleForms.nesting {s : SimpleSelector} (h : SimpleForms front s) :
    Value.nesting front = s.nesting := by
  cases h with
  | attr hcontents =>
    obtain ⟨hinner, hlevel⟩ := hcontents.nesting
    rw [Value.nesting_block, hinner, hlevel, Value.nesting_nil]
    rfl
  | pseudo kind name => cases kind <;> simp [PseudoKind.values, SimpleSelector.nesting]
  | functionalPseudo kind name arguments =>
    cases kind <;> simp [PseudoKind.values, SimpleSelector.nesting]
  | _ => simp [SimpleSelector.nesting]

theorem SimplesForms.nesting {simples : List SimpleSelector} (h : SimplesForms front simples) :
    Value.nesting front = deepest SimpleSelector.nesting simples := by
  induction h with
  | nil => simp
  | cons hform _ ih => rw [Value.nesting_append, hform.nesting, ih, deepest_cons]

theorem CompoundForms.nesting {compound : List SimpleSelector} (h : CompoundForms front compound) :
    Value.nesting front = deepest SimpleSelector.nesting compound := by
  obtain ⟨hhead, hsimples, -⟩ := h
  obtain ⟨hfront, hdeepest⟩ := hhead.nesting
  rw [Value.nesting_append, hfront, hsimples.nesting, deepest_append, hdeepest]

theorem CombinatorForms.nesting {combinator : Combinator} (h : CombinatorForms front combinator) :
    Value.nesting front = 0 := by
  cases h with
  | descendant hblanks => exact nesting_blanks hblanks
  | sign hfront hsign hback =>
    rw [Value.nesting_append, Value.nesting_append, nesting_blanks hfront, nesting_blanks hback]
    cases hsign <;> simp

theorem deepest_map_simple (compound : List SimpleSelector) :
    deepest Member.nesting (compound.map .simple) = deepest SimpleSelector.nesting compound := by
  induction compound with
  | nil => rfl
  | cons s others ih => rw [List.map_cons, deepest_cons, deepest_cons, ih, Member.nesting]

theorem MembersForms.nesting {members : List Member} (h : MembersForms front members) :
    Value.nesting front = deepest Member.nesting members := by
  induction h with
  | compound hcompound => rw [hcompound.nesting, deepest_map_simple]
  | combined hcompound hbetween _ ih =>
    rw [Value.nesting_append, Value.nesting_append, hcompound.nesting, hbetween.nesting, ih,
      deepest_append, deepest_map_simple, deepest_cons, Member.nesting]

theorem ListForms.nesting {selectors : List Selector} (h : ListForms front selectors) :
    Value.nesting front = deepest Selector.nesting selectors := by
  induction h with
  | last hmembers hblanks =>
    rw [Value.nesting_append, hmembers.nesting, nesting_blanks hblanks, deepest_cons, deepest_nil,
      Nat.max_zero, Nat.max_zero]
    rfl
  | comma hmembers hblanks hbehind _ ih =>
    rw [Value.nesting_append, Value.nesting_append, Value.nesting_token, Value.nesting_append,
      hmembers.nesting, nesting_blanks hblanks, nesting_blanks hbehind, ih, deepest_cons,
      Nat.zero_max, Nat.zero_max]
    rfl

/-- Selectors are nested as deep as the values they are read from. -/
theorem nesting_readAll {values : List Value} {selectors : List Selector}
    (h : readAll values = .ok selectors) : Value.nesting values = deepest nesting selectors := by
  obtain ⟨blanks, back, rfl, hblanks, hlist⟩ := forms_of_readAll h
  rw [Value.nesting_append, nesting_blanks hblanks, hlist.nesting, Nat.zero_max]

end Selector

end DeepScope
