import DeepScope.Proofs.Selector.Members
import DeepScope.Proofs.Value.Sound
import DeepScope.Selector.Writer

namespace DeepScope

/-- A namespace as reading finds it: none, an empty one, or a name, of which the
    asterisk is one. -/
def IsNamespace : Option String → Prop
  | none => True
  | some ns => ns = "" ∨ IsName ns

/-- The values of a namespace in front of a name. -/
def namespaceValues : Option String → List Value
  | none => []
  | some ns =>
    if ns = "*" then [.token (.delim '*'), .token (.delim '|')]
    else if ns = "" then [.token (.delim '|')]
    else [.token (.ident ns), .token (.delim '|')]

/-- An operator between an attribute and a value. -/
def IsOperator (operator : String) : Prop :=
  operator = "=" ∨ ∃ c ∈ ['^', '$', '*', '~', '|'], operator = String.ofList [c, '=']

/-- The token that an attribute is compared with. -/
def attributeToken (layout : Layout) (value : String) : Token :=
  if layout = .minified && !value.isEmpty && Name.write value.toList = value.toList then .ident value
  else .string value

/-- The values of a combinator with the white space that is written around it. -/
def Combinator.values (layout : Layout) : Combinator → List Value
  | descendant => [.token .whitespace]
  | child => around layout '>'
  | nextSibling => around layout '+'
  | laterSibling => around layout '~'
  | deep => [.token .whitespace, .token (.delim '/'), .token (.ident "deep"), .token (.delim '/'),
      .token .whitespace]
where
  around (layout : Layout) (c : Char) : List Value :=
    match layout with
    | .pretty => [.token .whitespace, .token (.delim c), .token .whitespace]
    | .minified => [.token (.delim c)]

namespace SimpleSelector

/-- The values of a comparison of an attribute, if there is one. -/
def testValues (layout : Layout) : Option String → Option String → List Value
  | some operator, some value =>
    operator.toList.map (fun c => .token (.delim c)) ++ [.token (attributeToken layout value)]
  | _, _ => []

/-- The values of a simple selector. -/
def values (layout : Layout) : SimpleSelector → List Value
  | type ns name => namespaceValues ns ++ [.token (.ident name)]
  | universal ns => namespaceValues ns ++ [.token (.delim '*')]
  | attr ns name operator value =>
    [.block .openSquare
      (namespaceValues ns ++ .token (.ident name) :: testValues layout operator value)]
  | className name => [.token (.delim '.'), .token (.ident name)]
  | id name => [.token (.hash name .id)]
  | pseudo kind name => kind.values ++ [.token (.ident name)]
  | functionalPseudo kind name arguments => kind.values ++ [.function name arguments]

/-- Whether the selector stands first in a compound selector. -/
def isHead : SimpleSelector → Bool
  | type .. | universal _ => true
  | _ => false

/-- A simple selector as reading finds it. -/
def Sound (limit : Option Nat) (depth : Nat) : SimpleSelector → Prop
  | type ns name => IsNamespace ns ∧ IsName name
  | universal ns => IsNamespace ns
  | attr ns name operator value =>
    IsNamespace ns ∧ IsName name ∧ mayNest limit depth = true ∧
      (operator = none ∧ value = none ∨ ∃ op text, operator = some op ∧ value = some text ∧
        IsOperator op ∧ '\x00' ∉ text.toList)
  | className name | id name | pseudo _ name => IsName name
  | functionalPseudo _ name arguments => Value.Sound limit depth [.function name arguments]

end SimpleSelector

/-- The values of a member of a selector. -/
def Member.values (layout : Layout) : Member → List Value
  | simple selector => selector.values layout
  | combinator c => c.values layout

namespace Selector

/-- The values of members in a row. -/
def membersValues (layout : Layout) (members : List Member) : List Value :=
  members.flatMap (Member.values layout)

/-- A compound selector as reading finds it. -/
structure SoundCompound (limit : Option Nat) (depth : Nat) (compound : List SimpleSelector) :
    Prop where
  ne_nil : compound ≠ []
  sound : ∀ s ∈ compound, s.Sound limit depth
  tail : ∀ s ∈ compound.tail, s.isHead = false

/-- Members of a selector as reading finds them: compound selectors, and a
    combinator between each two. -/
inductive SoundMembers (limit : Option Nat) (depth : Nat) : List Member → Prop where
  | compound {compound : List SimpleSelector} :
    SoundCompound limit depth compound → SoundMembers limit depth (compound.map .simple)
  | combined {compound : List SimpleSelector} {combinator : Combinator} {rest : List Member} :
    SoundCompound limit depth compound → SoundMembers limit depth rest →
    SoundMembers limit depth (compound.map .simple ++ .combinator combinator :: rest)

variable {limit : Option Nat} {depth : Nat} (layout : Layout)

theorem values_ne_nil (s : SimpleSelector) : s.values layout ≠ [] := by
  cases s with
  | pseudo kind name => cases kind <;> simp [SimpleSelector.values, PseudoKind.values]
  | functionalPseudo kind name arguments =>
    cases kind <;> simp [SimpleSelector.values, PseudoKind.values]
  | _ => simp [SimpleSelector.values]

theorem forms_namespaceValues (ns : Option String) : NamespaceForms (namespaceValues ns) ns := by
  cases ns with
  | none => exact .none
  | some ns =>
    rw [namespaceValues]
    split
    · next heq =>
      subst heq
      exact .any
    · split
      · next heq =>
        subst heq
        exact .empty
      · exact .named ns

theorem forms_of_isOperator {operator : String} (h : IsOperator operator) :
    OperatorForms (operator.toList.map fun c => .token (.delim c)) operator := by
  rcases h with rfl | ⟨c, hc, rfl⟩
  · exact .equal
  · rw [String.toList_ofList]
    exact .matching hc

theorem attributeToken_eq (text : String) :
    attributeToken layout text = .ident text ∨ attributeToken layout text = .string text := by
  unfold attributeToken
  split
  · exact .inl rfl
  · exact .inr rfl

theorem forms_testValues {operator value : Option String}
    (htest : operator = none ∧ value = none ∨ ∃ op text, operator = some op ∧ value = some text ∧
      IsOperator op ∧ '\x00' ∉ text.toList) :
    TestForms (SimpleSelector.testValues layout operator value) operator value := by
  rcases htest with ⟨rfl, rfl⟩ | ⟨op, text, rfl, rfl, hop, -⟩
  · exact .absent
  · have htoken := (attributeToken_eq layout text).imp (congrArg Value.token) (congrArg Value.token)
    have hform := TestForms.compare (forms_of_isOperator hop) Value.blanks_nil htoken
      Value.blanks_nil
    exact hform

theorem forms_values {s : SimpleSelector} (hsound : s.Sound limit depth)
    (hhead : s.isHead = false) : SimpleForms (s.values layout) s := by
  cases s with
  | type ns name => cases hhead
  | universal ns => cases hhead
  | attr ns name operator value =>
    obtain ⟨-, -, -, htest⟩ := hsound
    have hcontents := AttributeForms.attr name Value.blanks_nil (forms_namespaceValues ns)
      Value.blanks_nil (forms_testValues layout htest)
    exact .attr hcontents
  | className name => exact .className name
  | id name => exact .id name
  | pseudo kind name => exact .pseudo kind name
  | functionalPseudo kind name arguments => exact .functionalPseudo kind name arguments

theorem forms_head_values {s : SimpleSelector} (hhead : s.isHead = true) :
    HeadForms (s.values layout) [s] := by
  cases s with
  | type ns name => exact .type name (forms_namespaceValues ns)
  | universal ns => exact .universal (forms_namespaceValues ns)
  | _ => cases hhead

theorem forms_simples_values {simples : List SimpleSelector}
    (hsound : ∀ s ∈ simples, s.Sound limit depth) (hhead : ∀ s ∈ simples, s.isHead = false) :
    SimplesForms (simples.flatMap (SimpleSelector.values layout)) simples := by
  induction simples with
  | nil => exact .nil
  | cons s simples ih =>
    rw [List.flatMap_cons]
    exact .cons (forms_values layout (hsound s List.mem_cons_self) (hhead s List.mem_cons_self))
      (ih (fun t ht => hsound t (List.mem_cons_of_mem s ht))
        fun t ht => hhead t (List.mem_cons_of_mem s ht))

theorem forms_compound_values {compound : List SimpleSelector}
    (h : SoundCompound limit depth compound) :
    CompoundForms (compound.flatMap (SimpleSelector.values layout)) compound := by
  obtain ⟨s, simples, rfl⟩ := List.exists_cons_of_ne_nil h.ne_nil
  cases hhead : s.isHead with
  | true =>
    have hsimples := forms_simples_values layout
      (fun t ht => h.sound t (List.mem_cons_of_mem s ht)) h.tail
    rw [List.flatMap_cons]
    exact .compound (forms_head_values layout hhead) hsimples h.ne_nil
  | false =>
    have hall := forms_simples_values layout h.sound fun t ht => by
      rcases List.mem_cons.1 ht with rfl | ht
      · exact hhead
      · exact h.tail t ht
    exact .compound .none hall h.ne_nil

theorem forms_combinator_values (combinator : Combinator) :
    CombinatorForms (combinator.values layout) combinator := by
  have hblank : Value.Blanks [.token .whitespace] := List.forall_mem_singleton.2 rfl
  have haround : ∀ (c : Char) (found : Combinator), SignForms [.token (.delim c)] found →
      CombinatorForms (Combinator.values.around layout c) found := by
    intro c found hsign
    cases layout with
    | pretty => exact .sign hblank hsign hblank
    | minified =>
      have hform := CombinatorForms.sign Value.blanks_nil hsign Value.blanks_nil
      exact hform
  cases combinator with
  | descendant => exact .descendant hblank (List.cons_ne_nil _ _)
  | child => exact haround '>' .child .child
  | nextSibling => exact haround '+' .nextSibling .nextSibling
  | laterSibling => exact haround '~' .laterSibling .laterSibling
  | deep => exact .sign hblank (.deep (by decide)) hblank

theorem membersValues_map_simple (compound : List SimpleSelector) :
    membersValues layout (compound.map .simple) =
      compound.flatMap (SimpleSelector.values layout) := by
  rw [membersValues, List.flatMap_map]
  rfl

theorem membersValues_combined (compound : List SimpleSelector) (combinator : Combinator)
    (rest : List Member) :
    membersValues layout (compound.map .simple ++ .combinator combinator :: rest) =
      compound.flatMap (SimpleSelector.values layout) ++
        (combinator.values layout ++ membersValues layout rest) := by
  rw [← membersValues_map_simple]
  simp [membersValues, Member.values]

theorem forms_members_values {members : List Member} (h : SoundMembers limit depth members) :
    MembersForms (membersValues layout members) members := by
  induction h with
  | compound hcompound =>
    rw [membersValues_map_simple]
    exact .compound (forms_compound_values layout hcompound)
  | @combined compound combinator members hcompound _ ih =>
    rw [membersValues_combined]
    exact .combined (forms_compound_values layout hcompound)
      (forms_combinator_values layout combinator) ih

theorem beginsCompound_members {members : List Member} (h : SoundMembers limit depth members) :
    beginsCompound (membersValues layout members) = true := by
  have hbegins := (forms_members_values layout h).beginsCompound []
  rwa [List.append_nil] at hbegins

/-- The values of selectors with commas between them. -/
def listValues (layout : Layout) : List Selector → List Value
  | [] => []
  | [selector] => membersValues layout selector.members
  | selector :: rest =>
    membersValues layout selector.members ++ .token .comma :: listValues layout rest

theorem forms_listValues {selectors : List Selector} (hne : selectors ≠ [])
    (h : ∀ s ∈ selectors, SoundMembers limit depth s.members) :
    ListForms (listValues layout selectors) selectors := by
  induction selectors with
  | nil => exact absurd rfl hne
  | cons selector rest ih =>
    have hmembers := forms_members_values layout (h selector List.mem_cons_self)
    cases rest with
    | nil =>
      have hform := ListForms.last hmembers Value.blanks_nil
      rwa [List.append_nil] at hform
    | cons next rest =>
      have hrest := ih (by simp) fun s hs => h s (List.mem_cons_of_mem selector hs)
      have hform := ListForms.comma hmembers Value.blanks_nil Value.blanks_nil hrest
      exact hform

theorem beginsCompound_listValues {selectors : List Selector} (hne : selectors ≠ [])
    (h : ∀ s ∈ selectors, SoundMembers limit depth s.members) :
    beginsCompound (listValues layout selectors) = true :=
  (forms_listValues layout hne h).beginsCompound

/-- Reading the values of selectors gives the selectors back. -/
theorem readAll_listValues {selectors : List Selector} (hne : selectors ≠ [])
    (h : ∀ s ∈ selectors, SoundMembers limit depth s.members) :
    readAll (listValues layout selectors) = .ok selectors :=
  readAll_of_forms ⟨[], _, rfl, Value.blanks_nil, forms_listValues layout hne h⟩

end Selector

end DeepScope
