import DeepScope.Selector.Reader

namespace DeepScope

/-- White space, or nothing. -/
def Value.Blanks (values : List Value) : Prop :=
  ∀ v ∈ values, v = .token .whitespace

theorem Value.blanks_nil : Value.Blanks [] :=
  List.forall_mem_nil _

/-- The values of the colons of a pseudo selector. -/
def PseudoKind.values : PseudoKind → List Value
  | pseudoClass => [.token .colon]
  | pseudoElement => [.token .colon, .token .colon]

namespace Selector

/-- The values of a namespace in front of a name. -/
inductive NamespaceForms : List Value → Option String → Prop where
  | none : NamespaceForms [] none
  | empty : NamespaceForms [.token (.delim '|')] (some "")
  | any : NamespaceForms [.token (.delim '*'), .token (.delim '|')] (some "*")
  | named (ns : String) : NamespaceForms [.token (.ident ns), .token (.delim '|')] (some ns)

/-- The values of a type or universal selector, which a compound selector may begin with. -/
inductive HeadForms : List Value → List SimpleSelector → Prop where
  | none : HeadForms [] []
  | type {front : List Value} {ns : Option String} (name : String) : NamespaceForms front ns →
    HeadForms (front ++ [.token (.ident name)]) [.type ns name]
  | universal {front : List Value} {ns : Option String} : NamespaceForms front ns →
    HeadForms (front ++ [.token (.delim '*')]) [.universal ns]

/-- The values of an operator between an attribute and a value. -/
inductive OperatorForms : List Value → String → Prop where
  | equal : OperatorForms [.token (.delim '=')] "="
  | matching {c : Char} : c ∈ ['^', '$', '*', '~', '|'] →
    OperatorForms [.token (.delim c), .token (.delim '=')] (String.ofList [c, '='])

/-- The values of a comparison of an attribute, which may be missing. -/
inductive TestForms : List Value → Option String → Option String → Prop where
  | absent : TestForms [] none none
  | compare {front blanks back : List Value} {operator text : String} {v : Value} :
    OperatorForms front operator → Value.Blanks blanks →
    v = .token (.ident text) ∨ v = .token (.string text) → Value.Blanks back →
    TestForms (front ++ (blanks ++ v :: back)) (some operator) (some text)

/-- What stands between the brackets of an attribute selector. -/
inductive AttributeForms : List Value → SimpleSelector → Prop where
  | attr {blanks front behind test : List Value} {ns : Option String} (name : String)
    {operator value : Option String} :
    Value.Blanks blanks → NamespaceForms front ns → Value.Blanks behind →
    TestForms test operator value →
    AttributeForms (blanks ++ (front ++ .token (.ident name) :: (behind ++ test)))
      (.attr ns name operator value)

/-- The values of a simple selector other than a type or universal selector. -/
inductive SimpleForms : List Value → SimpleSelector → Prop where
  | id (name : String) : SimpleForms [.token (.hash name .id)] (.id name)
  | className (name : String) :
    SimpleForms [.token (.delim '.'), .token (.ident name)] (.className name)
  | attr {contents : List Value} {s : SimpleSelector} : AttributeForms contents s →
    SimpleForms [.block .openSquare contents] s
  | pseudo (kind : PseudoKind) (name : String) :
    SimpleForms (kind.values ++ [.token (.ident name)]) (.pseudo kind name)
  | functionalPseudo (kind : PseudoKind) (name : String) (arguments : List Value) :
    SimpleForms (kind.values ++ [.function name arguments]) (.functionalPseudo kind name arguments)

/-- The sign of a combinator. -/
inductive SignForms : List Value → Combinator → Prop where
  | child : SignForms [.token (.delim '>')] .child
  | nextSibling : SignForms [.token (.delim '+')] .nextSibling
  | laterSibling : SignForms [.token (.delim '~')] .laterSibling
  | deep {name : String} : asciiLower name = "deep" →
    SignForms [.token (.delim '/'), .token (.ident name), .token (.delim '/')] .deep

/-- The values of a combinator: white space, or a sign with white space around it. -/
inductive CombinatorForms : List Value → Combinator → Prop where
  | descendant {blanks : List Value} : Value.Blanks blanks → blanks ≠ [] →
    CombinatorForms blanks .descendant
  | sign {front sign back : List Value} {combinator : Combinator} : Value.Blanks front →
    SignForms sign combinator → Value.Blanks back →
    CombinatorForms (front ++ (sign ++ back)) combinator

/-- Simple selectors in a row. -/
inductive SimplesForms : List Value → List SimpleSelector → Prop where
  | nil : SimplesForms [] []
  | cons {front back : List Value} {s : SimpleSelector} {simples : List SimpleSelector} :
    SimpleForms front s → SimplesForms back simples →
    SimplesForms (front ++ back) (s :: simples)

/-- The values of a compound selector. -/
inductive CompoundForms : List Value → List SimpleSelector → Prop where
  | compound {front back : List Value} {head simples : List SimpleSelector} :
    HeadForms front head → SimplesForms back simples → head ++ simples ≠ [] →
    CompoundForms (front ++ back) (head ++ simples)

/-- The values of the members of a selector: compound selectors, and a
    combinator between each two. -/
inductive MembersForms : List Value → List Member → Prop where
  | compound {front : List Value} {compound : List SimpleSelector} :
    CompoundForms front compound → MembersForms front (compound.map .simple)
  | combined {front between back : List Value} {compound : List SimpleSelector}
    {combinator : Combinator} {members : List Member} :
    CompoundForms front compound → CombinatorForms between combinator →
    MembersForms back members →
    MembersForms (front ++ (between ++ back))
      (compound.map .simple ++ .combinator combinator :: members)

/-- The values of selectors with commas between them, and of the white space
    around the commas and at the end. -/
inductive ListForms : List Value → List Selector → Prop where
  | last {front blanks : List Value} {members : List Member} : MembersForms front members →
    Value.Blanks blanks → ListForms (front ++ blanks) [⟨members⟩]
  | comma {front blanks behind back : List Value} {members : List Member}
    {selectors : List Selector} : MembersForms front members → Value.Blanks blanks →
    Value.Blanks behind → ListForms back selectors →
    ListForms (front ++ (blanks ++ .token .comma :: (behind ++ back))) (⟨members⟩ :: selectors)

/-- The grammar of a list of selectors, which white space may stand around. -/
def GroupForms (values : List Value) (selectors : List Selector) : Prop :=
  ∃ blanks back, values = blanks ++ back ∧ Value.Blanks blanks ∧ ListForms back selectors

variable {values rest : List Value}

section Blanks

theorem skipBlanks_of_not_blank {v : Value} (h : v.isBlank = false) (rest : List Value) :
    skipBlanks (v :: rest) = v :: rest := by
  rw [skipBlanks, List.dropWhile_cons_of_neg (by simp [h])]

theorem skipBlanks_append {blanks : List Value} (h : Value.Blanks blanks) (rest : List Value) :
    skipBlanks (blanks ++ rest) = skipBlanks rest := by
  induction blanks with
  | nil => rfl
  | cons v blanks ih =>
    obtain ⟨rfl, hblanks⟩ := List.forall_mem_cons.1 h
    exact ih hblanks

theorem skipBlanks_blanks {blanks : List Value} (h : Value.Blanks blanks) :
    skipBlanks blanks = [] := by
  have hskip := skipBlanks_append h []
  rwa [List.append_nil] at hskip

/-- What is skipped is white space. -/
theorem exists_blanks (values : List Value) :
    ∃ blanks, Value.Blanks blanks ∧ values = blanks ++ skipBlanks values := by
  refine ⟨values.takeWhile Value.isBlank, fun v hv => ?_, List.takeWhile_append_dropWhile.symm⟩
  have hblank := List.all_eq_true.1 List.all_takeWhile v hv
  unfold Value.isBlank at hblank
  split at hblank
  · rfl
  · cases hblank

/-- No white space is left where it has been skipped. -/
theorem head_skipBlanks {v : Value} (h : skipBlanks values = v :: rest) : v.isBlank = false := by
  have hhead := List.head?_dropWhile_not Value.isBlank values
  rw [← skipBlanks, h] at hhead
  exact hhead

end Blanks

end Selector

end DeepScope
