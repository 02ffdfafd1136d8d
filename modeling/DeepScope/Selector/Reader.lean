import DeepScope.Outcome
import DeepScope.Selector.Basic
import DeepScope.Selector.Error
import DeepScope.Text.Basic

namespace DeepScope.Selector

/-- Drops the white space that the values begin with. -/
def skipBlanks (values : List Value) : List Value :=
  values.dropWhile Value.isBlank

/-- The type or universal selector that may begin a compound selector. -/
def readHead : List Value → List SimpleSelector × List Value
  | .token (.ident ns) :: .token (.delim '|') :: .token (.ident name) :: rest =>
    ([.type (some ns) name], rest)
  | .token (.delim '*') :: .token (.delim '|') :: .token (.ident name) :: rest =>
    ([.type (some "*") name], rest)
  | .token (.delim '|') :: .token (.ident name) :: rest =>
    ([.type (some "") name], rest)
  | .token (.ident ns) :: .token (.delim '|') :: .token (.delim '*') :: rest =>
    ([.universal (some ns)], rest)
  | .token (.delim '*') :: .token (.delim '|') :: .token (.delim '*') :: rest =>
    ([.universal (some "*")], rest)
  | .token (.delim '|') :: .token (.delim '*') :: rest =>
    ([.universal (some "")], rest)
  | .token (.ident name) :: rest => ([.type none name], rest)
  | .token (.delim '*') :: rest => ([.universal none], rest)
  | values => ([], values)

/-- The namespace that may stand before the name of an attribute. -/
def readAttributeNamespace : List Value → Option String × List Value
  | .token (.ident ns) :: .token (.delim '|') :: .token (.ident name) :: rest =>
    (some ns, .token (.ident name) :: rest)
  | .token (.delim '*') :: .token (.delim '|') :: .token (.ident name) :: rest =>
    (some "*", .token (.ident name) :: rest)
  | .token (.delim '|') :: .token (.ident name) :: rest =>
    (some "", .token (.ident name) :: rest)
  | values => (none, values)

/-- The operator of an attribute selector, behind its first character. -/
def readOperator (c : Char) (values : List Value) : Except SelectorError (String × List Value) :=
  if c = '=' then .ok ("=", values)
  else if c ∈ ['^', '$', '*', '~', '|'] then
    match values with
    | .token (.delim '=') :: rest => .ok (String.ofList [c, '='], rest)
    | _ => .error (.expectedEqualsSign values.head?)
  else .error (.expectedOperator c)

/-- The value that an attribute is compared with. -/
def readAttributeValue (values : List Value) : Except SelectorError (String × List Value) :=
  match skipBlanks values with
  | .token (.ident text) :: rest => .ok (text, skipBlanks rest)
  | .token (.string text) :: rest => .ok (text, skipBlanks rest)
  | rest => .error (.expectedAttributeValue rest.head?)

/-- An attribute selector, from what stands between its brackets. -/
def readAttribute (contents : List Value) : Except SelectorError SimpleSelector :=
  let (ns, afterNamespace) := readAttributeNamespace (skipBlanks contents)
  match afterNamespace with
  | .token (.ident name) :: afterName =>
    match skipBlanks afterName with
    | [] => .ok (.attr ns name none none)
    | .token (.delim c) :: afterChar => do
      let (operator, afterOperator) ← readOperator c afterChar
      let (value, rest) ← readAttributeValue afterOperator
      match rest with
      | [] => return .attr ns name (some operator) (some value)
      | v :: _ => throw (.expectedAttributeEnd v)
    | v :: _ => .error (.unexpectedInAttribute v)
  | _ => .error (.expectedAttributeName afterNamespace.head?)

/-- A pseudo selector, behind its colons. -/
def readPseudo (kind : PseudoKind) :
    List Value → Except SelectorError (SimpleSelector × List Value)
  | .token (.ident name) :: rest => .ok (.pseudo kind name, rest)
  | .function name arguments :: rest => .ok (.functionalPseudo kind name arguments, rest)
  | values => .error (.expectedPseudo values.head?)

/-- One simple selector other than a type or universal selector, if the values
    begin with one. -/
def readSimple : List Value → Except SelectorError (Option (SimpleSelector × List Value))
  | .token (.hash name .id) :: rest => .ok (some (.id name, rest))
  | .token (.hash name .unrestricted) :: _ =>
    .error (.expectedId (some (.token (.hash name .unrestricted))))
  | .token (.delim '.') :: .token (.ident name) :: rest => .ok (some (.className name, rest))
  | .token (.delim '.') :: rest => .error (.expectedClassName rest.head?)
  | .block .openSquare contents :: rest => do
    let selector ← readAttribute contents
    return some (selector, rest)
  | .block opener contents :: _ => .error (.expectedSquareBlock (some (.block opener contents)))
  | .token .colon :: .token .colon :: rest => some <$> readPseudo .pseudoElement rest
  | .token .colon :: rest => some <$> readPseudo .pseudoClass rest
  | _ => .ok none

theorem readPseudo_length_lt {kind : PseudoKind} {values rest : List Value}
    {selector : SimpleSelector} (h : readPseudo kind values = .ok (selector, rest)) :
    rest.length < values.length := by
  unfold readPseudo at h
  split at h
  · cases h
    simp
  · cases h
    simp
  · simp at h

theorem readSimple_length_lt {values rest : List Value} {selector : SimpleSelector}
    (h : readSimple values = .ok (some (selector, rest))) : rest.length < values.length := by
  have hmap : ∀ {kind : PseudoKind} {tail : List Value},
      (some <$> readPseudo kind tail : Except SelectorError _) = .ok (some (selector, rest)) →
      rest.length < tail.length := by
    intro kind tail hread
    cases hp : readPseudo kind tail with
    | error e => simp [hp, Functor.map, Except.map] at hread
    | ok pair =>
      simp only [hp, Functor.map, Except.map, Except.ok.injEq, Option.some.injEq] at hread
      subst hread
      exact readPseudo_length_lt hp
  unfold readSimple at h
  split at h
  · cases h
    simp
  · simp at h
  · cases h
    simp only [List.length_cons]
    omega
  · simp at h
  · obtain ⟨s, hread, hpure⟩ := exists_of_bind_eq_ok h
    cases hpure
    simp
  · simp at h
  · have := hmap h
    simp only [List.length_cons]
    omega
  · have := hmap h
    simp only [List.length_cons]
    omega
  · simp at h

/-- The simple selectors that the values begin with. -/
def readSimples (values : List Value) : Except SelectorError (List SimpleSelector × List Value) :=
  match h : readSimple values with
  | .error e => .error e
  | .ok none => .ok ([], values)
  | .ok (some (selector, rest)) => do
    have : rest.length < values.length := readSimple_length_lt h
    let (selectors, after) ← readSimples rest
    return (selector :: selectors, after)
termination_by values.length

/-- A compound selector: at least one simple selector. -/
def readCompound (values : List Value) :
    Except SelectorError (List SimpleSelector × List Value) := do
  let (head, afterHead) := readHead values
  let (tail, rest) ← readSimples afterHead
  if head.isEmpty && tail.isEmpty then throw (.expectedCompound rest.head?)
  return (head ++ tail, rest)

/-- Whether a combinator, or white space behind a selector, begins here. -/
def startsCombinator : List Value → Bool
  | .token .whitespace :: _ => true
  | .token (.delim c) :: _ => c ∈ ['+', '>', '~', '/']
  | _ => false

/-- A combinator with the white space around it. White space at the end of a
    selector is none. -/
def readCombinator (values : List Value) :
    Except SelectorError (Option Combinator × List Value) :=
  match skipBlanks values with
  | .token (.delim '+') :: rest => .ok (some .nextSibling, skipBlanks rest)
  | .token (.delim '>') :: rest => .ok (some .child, skipBlanks rest)
  | .token (.delim '~') :: rest => .ok (some .laterSibling, skipBlanks rest)
  | .token (.delim '/') :: rest =>
    match rest with
    | .token (.ident name) :: .token (.delim '/') :: after =>
      if asciiLower name = "deep" then .ok (some .deep, skipBlanks after)
      else .error (.expectedDeep (.token (.delim '/') :: rest.take 2))
    | _ => .error (.expectedDeep (.token (.delim '/') :: rest.take 2))
  | [] => .ok (none, [])
  | .token .comma :: rest => .ok (none, .token .comma :: rest)
  | rest => .ok (some .descendant, rest)

theorem skipBlanks_length_le (values : List Value) : (skipBlanks values).length ≤ values.length :=
  (List.dropWhile_sublist Value.isBlank).length_le

/-- Without a type or universal selector nothing is taken. -/
theorem readHead_length (values : List Value) :
    (readHead values).1 = [] ∧ (readHead values).2 = values ∨
      (readHead values).2.length < values.length := by
  unfold readHead
  split
  case h_9 => exact .inl ⟨rfl, rfl⟩
  all_goals
    right
    simp only [List.length_cons]
    omega

theorem readSimples_length {values rest : List Value} {selectors : List SimpleSelector}
    (h : readSimples values = .ok (selectors, rest)) :
    rest.length + selectors.length ≤ values.length := by
  fun_induction readSimples values generalizing selectors rest with
  | case1 => simp at h
  | case2 => simp_all
  | case3 values s tail hread hlt ih =>
    obtain ⟨⟨front, back⟩, hrest, hpure⟩ := exists_of_bind_eq_ok h
    cases hpure
    have := ih hrest
    simp only [List.length_cons]
    omega

theorem readCompound_length_lt {values rest : List Value} {selectors : List SimpleSelector}
    (h : readCompound values = .ok (selectors, rest)) : rest.length < values.length := by
  unfold readCompound at h
  dsimp only at h
  obtain ⟨⟨tail, after⟩, hread, hrest⟩ := exists_of_bind_eq_ok h
  have hlen := readSimples_length hread
  dsimp only at hrest
  split at hrest
  · exact absurd hrest (by simp [bind, Except.bind, throw, throwThe, MonadExceptOf.throw])
  · next hnonempty =>
    cases hrest
    rcases readHead_length values with ⟨hnil, hrest⟩ | hlt
    · rw [hrest] at hlen
      rw [hnil] at hnonempty
      have htail : 0 < tail.length := by
        cases tail with
        | nil => simp at hnonempty
        | cons => simp
      omega
    · omega

theorem readCombinator_length_le {values rest : List Value} {combinator : Option Combinator}
    (h : readCombinator values = .ok (combinator, rest)) : rest.length ≤ values.length := by
  have hskip := skipBlanks_length_le values
  unfold readCombinator at h
  split at h
  case h_4 heq =>
    rw [heq] at hskip
    split at h
    · next name after =>
      split at h
      · cases h
        have := skipBlanks_length_le after
        simp only [List.length_cons] at hskip
        omega
      · simp at h
    · simp at h
  case h_5 =>
    cases h
    simp
  case h_6 heq =>
    cases h
    rwa [heq] at hskip
  case h_7 =>
    cases h
    exact hskip
  all_goals
    next tail heq =>
      cases h
      have := skipBlanks_length_le tail
      rw [heq, List.length_cons] at hskip
      omega

/-- The members of one selector, and what stands behind it. -/
def readMembers (values : List Value) : Except SelectorError (List Member × List Value) :=
  match hcompound : readCompound values with
  | .error e => .error e
  | .ok (compound, rest) =>
    if startsCombinator rest then
      match hcombinator : readCombinator rest with
      | .error e => .error e
      | .ok (none, after) => .ok (compound.map .simple, after)
      | .ok (some combinator, after) => do
        have : after.length < values.length :=
          Nat.lt_of_le_of_lt (readCombinator_length_le hcombinator)
            (readCompound_length_lt hcompound)
        let (others, last) ← readMembers after
        return (compound.map .simple ++ .combinator combinator :: others, last)
    else .ok (compound.map .simple, rest)
termination_by values.length

theorem readMembers_length_lt {values rest : List Value} {members : List Member}
    (h : readMembers values = .ok (members, rest)) : rest.length < values.length := by
  fun_induction readMembers values generalizing members rest with
  | case1 => simp at h
  | case2 => simp at h
  | case3 values _ _ hcompound _ _ hcombinator =>
    cases h
    exact Nat.lt_of_le_of_lt (readCombinator_length_le hcombinator)
      (readCompound_length_lt hcompound)
  | case4 values _ _ hcompound _ _ _ hcombinator hlt ih =>
    obtain ⟨⟨front, back⟩, hrest, hpure⟩ := exists_of_bind_eq_ok h
    cases hpure
    have := ih hrest
    omega
  | case5 values compound after hcompound =>
    cases h
    exact readCompound_length_lt hcompound

/-- A selector and the comma behind it take at least two values. -/
theorem skipBlanks_length_lt_of_readMembers {values rest : List Value} {members : List Member}
    (h : readMembers values = .ok (members, .token .comma :: rest)) :
    (skipBlanks rest).length < values.length := by
  have hlt := readMembers_length_lt h
  have hle := skipBlanks_length_le rest
  simp only [List.length_cons] at hlt
  omega

/-- Selectors separated by commas, up to the end of the values. -/
def readList (values : List Value) : Except SelectorError (List Selector) :=
  match h : readMembers values with
  | .error e => .error e
  | .ok (members, []) => .ok [⟨members⟩]
  | .ok (members, .token .comma :: rest) => do
    have : (skipBlanks rest).length < values.length := skipBlanks_length_lt_of_readMembers h
    let others ← readList (skipBlanks rest)
    return ⟨members⟩ :: others
  | .ok (_, v :: _) => .error (.unexpected v)
termination_by values.length

/-- Reads a list of selectors from all of the values. -/
def readAll (values : List Value) : Except SelectorError (List Selector) :=
  readList (skipBlanks values)

end DeepScope.Selector
