import DeepScope.Proofs.Selector.Values
import DeepScope.Proofs.Value.Abut

namespace DeepScope

/-- Whether nothing in the selector could be read as the mark of an old comment:
    a name of two hyphens with what is written behind it, or an argument. -/
def SimpleSelector.isUnmarked : SimpleSelector → Bool
  | type _ name | className name | pseudo _ name => name ≠ "--"
  | functionalPseudo _ _ arguments => Value.isUnmarked arguments
  | _ => true

def Member.isUnmarked : Member → Bool
  | simple selector => selector.isUnmarked
  | combinator _ => true

def Selector.isUnmarked (selector : Selector) : Bool :=
  selector.members.all Member.isUnmarked

namespace Value

/-- Whether a simple selector can end with the value. -/
def endsSimple : Value → Bool
  | .token (.ident name) => name ≠ "--"
  | .token (.delim c) => c = '*'
  | .token (.hash _ .id) | .block .openSquare _ | .function .. => true
  | _ => false

/-- Whether the value can stand behind a simple selector. -/
def followsSimple : Value → Bool
  | .token (.delim c) => c ∈ ['.', '>', '+', '~']
  | .token (.hash _ .id) | .token .colon | .token .whitespace | .block .openSquare _ => true
  | _ => false

theorem abut_of_endsSimple {a b : Value} (ha : a.endsSimple = true) (hb : b.followsSimple = true) :
    Abut a b := by
  have hplain : a.isBlank = false ∧ a.isComma = false ∧ a ≠ .token (.delim '<') ∧
      a ≠ .token (.ident "--") := by
    unfold endsSimple at ha
    split at ha <;> simp_all [isBlank, isComma]
  obtain ⟨hblank, hcomma, hmark, hdashes⟩ := hplain
  refine .of_plain hblank hcomma hmark (fun h => absurd h hdashes) ?_
  have hnext : b.head.beginsName = false ∧ b.head.beginsNumber = false ∧ b.head ≠ .delim '-' ∧
      b.head ≠ .commentClose ∧ b.head ≠ .openParen := by
    cases b with
    | token t =>
      cases t with
      | delim c =>
        have hc : c ∈ ['.', '>', '+', '~'] := of_decide_eq_true hb
        simp only [List.mem_cons, List.not_mem_nil, or_false] at hc
        rcases hc with rfl | rfl | rfl | rfl <;> decide
      | hash name kind => exact ⟨rfl, rfl, by simp [head], by simp [head], by simp [head]⟩
      | colon | whitespace => decide
      | _ => cases hb
    | block opener contents =>
      cases opener with
      | openSquare => exact ⟨rfl, rfl, by simp [head], by simp [head], by simp [head]⟩
      | _ => cases hb
    | function name arguments => cases hb
  obtain ⟨hname, hnumber, hdash, hclose, hparen⟩ := hnext
  unfold endsSimple at ha
  split at ha
  · simp [last, Token.mayMerge, hname, hnumber, hdash, hclose, hparen]
  · obtain rfl := of_decide_eq_true ha
    rfl
  · simp [last, Token.mayMerge, hname, hnumber, hdash, hclose]
  · rfl
  · rfl
  · cases ha

/-- Nothing is needed behind white space or a combinator. -/
theorem abut_of_beginsCompound {a b : Value} {rest : List Value}
    (ha : a = .token .whitespace ∨ ∃ c ∈ ['>', '+', '~'], a = .token (.delim c))
    (hb : Selector.beginsCompound (b :: rest) = true) : Abut a b := by
  obtain ⟨hblank, hcomma⟩ := Selector.isBlank_of_beginsCompound hb
  rcases ha with rfl | ⟨c, hc, rfl⟩
  · exact .of_blank hblank hcomma
  · have hnumber : b.head.beginsNumber = false := by
      unfold Selector.beginsCompound at hb
      split at hb <;> simp_all [head, Token.beginsNumber]
    simp only [List.mem_cons, List.not_mem_nil, or_false] at hc
    refine .of_plain rfl rfl ?_ (by simp) ?_ <;> rcases hc with rfl | rfl | rfl <;>
      simp [last, Token.mayMerge, hnumber]

end Value

open Value (Abut)

section Chain

variable (layout : Layout)

theorem chain_namespaceValues (ns : Option String) {v : Value} {rest : List Value}
    (h : List.IsChain Abut (v :: rest)) : List.IsChain Abut (namespaceValues ns ++ v :: rest) := by
  have hbar : List.IsChain Abut (.token (.delim '|') :: v :: rest) :=
    .cons_cons (.of_plain rfl rfl (by decide) (by simp) rfl) h
  cases ns with
  | none => exact h
  | some ns =>
    rw [namespaceValues]
    split
    · exact .cons_cons (.of_plain rfl rfl (by decide) (by simp) rfl) hbar
    · split
      · exact hbar
      · exact .cons_cons (.of_plain rfl rfl (by simp) (fun _ => by decide) rfl) hbar

theorem chain_testValues (name : String) {operator value : Option String}
    (htest : operator = none ∧ value = none ∨ ∃ op text, operator = some op ∧ value = some text ∧
      IsOperator op ∧ '\x00' ∉ text.toList) :
    List.IsChain Abut (.token (.ident name) ::
      SimpleSelector.testValues layout operator value) := by
  rcases htest with ⟨rfl, rfl⟩ | ⟨op, text, rfl, rfl, hop, -⟩
  · exact .singleton _
  · have hequals : ∀ v, Abut (.token (.delim '=')) v :=
      fun v => .of_plain rfl rfl (by decide) (by simp) rfl
    rcases hop with rfl | ⟨c, hc, rfl⟩
    · exact .cons_cons (.of_plain rfl rfl (by simp) (fun _ => by decide) rfl)
        (.cons_cons (hequals _) (.singleton _))
    · rw [SimpleSelector.testValues, String.toList_ofList]
      simp only [List.mem_cons, List.not_mem_nil, or_false] at hc
      refine .cons_cons (.of_plain rfl rfl (by simp) (fun _ => ?_) ?_)
        (.cons_cons (.of_plain rfl rfl ?_ (by simp) ?_) (.cons_cons (hequals _) (.singleton _)))
      all_goals rcases hc with rfl | rfl | rfl | rfl | rfl <;> first | decide | rfl

namespace SimpleSelector

theorem chain_values {s : SimpleSelector} (hunmarked : s.isUnmarked = true) :
    List.IsChain Abut (s.values layout) ∧ ∀ v ∈ (s.values layout).getLast?, v.endsSimple = true := by
  have hcolon : ∀ v, Abut (.token .colon) v := fun v => .of_plain rfl rfl (by simp) (by simp) rfl
  have hkind : ∀ (kind : PseudoKind) (v : Value), v.endsSimple = true →
      List.IsChain Abut (kind.values ++ [v]) ∧ ∀ w ∈ (kind.values ++ [v]).getLast?, w.endsSimple = true := by
    intro kind v hv
    refine ⟨?_, by simpa using hv⟩
    cases kind with
    | pseudoClass => exact .cons_cons (hcolon _) (.singleton _)
    | pseudoElement => exact .cons_cons (hcolon _) (.cons_cons (hcolon _) (.singleton _))
  cases s with
  | type ns name =>
    refine ⟨chain_namespaceValues ns (.singleton _), fun v hv => ?_⟩
    rw [values, List.getLast?_concat] at hv
    cases hv
    exact hunmarked
  | universal ns => exact ⟨chain_namespaceValues ns (.singleton _), by simp [values, Value.endsSimple]⟩
  | attr ns name operator value => exact ⟨.singleton _, by simp [values, Value.endsSimple]⟩
  | className name =>
    refine ⟨.cons_cons (.of_plain rfl rfl (by decide) (by simp) rfl) (.singleton _), fun v hv => ?_⟩
    cases hv
    exact hunmarked
  | id name => exact ⟨.singleton _, by simp [values, Value.endsSimple]⟩
  | pseudo kind name => exact hkind kind _ hunmarked
  | functionalPseudo kind name arguments => exact hkind kind _ rfl

theorem followsSimple_head {s : SimpleSelector} (hhead : s.isHead = false) :
    ∀ v ∈ (s.values layout).head?, v.followsSimple = true := by
  intro v hv
  cases s with
  | type ns name => cases hhead
  | universal ns => cases hhead
  | pseudo kind name => cases kind <;> cases hv <;> rfl
  | functionalPseudo kind name arguments => cases kind <;> cases hv <;> rfl
  | _ => cases hv; rfl

end SimpleSelector

namespace Selector

variable {limit : Option Nat} {depth : Nat}

theorem chain_compound {compound : List SimpleSelector}
    (hunmarked : ∀ s ∈ compound, s.isUnmarked = true)
    (htail : ∀ s ∈ compound.tail, s.isHead = false) :
    List.IsChain Abut (compound.flatMap (SimpleSelector.values layout)) ∧
      ∀ v ∈ (compound.flatMap (SimpleSelector.values layout)).getLast?, v.endsSimple = true := by
  induction compound with
  | nil => exact ⟨.nil, by simp⟩
  | cons s rest ih =>
    obtain ⟨hchain, hlast⟩ := SimpleSelector.chain_values layout
      (hunmarked s List.mem_cons_self)
    obtain ⟨hrest, hrestLast⟩ := ih (fun t ht => hunmarked t (List.mem_cons_of_mem s ht))
      fun t ht => htail t (List.mem_of_mem_tail ht)
    rw [List.flatMap_cons]
    refine ⟨hchain.append hrest fun a ha b hb => ?_, fun v hv => ?_⟩
    · refine Value.abut_of_endsSimple (hlast a ha) ?_
      cases rest with
      | nil => cases hb
      | cons t rest =>
        refine SimpleSelector.followsSimple_head layout (htail t List.mem_cons_self) b ?_
        rw [List.flatMap_cons, List.head?_append] at hb
        cases hcases : (t.values layout).head? with
        | none =>
          exact absurd (List.head?_eq_none_iff.1 hcases) (values_ne_nil layout t)
        | some w => rwa [hcases] at hb
    · rw [List.getLast?_append] at hv
      cases hcases : (rest.flatMap (SimpleSelector.values layout)).getLast? with
      | none =>
        rw [hcases] at hv
        exact hlast v hv
      | some w =>
        rw [hcases] at hv
        cases hv
        exact hrestLast _ hcases

theorem chain_combinator (combinator : Combinator) {values : List Value}
    (hbegins : beginsCompound values = true) (h : List.IsChain Abut values) :
    List.IsChain Abut (combinator.values layout ++ values) ∧
      ∀ v ∈ (combinator.values layout ++ values).head?, v.followsSimple = true := by
  cases values with
  | nil => cases hbegins
  | cons b rest =>
    have hblank : List.IsChain Abut (.token .whitespace :: b :: rest) :=
      .cons_cons (Value.abut_of_beginsCompound (.inl rfl) hbegins) h
    have haround : ∀ c ∈ ['>', '+', '~'],
        List.IsChain Abut (Combinator.values.around layout c ++ b :: rest) ∧
          ∀ v ∈ (Combinator.values.around layout c ++ b :: rest).head?, v.followsSimple = true := by
      intro c hc
      have hmark : (Value.token (.delim c)) ≠ .token (.delim '<') := by
        rintro ⟨⟩
        simp at hc
      cases layout with
      | pretty =>
        refine ⟨.cons_cons (.of_blank rfl rfl) (.cons_cons (.to_blank rfl rfl hmark) hblank), ?_⟩
        rintro v ⟨⟩
        rfl
      | minified =>
        refine ⟨.cons_cons (Value.abut_of_beginsCompound (.inr ⟨c, hc, rfl⟩) hbegins) h, ?_⟩
        rintro v ⟨⟩
        exact decide_eq_true (List.mem_cons_of_mem '.' hc)
    cases combinator with
    | descendant =>
      refine ⟨hblank, ?_⟩
      rintro v ⟨⟩
      rfl
    | child => exact haround '>' (by simp)
    | nextSibling => exact haround '+' (by simp)
    | laterSibling => exact haround '~' (by simp)
    | deep =>
      refine ⟨?_, by rintro v ⟨⟩; rfl⟩
      refine .cons_cons (.of_blank rfl rfl) (.cons_cons ?_ (.cons_cons ?_ (.cons_cons ?_ hblank)))
      · exact .of_plain rfl rfl (by decide) (by simp) rfl
      · exact .of_plain rfl rfl (by simp) (by decide) rfl
      · exact .to_blank rfl rfl (by decide)

theorem chain_membersValues {members : List Member} (h : SoundMembers limit depth members)
    (hunmarked : ∀ m ∈ members, m.isUnmarked = true) :
    List.IsChain Abut (membersValues layout members) ∧
      ∀ v ∈ (membersValues layout members).getLast?, v.endsSimple = true := by
  induction h with
  | compound hcompound =>
    rw [membersValues_map_simple]
    exact chain_compound layout (fun s hs => hunmarked _ (List.mem_map_of_mem hs)) hcompound.tail
  | @combined compound combinator rest hcompound hrest ih =>
    rw [membersValues_combined]
    obtain ⟨hchain, hlast⟩ := @chain_compound layout compound
      (fun s hs => hunmarked _ (List.mem_append_left _ (List.mem_map_of_mem hs))) hcompound.tail
    obtain ⟨hrestChain, hrestLast⟩ := ih fun m hm =>
      hunmarked m (List.mem_append_right _ (List.mem_cons_of_mem _ hm))
    have hbegins := beginsCompound_members layout hrest
    obtain ⟨hcombinator, hhead⟩ := chain_combinator layout combinator hbegins hrestChain
    refine ⟨hchain.append hcombinator fun a ha b hb =>
      Value.abut_of_endsSimple (hlast a ha) (hhead b hb), fun v hv => hrestLast v ?_⟩
    have hne : membersValues layout rest ≠ [] := by
      intro hnil
      rw [hnil] at hbegins
      cases hbegins
    rw [List.getLast?_append, List.getLast?_append] at hv
    rw [List.getLast?_eq_some_getLast hne] at hv ⊢
    exact hv

end Selector

end Chain

section Neat

variable {limit : Option Nat} {depth : Nat} (layout : Layout)

theorem neat_token {t : Token} (hlegible : t.Legible) (hclose : t ≠ .commentClose)
    (hopens : t.opens = false) (hcloses : t.closes = false) (hend : t ≠ .eof) :
    Value.Neat limit depth [.token t] :=
  .token ⟨hlegible, hclose⟩ hopens hcloses hend .nil

theorem neat_ident {name : String} (h : IsName name) : Value.Neat limit depth [.token (.ident name)] :=
  neat_token h (by simp) rfl rfl (by simp)

theorem neat_delim {c : Char} (h : IsDelim c) : Value.Neat limit depth [.token (.delim c)] :=
  neat_token h (by simp) rfl rfl (by simp)

theorem neat_namespaceValues {ns : Option String} (h : IsNamespace ns) :
    Value.Neat limit depth (namespaceValues ns) := by
  have hbar : Value.Neat limit depth [.token (.delim '|')] := neat_delim (by decide)
  cases ns with
  | none => exact .nil
  | some ns =>
    rw [namespaceValues]
    split
    · exact (neat_delim (by decide)).append hbar
    · split
      · exact hbar
      · next hne => exact (neat_ident (h.resolve_left hne)).append hbar

theorem legible_attributeToken {text : String} (h : '\x00' ∉ text.toList) :
    (attributeToken layout text).Legible := by
  unfold attributeToken
  split
  · next hplain =>
    simp only [Bool.and_eq_true, Bool.not_eq_true', decide_eq_true_eq] at hplain
    refine ⟨fun hnil => ?_, h⟩
    rw [String.toList_eq_nil_iff.1 hnil] at hplain
    cases hplain.1.2
  · exact h

theorem neat_attributeToken {text : String} (h : '\x00' ∉ text.toList) :
    Value.Neat limit depth [.token (attributeToken layout text)] := by
  have hlegible := legible_attributeToken layout h
  unfold attributeToken at hlegible ⊢
  split at hlegible
  · next hplain =>
    rw [if_pos hplain]
    exact neat_token hlegible (by simp) rfl rfl (by simp)
  · next hplain =>
    rw [if_neg hplain]
    exact neat_token hlegible (by simp) rfl rfl (by simp)

theorem neat_testValues {operator value : Option String}
    (htest : operator = none ∧ value = none ∨ ∃ op text, operator = some op ∧ value = some text ∧
      IsOperator op ∧ '\x00' ∉ text.toList) :
    Value.Neat limit depth (SimpleSelector.testValues layout operator value) := by
  rcases htest with ⟨rfl, rfl⟩ | ⟨op, text, rfl, rfl, hop, htext⟩
  · exact .nil
  · refine Value.Consists.append ?_ (neat_attributeToken layout htext)
    have hequals : Value.Neat limit depth [.token (.delim '=')] := neat_delim (by decide)
    rcases hop with rfl | ⟨c, hc, rfl⟩
    · exact hequals
    · rw [String.toList_ofList]
      refine (neat_delim ?_).append hequals
      simp only [List.mem_cons, List.not_mem_nil, or_false] at hc
      rcases hc with rfl | rfl | rfl | rfl | rfl <;> decide

theorem getLast_attribute (ns : Option String) (name : String) (operator value : Option String) :
    ∀ v ∈ (namespaceValues ns ++
        .token (.ident name) :: SimpleSelector.testValues layout operator value).getLast?,
      v.isBlank = false ∧ v.isComma = false := by
  intro v hv
  rw [List.getLast?_append, List.getLast?_cons, Option.some_or, ← List.getLast?_cons] at hv
  unfold SimpleSelector.testValues at hv
  split at hv
  · rw [← List.cons_append, List.getLast?_concat] at hv
    cases hv
    unfold attributeToken
    split <;> exact ⟨rfl, rfl⟩
  · cases hv
    exact ⟨rfl, rfl⟩

/-- The contents of an attribute selector. -/
theorem tidy_attribute (ns : Option String) (name : String) {operator value : Option String}
    (htest : operator = none ∧ value = none ∨ ∃ op text, operator = some op ∧ value = some text ∧
      IsOperator op ∧ '\x00' ∉ text.toList) :
    List.IsChain Abut (namespaceValues ns ++
        .token (.ident name) :: SimpleSelector.testValues layout operator value) ∧
      Value.Tidy (namespaceValues ns ++
        .token (.ident name) :: SimpleSelector.testValues layout operator value) := by
  have hchain := chain_namespaceValues ns (chain_testValues layout name htest)
  refine ⟨hchain, Value.tidy_of_abut hchain ?_ fun v hv =>
    (getLast_attribute layout ns name operator value v hv).1⟩
  cases ns with
  | none => simp [namespaceValues, Value.isBlank]
  | some ns =>
    rw [namespaceValues]
    split
    · simp [Value.isBlank]
    · split <;> simp [Value.isBlank]

theorem SimpleSelector.neat {s : SimpleSelector} (h : s.Sound limit depth)
    (hunmarked : s.isUnmarked = true) : Value.Neat limit depth (s.values layout) := by
  have hkind : ∀ kind : PseudoKind, Value.Neat limit depth kind.values := by
    have hcolon : Value.Neat limit depth [.token .colon] :=
      neat_token trivial (by simp) rfl rfl (by simp)
    intro kind
    cases kind with
    | pseudoClass => exact hcolon
    | pseudoElement => exact hcolon.append hcolon
  cases s with
  | type ns name => exact (neat_namespaceValues h.1).append (neat_ident h.2)
  | universal ns => exact (neat_namespaceValues h).append (neat_delim (by decide))
  | attr ns name operator value =>
    obtain ⟨hns, hname, hnest, htest⟩ := h
    obtain ⟨hchain, htidy⟩ := tidy_attribute layout ns name htest
    refine @Value.Consists.nested _ _ _ _ .openSquare _ _ ⟨trivial, by simp⟩ rfl nofun hnest
      ⟨htidy, Value.spaced_of_abut hchain⟩ ?_ .nil
    exact (neat_namespaceValues hns).append ((neat_ident hname).append (neat_testValues layout htest))
  | className name => exact (neat_delim (by decide)).append (neat_ident h)
  | id name => exact neat_token h (by simp) rfl rfl (by simp)
  | pseudo kind name => exact (hkind kind).append (neat_ident h)
  | functionalPseudo kind name arguments =>
    have hmarks : Value.isUnmarked arguments = true := hunmarked
    exact (hkind kind).append (Value.Sound.neat h (by simpa [Value.isUnmarked] using hmarks))

theorem Combinator.neat (combinator : Combinator) :
    Value.Neat limit depth (combinator.values layout) := by
  have hblank : Value.Neat limit depth [.token .whitespace] :=
    neat_token trivial (by simp) rfl rfl (by simp)
  have haround : ∀ c, IsDelim c → Value.Neat limit depth (values.around layout c) := by
    intro c hc
    cases layout with
    | pretty => exact hblank.append ((neat_delim hc).append hblank)
    | minified => exact neat_delim hc
  cases combinator with
  | descendant => exact hblank
  | child => exact haround '>' (by decide)
  | nextSibling => exact haround '+' (by decide)
  | laterSibling => exact haround '~' (by decide)
  | deep =>
    have hslash : Value.Neat limit depth [.token (.delim '/')] := neat_delim (by decide)
    exact hblank.append (hslash.append ((neat_ident (by decide)).append (hslash.append hblank)))

theorem Selector.neat_membersValues {members : List Member} (h : SoundMembers limit depth members)
    (hunmarked : ∀ m ∈ members, m.isUnmarked = true) :
    Value.Neat limit depth (membersValues layout members) := by
  have hcompound : ∀ {compound : List SimpleSelector}, SoundCompound limit depth compound →
      (∀ s ∈ compound, s.isUnmarked = true) →
      Value.Neat limit depth (compound.flatMap (SimpleSelector.values layout)) := by
    intro compound hsound hmarks
    refine .of_forall fun v hv => ?_
    obtain ⟨s, hs, hv⟩ := List.mem_flatMap.1 hv
    exact (SimpleSelector.neat layout (hsound.sound s hs) (hmarks s hs)).singleton v hv
  induction h with
  | compound hsound =>
    rw [membersValues_map_simple]
    exact hcompound hsound fun s hs => hunmarked _ (List.mem_map_of_mem hs)
  | combined hsound _ ih =>
    rw [membersValues_combined]
    refine (hcompound hsound fun s hs => ?_).append ((Combinator.neat layout _).append (ih ?_))
    · exact hunmarked _ (List.mem_append_left _ (List.mem_map_of_mem hs))
    · exact fun m hm => hunmarked m (List.mem_append_right _ (List.mem_cons_of_mem _ hm))

end Neat

section Pieces

variable (layout : Layout)

theorem Layout.values_openSquare {contents : List Value}
    (hlast : ∀ v ∈ contents.getLast?, v.isComma = false) :
    layout.values [.block .openSquare contents] =
      .token .openSquare :: (layout.values contents ++ [.token .closeSquare]) := by
  have hclose : ∀ t : Token, t.mayMerge .closeSquare = false := by
    intro t
    unfold Token.mayMerge
    split <;> rfl
  have hflat : Value.flatten [.block .openSquare contents] =
      [.openSquare] ++ (Value.flatten contents ++ [.closeSquare]) := by
    simp [Value.flatten, Token.closer]
  rw [Layout.values, hflat, Layout.tokens_append, Layout.tokens_append]
  · rfl
  · intro a ha b hb
    cases hb
    refine Layout.between_eq_nil ?_ (hclose a)
    rcases List.eq_nil_or_concat' contents with rfl | ⟨front, v, rfl⟩
    · rw [Value.flatten] at ha
      cases ha
    · rw [Value.getLast_flatten_concat] at ha
      cases ha
      exact Value.last_ne_comma (hlast v (by simp))
  · intro a ha b _
    cases ha
    exact Layout.between_eq_nil (by simp) rfl

/-- The text of values without what is written between them. -/
def plainText (values : List Value) : List Char :=
  Piece.charsAll (values.flatMap fun v => layout.values [v])

theorem plainText_append (front back : List Value) :
    plainText layout (front ++ back) = plainText layout front ++ plainText layout back := by
  simp [plainText]

theorem plainText_token (t : Token) (rest : List Value) :
    plainText layout (.token t :: rest) = t.chars ++ plainText layout rest := by
  simp [plainText, Layout.values_token]

theorem charsAll_namespacePieces (ns : Option String) :
    Piece.charsAll (namespacePieces ns) = plainText layout (namespaceValues ns) := by
  cases ns with
  | none => rfl
  | some ns =>
    rw [namespacePieces, namespaceValues]
    split
    · simp [plainText, Layout.values_token]
    · split
      · next heq =>
        rw [heq]
        simp [plainText, Layout.values_token, Token.chars, Name.write]
      · simp [plainText, Layout.values_token]

theorem charsAll_kind (kind : PseudoKind) :
    Piece.charsAll kind.pieces = plainText layout kind.values := by
  cases kind <;> simp [PseudoKind.pieces, PseudoKind.values, plainText, Layout.values_token]

theorem plainText_eq {values : List Value} (h : List.IsChain Abut values) :
    Piece.charsAll (layout.values values) = plainText layout values := by
  rw [Layout.values_of_abut h]
  rfl

theorem attributeValuePiece_eq (value : String) :
    attributeValuePiece layout value = .token (attributeToken layout value) := by
  unfold attributeValuePiece attributeToken
  split <;> rfl

theorem plainText_delims (cs : List Char) :
    plainText layout (cs.map fun c => .token (.delim c)) =
      Piece.charsAll (cs.map fun c => .token (.delim c)) := by
  induction cs with
  | nil => rfl
  | cons c cs ih => rw [List.map_cons, List.map_cons, plainText_token, Piece.charsAll_token, ih]

theorem SimpleSelector.charsAll_pieces {limit : Option Nat} {depth : Nat} {s : SimpleSelector}
    (h : s.Sound limit depth) :
    Piece.charsAll (s.pieces layout) = plainText layout (s.values layout) := by
  cases s with
  | type ns name =>
    rw [pieces, values, Piece.charsAll_append, plainText_append, charsAll_namespacePieces layout]
    simp [plainText, Layout.values_token]
  | universal ns =>
    rw [pieces, values, Piece.charsAll_append, plainText_append, charsAll_namespacePieces layout]
    simp [plainText, Layout.values_token]
  | attr ns name operator value =>
    obtain ⟨-, -, -, htest⟩ := h
    obtain ⟨hchain, -⟩ := tidy_attribute layout ns name htest
    have hblock : plainText layout (values layout (attr ns name operator value)) =
        '[' :: (plainText layout (namespaceValues ns) ++ ((Token.ident name).chars ++
          (plainText layout (testValues layout operator value) ++ [']']))) := by
      rw [values, plainText, List.flatMap_singleton, Layout.values_openSquare layout fun v hv =>
        (getLast_attribute layout ns name operator value v hv).2, Piece.charsAll_token,
        Piece.charsAll_append, plainText_eq layout hchain, plainText_append, plainText_token]
      simp [Token.chars]
    rcases htest with ⟨rfl, rfl⟩ | ⟨op, text, rfl, rfl, -, -⟩
    · rw [hblock]
      simp [pieces, testValues, plainText, charsAll_namespacePieces layout, Token.chars]
    · rw [hblock, testValues, plainText_append, plainText_delims, plainText_token]
      simp [pieces, attributeValuePiece_eq, charsAll_namespacePieces layout, plainText, Token.chars]
  | className name => simp [pieces, values, plainText, Layout.values_token]
  | id name => simp [pieces, values, plainText, Layout.values_token]
  | pseudo kind name =>
    rw [pieces, values, Piece.charsAll_append, plainText_append, charsAll_kind layout]
    simp [plainText, Layout.values_token]
  | functionalPseudo kind name arguments =>
    rw [pieces, values, Piece.charsAll_append, plainText_append, charsAll_kind layout]
    simp [plainText]

theorem Combinator.charsAll_pieces (combinator : Combinator) :
    Piece.charsAll (combinator.pieces layout) = plainText layout (combinator.values layout) := by
  cases combinator <;> cases layout <;>
    simp [pieces, values, values.around, plainText, Layout.values_token, Layout.space,
      Layout.onlyPretty] <;> rfl

namespace Selector

variable {limit : Option Nat} {depth : Nat}

theorem SoundMembers.sound {members : List Member} (h : SoundMembers limit depth members) :
    ∀ s, .simple s ∈ members → s.Sound limit depth := by
  have hcompound : ∀ {compound : List SimpleSelector}, SoundCompound limit depth compound →
      ∀ s, Member.simple s ∈ compound.map .simple → s.Sound limit depth := by
    intro compound hsound s hs
    obtain ⟨t, ht, heq⟩ := List.mem_map.1 hs
    cases heq
    exact hsound.sound _ ht
  induction h with
  | compound hsound => exact hcompound hsound
  | combined hsound _ ih =>
    intro s hs
    rcases List.mem_append.1 hs with hs | hs
    · exact hcompound hsound s hs
    · rcases List.mem_cons.1 hs with heq | hs
      · cases heq
      · exact ih s hs

theorem charsAll_members {members : List Member}
    (h : ∀ s, .simple s ∈ members → s.Sound limit depth) :
    Piece.charsAll (members.flatMap (Member.pieces layout)) =
      plainText layout (membersValues layout members) := by
  induction members with
  | nil => rfl
  | cons m rest ih =>
    have hm : Piece.charsAll (m.pieces layout) = plainText layout (m.values layout) := by
      cases m with
      | simple s => exact s.charsAll_pieces layout (h s List.mem_cons_self)
      | combinator c => exact c.charsAll_pieces layout
    have hrest := ih fun s hs => h s (List.mem_cons_of_mem m hs)
    rw [List.flatMap_cons, Piece.charsAll_append, hm, hrest, ← plainText_append]
    rfl

theorem tidy_membersValues {members : List Member} (h : SoundMembers limit depth members)
    (hunmarked : ∀ m ∈ members, m.isUnmarked = true) :
    Value.Tidy (membersValues layout members) := by
  obtain ⟨hchain, hlast⟩ := chain_membersValues layout h hunmarked
  refine Value.tidy_of_abut hchain (fun v hv => ?_) fun v hv => ?_
  · obtain ⟨rest, hrest⟩ := List.head?_eq_some_iff.1 hv
    have hbegins := beginsCompound_members layout h
    rw [hrest] at hbegins
    exact (isBlank_of_beginsCompound hbegins).1
  · have hsimple := hlast v hv
    unfold Value.endsSimple at hsimple
    split at hsimple <;> first | rfl | cases hsimple

/-- Selectors with commas between them can be written. -/
theorem neat_listValues {selectors : List Selector}
    (h : ∀ s ∈ selectors, SoundMembers limit depth s.members)
    (hunmarked : ∀ s ∈ selectors, s.isUnmarked = true) :
    Value.Neat limit depth (listValues layout selectors) ∧
      Value.Tidy (listValues layout selectors) := by
  fun_induction listValues layout selectors with
  | case1 => exact ⟨.nil, Value.tidy_nil⟩
  | case2 selector =>
    have hmarks := List.all_eq_true.1 (hunmarked selector List.mem_cons_self)
    have hsound := h selector List.mem_cons_self
    exact ⟨neat_membersValues layout hsound hmarks, tidy_membersValues layout hsound hmarks⟩
  | case3 selector rest _ ih =>
    have hmarks := List.all_eq_true.1 (hunmarked selector List.mem_cons_self)
    have hsound := h selector List.mem_cons_self
    obtain ⟨hneat, htidy⟩ := ih (fun s hs => h s (List.mem_cons_of_mem selector hs))
      fun s hs => hunmarked s (List.mem_cons_of_mem selector hs)
    have hcomma : Value.Neat limit depth [.token .comma] :=
      neat_token trivial (by simp) rfl rfl (by simp)
    exact ⟨(neat_membersValues layout hsound hmarks).append (hcomma.append hneat),
      (tidy_membersValues layout hsound hmarks).append_comma htidy⟩

/-- A selector is read as the values that it is written with, but for white space
    behind commas. -/
theorem lexes_pieces {selector : Selector} {more : List Char} {tokens : List Token}
    (h : SoundMembers limit depth selector.members) (hunmarked : selector.isUnmarked = true)
    (hends : Separated more) (hmore : Lexes more tokens) :
    ∃ spread, Lexes (Piece.charsAll (selector.pieces layout) ++ more) (spread ++ tokens) ∧
      Spread (Value.flatten (membersValues layout selector.members)) spread := by
  have hmarks := List.all_eq_true.1 hunmarked
  obtain ⟨hchain, -⟩ := chain_membersValues layout h hmarks
  have hreads := (neat_membersValues layout h hmarks).readsAs (Value.spaced_of_abut hchain)
    (Value.tidy_iff.1 (tidy_membersValues layout h hmarks)).2.2
  rw [pieces, charsAll_members layout h.sound, ← plainText_eq layout hchain]
  exact layout.lexes_spread hreads hends hmore

end Selector

end Pieces

end DeepScope
