import DeepScope.Proofs.Value.Written

namespace DeepScope

namespace Value

/-- The token that a value ends with. -/
def last : Value → Token
  | .token t => t
  | .function _ _ => .closeParen
  | .block opener _ => opener.closer

theorem getLast_flatten_concat (front : List Value) (v : Value) :
    (flatten (front ++ [v])).getLast? = some v.last := by
  rw [flatten_append, List.getLast?_append]
  cases v with
  | token t =>
    rw [flatten, flatten]
    rfl
  | function name arguments =>
    rw [flatten, flatten, ← List.cons_append, List.getLast?_concat]
    rfl
  | block opener contents =>
    rw [flatten, flatten, ← List.cons_append, List.getLast?_concat]
    rfl

theorem last_ne_comma {v : Value} (h : v.isComma = false) : v.last ≠ .comma := by
  cases v with
  | token t =>
    rintro rfl
    cases h
  | function name arguments => simp [last]
  | block opener contents => cases opener <;> simp [last, Token.closer]

/-- Two values that need nothing between them. -/
structure Abut (a b : Value) : Prop where
  neighbors : Neighbors a b
  beside : Beside a b
  apart : a.isComma = false ∧ a.last.mayMerge b.head = false

theorem Abut.of_plain {a b : Value} (hblank : a.isBlank = false) (hcomma : a.isComma = false)
    (hmark : a ≠ .token (.delim '<')) (hhides : a = .token (.ident "--") → b ≠ .token (.delim '>'))
    (hmerge : a.last.mayMerge b.head = false) : Abut a b :=
  ⟨neighbors_of_plain hblank hcomma, ⟨by simp [hblank, hcomma], fun hboth => hmark hboth.1,
    fun hboth => hhides hboth.1 hboth.2⟩, hcomma, hmerge⟩

theorem Abut.of_blank {b : Value} (hblank : b.isBlank = false) (hcomma : b.isComma = false) :
    Abut (.token .whitespace) b :=
  ⟨⟨fun _ => ⟨hblank, hcomma⟩, fun h => by cases h⟩, ⟨fun _ => hblank, by simp, by simp⟩, rfl, rfl⟩

theorem Abut.to_blank {a : Value} (hblank : a.isBlank = false) (hcomma : a.isComma = false)
    (hmark : a ≠ .token (.delim '<')) : Abut a (.token .whitespace) := by
  refine .of_plain hblank hcomma hmark (by simp) ?_
  show a.last.mayMerge .whitespace = false
  unfold Token.mayMerge
  split <;> rfl

theorem tidy_of_abut {values : List Value} (hchain : List.IsChain Abut values)
    (hhead : ∀ v ∈ values.head?, v.isBlank = false)
    (hlast : ∀ v ∈ values.getLast?, v.isBlank = false) : Tidy values :=
  tidy_iff.2 ⟨hchain.imp fun _ _ h => h.neighbors, hhead, hlast⟩

theorem spaced_of_abut {values : List Value} (hchain : List.IsChain Abut values) : Spaced values :=
  hchain.imp fun _ _ h => h.beside

end Value

namespace Layout

variable {layout : Layout}

theorem between_eq_nil {prev next : Token} (hcomma : prev ≠ .comma)
    (hmerge : prev.mayMerge next = false) : layout.between prev next = [] := by
  simp [between, hcomma, Token.needsSeparator, hmerge]

theorem tokens_append {front back : List Token}
    (h : ∀ a ∈ front.getLast?, ∀ b ∈ back.head?, layout.between a b = []) :
    layout.tokens (front ++ back) = layout.tokens front ++ layout.tokens back := by
  induction front with
  | nil => rfl
  | cons t front ih =>
    cases front with
    | nil =>
      cases back with
      | nil => rfl
      | cons u back =>
        have hnil := h t rfl u rfl
        simp [Layout.tokens, hnil]
    | cons u front =>
      have hrest := ih fun a ha => h a (by rwa [List.getLast?_cons_cons])
      rw [List.cons_append] at hrest
      simp [Layout.tokens, hrest]

/-- Values that need nothing between them are written one after the other. -/
theorem values_of_abut {values : List Value} (h : List.IsChain Value.Abut values) :
    layout.values values = values.flatMap fun v => layout.values [v] := by
  induction values with
  | nil => simp [Layout.values, Value.flatten, Layout.tokens]
  | cons v rest ih =>
    rw [List.isChain_cons] at h
    rw [List.flatMap_cons, ← ih h.2, Layout.values, ← List.singleton_append,
      Value.flatten_append, tokens_append]
    · rfl
    · intro a ha b hb
      cases rest with
      | nil => simp [Value.flatten] at hb
      | cons w rest =>
        rw [Value.head_flatten] at hb
        have hlast := Value.getLast_flatten_concat [] v
        rw [List.nil_append] at hlast
        rw [hlast] at ha
        cases ha
        cases hb
        obtain ⟨hcomma, hmerge⟩ := (h.1 w rfl).apart
        exact between_eq_nil (Value.last_ne_comma hcomma) hmerge

theorem values_token (t : Token) : layout.values [.token t] = [.token t] := by
  simp [Layout.values, Value.flatten, Layout.tokens]

end Layout

end DeepScope
