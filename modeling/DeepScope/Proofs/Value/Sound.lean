import DeepScope.Proofs.Token.Address
import DeepScope.Proofs.Value.Gathers
import DeepScope.Proofs.Value.Tidy

namespace DeepScope

theorem OpenValue.closer_cases (open_ : OpenValue) :
    open_.closer = .closeParen ∨ open_.closer = .closeSquare ∨ open_.closer = .closeBrace := by
  obtain ⟨opener, values⟩ := open_
  cases opener <;> simp [closer, Token.closer]

namespace Value

/-- The function or the block that a token opens. -/
def nest (opener : Token) (contents : List Value) : Value :=
  match opener with
  | .function name => .function name contents
  | opener => .block opener contents

theorem close_eq_nest (open_ : OpenValue) :
    open_.close = nest open_.opener (normalize open_.values.reverse) := by
  obtain ⟨opener, values⟩ := open_
  cases opener <;> rfl

theorem close_extend (opener : Token) (contents : List Value) :
    (OpenValue.extend ⟨opener, []⟩ contents).close = nest opener (normalize contents) := by
  rw [close_eq_nest]
  simp [OpenValue.extend]

theorem isBlank_nest {opener : Token} (contents : List Value) :
    (nest opener contents).isBlank = false := by
  cases opener <;> rfl

theorem isComma_nest {opener : Token} (contents : List Value) :
    (nest opener contents).isComma = false := by
  cases opener <;> rfl

theorem head_nest {opener : Token} (contents : List Value) :
    (nest opener contents).head = opener := by
  cases opener <;> rfl

theorem nest_eq_block {opener closed : Token} {contents inner : List Value}
    (h : nest opener contents = .block closed inner) : opener = closed ∧ contents = inner := by
  cases opener <;> simp_all [nest]

theorem flatten_append (front back : List Value) :
    flatten (front ++ back) = flatten front ++ flatten back := by
  induction front with
  | nil => rw [flatten, List.nil_append, List.nil_append]
  | cons v front ih => cases v <;> simp [flatten, ih]

theorem flatten_nest (opener : Token) (contents rest : List Value) :
    flatten (nest opener contents :: rest) =
      opener :: (flatten contents ++ OpenValue.closer ⟨opener, []⟩ :: flatten rest) := by
  cases opener <;> simp [nest, flatten, OpenValue.closer]

theorem head_flatten (v : Value) (rest : List Value) :
    (flatten (v :: rest)).head? = some v.head := by
  cases v <;> simp [flatten, head]

/-- Values that gather from their own tokens one by one do so in a row, with white
    space between them or without, and some of them may be missing. -/
theorem gathers_flatten {limit : Option Nat} {depth : Nat} {values others : List Value}
    (h : ∀ v ∈ values, Gathers limit depth (flatten [v]) [v])
    (hmem : ∀ v ∈ others, v = .token .whitespace ∨ v ∈ values) :
    Gathers limit depth (flatten others) others := by
  induction others with
  | nil =>
    rw [flatten]
    exact .nil
  | cons v rest ih =>
    rw [← List.singleton_append, flatten_append]
    refine .append ?_ (ih fun w hw => hmem w (List.mem_cons_of_mem v hw))
    rcases hmem v List.mem_cons_self with rfl | hv
    · rw [flatten, flatten]
      exact .token rfl rfl (by simp) .nil
    · exact h v hv

/-- What has been gathered gathers again from the tokens that it is made of. -/
theorem Gathers.singleton {limit : Option Nat} {depth : Nat} {tokens : List Token}
    {values : List Value} (h : Gathers limit depth tokens values) :
    ∀ v ∈ values, Gathers limit depth (flatten [v]) [v] := by
  induction h with
  | nil => simp
  | token hopens hcloses hend _ ih =>
    refine List.forall_mem_cons.2 ⟨?_, ih⟩
    rw [flatten, flatten]
    exact .token hopens hcloses hend .nil
  | @nested depth _ _ _ contents _ hopens hnest _ _ ihInner ih =>
    refine List.forall_mem_cons.2 ⟨?_, ih⟩
    have hcontents : Gathers limit (depth + 1) (flatten (normalize contents)) (normalize contents) :=
      gathers_flatten ihInner fun _ hv => mem_normalizeFrom hv
    have hnested := Gathers.nested hopens hnest hcontents .nil
    rw [close_extend, normalize_normalize] at hnested
    rw [close_extend, flatten_nest, flatten]
    exact hnested

/-- Values that consist of such tokens, inside so many other levels, with such
    lists of values in their functions and blocks. A function that reads an
    address has one in quotes. -/
inductive Consists (fits : Token → Prop) (keeps : List Value → Prop) (limit : Option Nat) :
    Nat → List Value → Prop where
  | nil {depth : Nat} : Consists fits keeps limit depth []
  | token {depth : Nat} {token : Token} {rest : List Value} :
    fits token → token.opens = false → token.closes = false → token ≠ .eof →
    Consists fits keeps limit depth rest → Consists fits keeps limit depth (.token token :: rest)
  | nested {depth : Nat} {opener : Token} {contents rest : List Value} :
    fits opener → opener.opens = true →
    (opener.opensUrl = true → ∃ text, contents.head? = some (.token (.string text))) →
    mayNest limit depth = true → keeps contents → Consists fits keeps limit (depth + 1) contents →
    Consists fits keeps limit depth rest →
    Consists fits keeps limit depth (nest opener contents :: rest)

namespace Consists

variable {fits : Token → Prop} {keeps : List Value → Prop} {limit : Option Nat} {depth : Nat}
  {values others : List Value}

theorem append (h : Consists fits keeps limit depth values)
    (h' : Consists fits keeps limit depth others) :
    Consists fits keeps limit depth (values ++ others) := by
  induction h with
  | nil => exact h'
  | token hfits hopens hcloses hend _ ih => exact .token hfits hopens hcloses hend (ih h')
  | nested hfits hopens hurl hnest hkeeps hinner _ _ ih =>
    exact .nested hfits hopens hurl hnest hkeeps hinner (ih h')

theorem singleton (h : Consists fits keeps limit depth values) :
    ∀ v ∈ values, Consists fits keeps limit depth [v] := by
  induction h with
  | nil => simp
  | token hfits hopens hcloses hend _ ih =>
    intro v hv
    rcases List.mem_cons.1 hv with rfl | hv
    · exact .token hfits hopens hcloses hend .nil
    · exact ih v hv
  | nested hfits hopens hurl hnest hkeeps hinner _ _ ih =>
    intro v hv
    rcases List.mem_cons.1 hv with rfl | hv
    · exact .nested hfits hopens hurl hnest hkeeps hinner .nil
    · exact ih v hv

theorem of_forall (h : ∀ v ∈ values, Consists fits keeps limit depth [v]) :
    Consists fits keeps limit depth values := by
  induction values with
  | nil => exact .nil
  | cons v rest ih =>
    exact (h v List.mem_cons_self).append (ih fun w hw => h w (List.mem_cons_of_mem v hw))

theorem mono {fits' : Token → Prop} {keeps' : List Value → Prop}
    (h : Consists fits keeps limit depth values) (hfits : ∀ t, fits t → fits' t)
    (hkeeps : ∀ contents, keeps contents → keeps' contents) :
    Consists fits' keeps' limit depth values := by
  induction h with
  | nil => exact .nil
  | token ht hopens hcloses hend _ ih => exact .token (hfits _ ht) hopens hcloses hend ih
  | nested ht hopens hurl hnest hinner _ _ ihinner ih =>
    exact .nested (hfits _ ht) hopens hurl hnest (hkeeps _ hinner) ihinner ih

/-- White space may stand between the values, and some of them be missing. -/
theorem of_mem (h : Consists fits keeps limit depth values) (hblank : fits .whitespace)
    (hmem : ∀ v ∈ others, v = .token .whitespace ∨ v ∈ values) :
    Consists fits keeps limit depth others := by
  refine of_forall fun v hv => ?_
  rcases hmem v hv with rfl | hv
  · exact .token hblank rfl rfl (by simp) .nil
  · exact h.singleton v hv

theorem forall_flatten (h : Consists fits keeps limit depth values)
    (hcloser : ∀ t : Token, t.closes = true → fits t) :
    ∀ t ∈ flatten values, fits t ∧ t ≠ .eof := by
  induction h with
  | nil => simp [flatten]
  | token hfits _ _ hend _ ih =>
    intro t ht
    rw [flatten] at ht
    rcases List.mem_cons.1 ht with rfl | ht
    · exact ⟨hfits, hend⟩
    · exact ih t ht
  | @nested depth opener contents rest hfits hopens _ _ _ _ _ ihinner ih =>
    intro t ht
    rw [flatten_nest] at ht
    rcases List.mem_cons.1 ht with rfl | ht
    · refine ⟨hfits, ?_⟩
      rintro rfl
      cases hopens
    · rcases List.mem_append.1 ht with ht | ht
      · exact ihinner t ht
      · rcases List.mem_cons.1 ht with rfl | ht
        · have hcloses := OpenValue.closes_closer ⟨opener, []⟩
          refine ⟨hcloser _ hcloses, fun hend => ?_⟩
          rw [hend] at hcloses
          cases hcloses
        · exact ih t ht

theorem eq_of_head {v : Value} (h : Consists fits keeps limit depth (v :: values))
    (hv : v.head.opens = false) : v = .token v.head := by
  generalize heq : v :: values = all at h
  cases h with
  | nil => cases heq
  | token =>
    cases heq
    rfl
  | nested _ hopens =>
    cases heq
    rw [head_nest, hopens] at hv
    cases hv

/-- The last token opens nothing: what is opened is closed. -/
theorem opens_getLast (h : Consists fits keeps limit depth values) :
    ∀ t ∈ (flatten values).getLast?, t.opens = false := by
  have hlast : ∀ {t : Token} {rest : List Value}, t.opens = false →
      (∀ u ∈ (flatten rest).getLast?, u.opens = false) →
      ∀ u ∈ (t :: flatten rest).getLast?, u.opens = false := by
    intro t rest ht hrest u hu
    rw [List.getLast?_cons] at hu
    cases hcases : (flatten rest).getLast? with
    | none =>
      rw [hcases] at hu
      cases hu
      exact ht
    | some last =>
      rw [hcases] at hu
      cases hu
      exact hrest _ hcases
  induction h with
  | nil => simp [flatten]
  | token _ hopens _ _ _ ih =>
    rw [flatten]
    exact hlast hopens ih
  | @nested _ opener contents rest _ _ _ _ _ _ _ _ ih =>
    intro t ht
    have hcloser : (OpenValue.closer ⟨opener, []⟩).opens = false :=
      Token.opens_of_closes (OpenValue.closes_closer _)
    refine hlast hcloser ih t ?_
    rw [flatten_nest, ← List.cons_append, List.getLast?_append] at ht
    rwa [List.getLast?_cons, Option.some_or, ← List.getLast?_cons] at ht

/-- White space comes last only as a value. -/
theorem getLast_ne_whitespace (h : Consists fits keeps limit depth values)
    (hlast : ∀ v ∈ values.getLast?, v.isBlank = false) :
    ∀ t ∈ (flatten values).getLast?, t ≠ .whitespace := by
  rintro t ht rfl
  rcases List.eq_nil_or_concat' values with rfl | ⟨front, v, rfl⟩
  · rw [flatten] at ht
    cases ht
  · rw [flatten_append, List.getLast?_append] at ht
    have hv : v.isBlank = false := hlast v (by simp)
    have hsingle := h.singleton v (by simp)
    generalize heq : [v] = last at hsingle ht
    cases hsingle with
    | nil => cases heq
    | token =>
      cases heq
      rw [flatten, flatten] at ht
      cases ht
      cases hv
    | @nested _ opener contents =>
      cases heq
      rw [flatten_nest, flatten, ← List.cons_append, List.getLast?_concat] at ht
      rcases OpenValue.closer_cases ⟨opener, []⟩ with h | h | h <;>
        · rw [h] at ht
          cases ht

end Consists

/-- Values that can be read inside so many other levels: legible tokens, without
    white space that separates nothing in the functions and blocks. -/
abbrev Sound : Option Nat → Nat → List Value → Prop :=
  Consists Token.Legible Tidy

namespace Sound

variable {limit : Option Nat} {depth : Nat} {values : List Value}

theorem whitespace : Sound limit depth [.token .whitespace] :=
  .token trivial rfl rfl (by simp) .nil

theorem normalize (h : Sound limit depth values) : Sound limit depth (normalize values) :=
  h.of_mem trivial fun _ hv => mem_normalizeFrom hv

/-- What sound values are made of gathers into them again. -/
theorem gathers (h : Sound limit depth values) : Gathers limit depth (flatten values) values := by
  induction h with
  | nil =>
    rw [flatten]
    exact .nil
  | token _ hopens hcloses hend _ ih =>
    rw [flatten]
    exact .token hopens hcloses hend ih
  | @nested depth opener contents rest _ hopens _ hnest htidy _ _ ihinner ih =>
    have hgathers := Gathers.nested hopens hnest ihinner ih
    rwa [close_extend, htidy.normalize_eq, ← flatten_nest] at hgathers

end Sound

/-- White space in front of the values is not kept, so a string behind it comes
    first. -/
theorem Gathers.head_normalize {limit : Option Nat} {depth : Nat} {tokens : List Token}
    {values : List Value} {text : String} (h : Gathers limit depth tokens values)
    (htext : (dropBlank tokens).head? = some (.string text)) :
    (normalize values).head? = some (.token (.string text)) := by
  have hstring : ∀ {others values}, Gathers limit depth (.string text :: others) values →
      (Value.normalize values).head? = some (.token (.string text)) := by
    intro others values h
    cases h with
    | token => exact congrArg List.head? (normalizeFrom_cons rfl _ _)
    | nested hopens => cases hopens
  cases tokens with
  | nil => cases htext
  | cons t others =>
    by_cases ht : t = .whitespace
    · subst ht
      cases h with
      | token _ _ _ hothers =>
        obtain ⟨more, rfl⟩ := List.head?_eq_some_iff.1 htext
        rw [normalize_cons_blank]
        exact hstring hothers
      | nested hopens => cases hopens
    · rw [dropBlank_of_ne fun others heq => ht (List.cons.inj heq).1] at htext
      obtain rfl := Option.some.inj htext
      exact hstring h

/-- Legible tokens gather into sound values. -/
theorem Gathers.sound {limit : Option Nat} {depth : Nat} {tokens : List Token}
    {values : List Value} (h : Gathers limit depth tokens values)
    (hlegible : ∀ t ∈ tokens, t.Legible) (hquoted : UrlsQuoted tokens) :
    Sound limit depth values := by
  induction h with
  | nil => exact .nil
  | @token _ t tokens _ hopens hcloses hend _ ih =>
    refine .token (hlegible t List.mem_cons_self) hopens hcloses hend (ih ?_ ?_)
    · exact fun u hu => hlegible u (List.mem_cons_of_mem t hu)
    · exact hquoted.of_suffix (List.suffix_cons t tokens)
  | @nested _ opener inner tokens contents values hopens hnest hinner _ ihinner ih =>
    have hbehind := hquoted.of_suffix (List.suffix_cons opener _)
    have hcloser : ∀ text, OpenValue.closer ⟨opener, []⟩ ≠ .string text ∧
        OpenValue.closer ⟨opener, []⟩ ≠ .whitespace := by
      rcases OpenValue.closer_cases ⟨opener, []⟩ with h | h | h <;> simp [h]
    have hin := hbehind.of_append (hcloser "").2 fun text => (hcloser text).1
    rw [close_extend]
    refine .nested (hlegible opener List.mem_cons_self) hopens (fun hurl => ?_) hnest
      (tidy_normalize contents) (Sound.normalize (ihinner ?_ hin)) (ih ?_ ?_)
    · obtain ⟨text, htext⟩ := hquoted opener _ (List.suffix_refl _) hurl
      exact ⟨text, hinner.head_normalize
        (head_dropBlank_of_append (hcloser "").2 (fun text => (hcloser text).1) htext)⟩
    · exact fun u hu => hlegible u (by simp [hu])
    · exact fun u hu => hlegible u (by simp [hu])
    · refine hbehind.of_suffix ⟨inner ++ [OpenValue.closer ⟨opener, []⟩], by simp⟩

end Value

end DeepScope
