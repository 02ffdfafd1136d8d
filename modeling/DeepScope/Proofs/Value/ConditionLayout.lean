import DeepScope.Proofs.Value.Condition

namespace DeepScope.Value

/-- Values that stand between parentheses among others, perhaps between more than
    one pair of them. -/
inductive InParens (inner : List Value) : List Value → Prop where
  | direct {values : List Value} : .block .openParen inner ∈ values → InParens inner values
  | nested {contents values : List Value} :
    InParens inner contents → .block .openParen contents ∈ values → InParens inner values

/-- Values without two blanks in a row. -/
def SingleBlanks (values : List Value) : Prop :=
  List.IsChain (fun a b => a.isBlank = true → b.isBlank = false) values

variable {values contents rest inner : List Value} {v : Value}

theorem InParens.cons (h : InParens inner rest) (v : Value) : InParens inner (v :: rest) := by
  cases h with
  | direct hmem => exact .direct (List.mem_cons_of_mem v hmem)
  | nested hinner hmem => exact .nested hinner (List.mem_cons_of_mem v hmem)

theorem SingleBlanks.map {change : Value → Value} (hsimilar : Similar change)
    (h : SingleBlanks values) : SingleBlanks (values.map change) := by
  refine List.isChain_map_of_isChain change (fun a b hab => ?_) h
  rw [hsimilar.isBlank, hsimilar.isBlank]
  exact hab

/-- Tightened colons are found again behind the layout that spaces them. -/
theorem SingleBlanks.tightenColons_spaceColons (layout : Layout) (h : SingleBlanks values) :
    tightenColons false (spaceColons layout false (tightenColons false values)) =
      tightenColons false values := by
  have hchain : List.IsChain (fun a b => a.isBlank = true → b.isBlank = false)
      (.token .comma :: values) :=
    List.IsChain.cons h fun _ _ => nofun
  have hapart := chain_tightenColons (fun _ _ hab => hab) (fun a _ ha _ hblank => by simp [ha] at hblank)
    hchain nofun
  exact Value.tightenColons_spaceColons layout (hapart.imp fun _ _ hab => hab.2)

theorem normalizeCondition_cons (h : ∀ contents, v ≠ .block .openParen contents)
    (rest : List Value) : normalizeCondition (v :: rest) = v :: normalizeCondition rest := by
  rw [normalizeCondition]
  exact h

theorem normalizeCondition_tightenColons (values : List Value) :
    normalizeCondition (tightenColons false values) = tightenColons false (normalizeCondition values) := by
  rw [normalizeCondition_eq, normalizeCondition_eq, (similar_onParens _).tightenColons_map]

theorem normalizeCondition_spaceColons (layout : Layout) (values : List Value) :
    normalizeCondition (spaceColons layout false values) =
      spaceColons layout false (normalizeCondition values) := by
  rw [normalizeCondition_eq, normalizeCondition_eq, (similar_onParens _).spaceColons_map]

theorem SingleBlanks.normalizeCondition (h : SingleBlanks values) :
    SingleBlanks (normalizeCondition values) := by
  rw [normalizeCondition_eq]
  exact h.map (similar_onParens _)

/-- Normalizing a condition undoes its layout. -/
theorem normalizeCondition_layoutCondition (layout : Layout)
    (h : ∀ inner, InParens inner values → SingleBlanks inner) :
    normalizeCondition (layoutCondition layout values) = normalizeCondition values := by
  fun_induction layoutCondition layout values with
  | case1 => rfl
  | case2 contents rest ihContents ihRest =>
    have hcontents := ihContents fun inner hinner => h inner (.nested hinner List.mem_cons_self)
    have hrest := ihRest fun inner hinner => h inner (hinner.cons _)
    have hsingle := h contents (.direct List.mem_cons_self)
    rw [normalizeCondition, normalizeCondition, hrest, reverse_foldl_writeBeside,
      normalizeCondition_spaceColons, normalizeCondition_tightenColons, hcontents,
      hsingle.normalizeCondition.tightenColons_spaceColons]
  | case3 v rest hne ih =>
    have hrest := ih fun inner hinner => h inner (hinner.cons _)
    rw [normalizeCondition_cons hne, normalizeCondition_cons hne, hrest]

/-- The minified layout of a condition is its normal form. -/
theorem layoutCondition_minified (values : List Value) :
    layoutCondition .minified values = normalizeCondition values := by
  have hchange : (fun contents => (contents.foldl (writeBeside .minified) []).reverse) =
      tightenColons false := by
    funext contents
    rw [reverse_foldl_writeBeside, spaceColons_minified]
  rw [layoutCondition_eq, normalizeCondition_eq, hchange]

/-- The minified layout of any condition is its normal form. Where no two blanks
    are in a row between its parentheses, the pretty layout has the same normal
    form as the condition itself, and a normal form is its own. -/
theorem layoutCondition_agrees (values : List Value) :
    layoutCondition .minified values = normalizeCondition values ∧
      ((∀ inner, InParens inner values → SingleBlanks inner) →
        normalizeCondition (layoutCondition .pretty values) = normalizeCondition values ∧
          normalizeCondition (normalizeCondition values) = normalizeCondition values) := by
  refine ⟨layoutCondition_minified values, fun h => ⟨?_, ?_⟩⟩
  · exact normalizeCondition_layoutCondition .pretty h
  · rw [← layoutCondition_minified values, normalizeCondition_layoutCondition .minified h,
      layoutCondition_minified]

/-- The condition `(a : (:: ))` has white space around colons at both depths. -/
theorem layoutCondition_agrees_nested :
    let colons : List Value := [.token .colon, .token .colon, .token .whitespace]
    let values : List Value := [.block .openParen
      [.token (.ident "a"), .token .whitespace, .token .colon, .token .whitespace,
        .block .openParen colons]]
    (∀ inner, InParens inner values → SingleBlanks inner) ∧
      normalizeCondition (layoutCondition .pretty values) = normalizeCondition values ∧
      normalizeCondition (normalizeCondition values) = normalizeCondition values := by
  intro colons values
  have hsingle : ∀ inner, InParens inner values → SingleBlanks inner := by
    intro inner h
    cases h with
    | direct hmem =>
      obtain rfl : inner = _ := by simpa [values] using hmem
      simp [SingleBlanks, isBlank]
    | nested hinner hmem =>
      obtain rfl : _ = _ := by simpa [values] using hmem
      cases hinner with
      | direct hmem =>
        obtain rfl : inner = colons := by simpa using hmem
        simp [SingleBlanks, isBlank, colons]
      | nested hinner hmem =>
        obtain rfl : _ = colons := by simpa using hmem
        cases hinner with
        | direct hmem => simp [colons] at hmem
        | nested hinner hmem => simp [colons] at hmem
  exact ⟨hsingle, (layoutCondition_agrees values).2 hsingle⟩

end DeepScope.Value
