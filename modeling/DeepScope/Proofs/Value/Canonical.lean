import DeepScope.Proofs.Pieces
import DeepScope.Proofs.Value.Condition

namespace DeepScope.Value

/-- A value as reading makes it. Only white space that separates is kept in its
    functions and blocks, at any depth. -/
inductive Canonical : Value → Prop where
  | token {t : Token} : t.opens = false → t.closes = false → t ≠ .eof → Canonical (.token t)
  | function {name : String} {arguments : List Value} :
    Tidy arguments → (∀ v ∈ arguments, Canonical v) → Canonical (.function name arguments)
  | block {opener : Token} {contents : List Value} :
    opener ∈ [.openParen, .openSquare, .openBrace] → Tidy contents →
    (∀ v ∈ contents, Canonical v) → Canonical (.block opener contents)

/-- A list of values as reading makes it. -/
structure CanonicalList (values : List Value) : Prop where
  tidy : Tidy values
  each : ∀ v ∈ values, v.Canonical

variable {values : List Value}

theorem Canonical.whitespace : Canonical (.token .whitespace) :=
  .token rfl rfl (by simp)

theorem Canonical.nest {opener : Token} {contents : List Value} (hopens : opener.opens = true)
    (h : CanonicalList contents) : (nest opener contents).Canonical := by
  cases opener with
  | function name => exact .function h.tidy h.each
  | openParen | openSquare | openBrace => exact .block (by simp) h.tidy h.each
  | _ => cases hopens

theorem CanonicalList.normalize (h : ∀ v ∈ values, v.Canonical) :
    CanonicalList (normalize values) := by
  refine ⟨tidy_normalize values, fun v hv => ?_⟩
  rcases mem_normalizeFrom hv with rfl | hv
  · exact .whitespace
  · exact h v hv

/-- Any tokens gather into such values. -/
theorem Gathers.canonical {limit : Option Nat} {depth : Nat} {tokens : List Token}
    (h : Gathers limit depth tokens values) : ∀ v ∈ values, v.Canonical := by
  induction h with
  | nil => exact fun v hv => nomatch hv
  | token hopens hcloses hend _ ih => exact List.forall_mem_cons.2 ⟨.token hopens hcloses hend, ih⟩
  | nested hopens _ _ _ ihInner ih =>
    refine List.forall_mem_cons.2 ⟨?_, ih⟩
    rw [close_extend]
    exact .nest hopens (.normalize ihInner)

/-- Commas separate white space as the ends of a list do. -/
theorem tidy_splitOn (h : Tidy values) : ∀ piece ∈ splitOn isComma values, Tidy piece := by
  have hpieces : ∀ {values : List Value} {u : Value},
      List.IsChain Neighbors (u :: (values ++ [.token .comma])) →
      ∃ first others, splitOn isComma values = first :: others ∧
        List.IsChain Neighbors (u :: (first ++ [.token .comma])) ∧ ∀ piece ∈ others, Tidy piece := by
    intro values
    induction values with
    | nil => exact fun hchain => ⟨[], [], rfl, hchain, nofun⟩
    | cons v rest ih =>
      intro u hchain
      rw [List.cons_append, List.isChain_cons_cons] at hchain
      obtain ⟨first, others, hsplit, hfirst, hothers⟩ := ih hchain.2
      rw [splitOn, hsplit]
      split
      · next hcomma =>
        rw [eq_of_isComma hcomma] at hchain hfirst
        exact ⟨[], _, rfl, .cons_cons hchain.1 (.singleton _), List.forall_mem_cons.2 ⟨hfirst, hothers⟩⟩
      · exact ⟨_, others, rfl, .cons_cons hchain.1 hfirst, hothers⟩
  obtain ⟨first, others, hsplit, hfirst, hothers⟩ := hpieces h
  rw [hsplit]
  exact List.forall_mem_cons.2 ⟨hfirst, hothers⟩

theorem CanonicalList.splitOn (h : CanonicalList values) :
    ∀ piece ∈ splitOn isComma values, CanonicalList piece :=
  fun piece hpiece => ⟨tidy_splitOn h.tidy piece hpiece,
    fun v hv => h.each v (mem_of_mem_splitOn hpiece hv)⟩

/-- What comes before some of the values is a list of its own, unless white space
    ends it. -/
theorem CanonicalList.of_append {front back : List Value} (h : CanonicalList (front ++ back))
    (hlast : ∀ v ∈ front.getLast?, v.isBlank = false) : CanonicalList front :=
  ⟨h.tidy.of_append hlast, fun v hv => h.each v (List.mem_append_left back hv)⟩

/-- Tightening the colons between its parentheses makes a value one of a
    condition. -/
theorem Canonical.tighten {v : Value} (h : v.Canonical) :
    (onParens (tightenColons false) v).Canonical ∧
      Conditioned [onParens (tightenColons false) v] := by
  have hkeep : ∀ {v : Value}, v.Canonical → (∀ contents, v ≠ .block .openParen contents) →
      (onParens (tightenColons false) v).Canonical ∧
        Conditioned [onParens (tightenColons false) v] := by
    intro v hv hne
    rw [onParens_of_ne _ hne]
    exact ⟨hv, .other hne .nil⟩
  induction h with
  | token hopens hcloses hend => exact hkeep (.token hopens hcloses hend) (by simp)
  | function htidy heach _ => exact hkeep (.function htidy heach) (by simp)
  | @block opener contents hopener htidy heach ih =>
    by_cases hparen : opener = .openParen
    · subst hparen
      have htight := ((similar_onParens (tightenColons false)).tidy_map htidy).tight_tightenColons
      have hmem : ∀ {w}, w ∈ tightenColons false (contents.map (onParens (tightenColons false))) →
          ∃ u ∈ contents, onParens (tightenColons false) u = w :=
        fun hw => List.mem_map.1 (mem_tightenColons hw)
      rw [onParens]
      refine ⟨.block hopener htight.tidy fun w hw => ?_, .paren htight (.of_forall fun w hw => ?_) .nil⟩
      · obtain ⟨u, hu, rfl⟩ := hmem hw
        exact (ih u hu).1
      · obtain ⟨u, hu, rfl⟩ := hmem hw
        exact (ih u hu).2
    · exact hkeep (.block hopener htidy heach) (by simp [hparen])

theorem CanonicalList.normalizeCondition (h : CanonicalList values) :
    CanonicalList (normalizeCondition values) ∧ Conditioned (normalizeCondition values) := by
  rw [normalizeCondition_eq]
  refine ⟨⟨(similar_onParens _).tidy_map h.tidy, fun w hw => ?_⟩, .of_forall fun w hw => ?_⟩
  · obtain ⟨v, hv, rfl⟩ := List.mem_map.1 hw
    exact (h.each v hv).tighten.1
  · obtain ⟨v, hv, rfl⟩ := List.mem_map.1 hw
    exact (h.each v hv).tighten.2

end DeepScope.Value
