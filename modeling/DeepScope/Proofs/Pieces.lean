import DeepScope.Text.Basic

namespace DeepScope

variable {α : Type} {separates : α → Bool} {items piece : List α}

theorem splitOn_ne_nil (separates : α → Bool) (items : List α) : splitOn separates items ≠ [] := by
  unfold splitOn
  split
  · simp
  · split
    · simp
    · split <;> simp

theorem splitOn_cons_of_pos {a : α} (h : separates a = true) (rest : List α) :
    splitOn separates (a :: rest) = [] :: splitOn separates rest := by
  rw [splitOn, if_pos h]

/-- What does not separate goes in front of the first piece. -/
theorem splitOn_cons_of_neg {a : α} (h : separates a = false) (rest : List α) :
    ∃ first others, splitOn separates rest = first :: others ∧
      splitOn separates (a :: rest) = (a :: first) :: others := by
  obtain ⟨first, others, hsplit⟩ := List.exists_cons_of_ne_nil (splitOn_ne_nil separates rest)
  refine ⟨first, others, hsplit, ?_⟩
  rw [splitOn, if_neg (by simp [h]), hsplit]

/-- The first piece stands in front, and each of them somewhere. -/
theorem splitOn_stretches (separates : α → Bool) (items : List α) :
    (∀ first ∈ (splitOn separates items).head?, first <+: items) ∧
      ∀ piece ∈ splitOn separates items, piece <:+: items := by
  induction items with
  | nil => simp [splitOn]
  | cons a rest ih =>
    cases ha : separates a with
    | true =>
      rw [splitOn_cons_of_pos ha]
      refine ⟨fun first hfirst => ?_, List.forall_mem_cons.2 ⟨by simp, fun piece hpiece => ?_⟩⟩
      · cases hfirst
        exact List.nil_prefix
      · exact (ih.2 piece hpiece).trans (List.suffix_cons a rest).isInfix
    | false =>
      obtain ⟨first, others, hrest, hcons⟩ := splitOn_cons_of_neg ha rest
      rw [hrest] at ih
      rw [hcons]
      have hfirst : a :: first <+: a :: rest := List.cons_prefix_cons.2 ⟨rfl, ih.1 first rfl⟩
      refine ⟨fun piece hpiece => ?_, List.forall_mem_cons.2 ⟨hfirst.isInfix, fun piece hpiece => ?_⟩⟩
      · cases hpiece
        exact hfirst
      · exact (ih.2 piece (List.mem_cons_of_mem first hpiece)).trans
          (List.suffix_cons a rest).isInfix

theorem mem_of_mem_splitOn {a : α} (h : piece ∈ splitOn separates items) (ha : a ∈ piece) :
    a ∈ items :=
  ((splitOn_stretches separates items).2 piece h).subset ha

/-- Nothing in a piece separates. -/
theorem not_separates_of_mem_splitOn {a : α} (h : piece ∈ splitOn separates items) (ha : a ∈ piece) :
    separates a = false := by
  induction items generalizing piece with
  | nil =>
    rw [splitOn, List.mem_singleton] at h
    rw [h] at ha
    cases ha
  | cons b rest ih =>
    cases hb : separates b with
    | true =>
      rw [splitOn_cons_of_pos hb] at h
      rcases List.mem_cons.1 h with rfl | h
      · cases ha
      · exact ih h ha
    | false =>
      obtain ⟨first, others, hrest, hcons⟩ := splitOn_cons_of_neg hb rest
      rw [hrest] at ih
      rw [hcons] at h
      rcases List.mem_cons.1 h with rfl | h
      · rcases List.mem_cons.1 ha with rfl | ha
        · exact hb
        · exact ih List.mem_cons_self ha
      · exact ih (List.mem_cons_of_mem first h) ha

/-- The pieces with their separators between them are the list again. -/
theorem intercalate_splitOn {a : α} (h : ∀ b ∈ items, separates b = true → b = a) :
    [a].intercalate (splitOn separates items) = items := by
  induction items with
  | nil => rfl
  | cons b rest ih =>
    have hrest := ih fun c hc => h c (List.mem_cons_of_mem b hc)
    cases hb : separates b with
    | true =>
      rw [splitOn_cons_of_pos hb, List.intercalate_cons_of_ne_nil (splitOn_ne_nil _ _), hrest,
        h b List.mem_cons_self hb]
      rfl
    | false =>
      obtain ⟨first, others, hsplit, hcons⟩ := splitOn_cons_of_neg hb rest
      rw [hsplit] at hrest
      rw [hcons]
      cases others with
      | nil =>
        rw [List.intercalate_singleton] at hrest ⊢
        rw [hrest]
      | cons second others =>
        rw [List.intercalate_cons_cons] at hrest ⊢
        rw [List.cons_append, List.cons_append, hrest]

theorem splitOn_of_not_separates (h : ∀ b ∈ items, separates b = false) :
    splitOn separates items = [items] := by
  induction items with
  | nil => rfl
  | cons b rest ih =>
    have hrest := ih fun c hc => h c (List.mem_cons_of_mem b hc)
    obtain ⟨first, others, hsplit, hcons⟩ := splitOn_cons_of_neg (h b List.mem_cons_self) rest
    rw [hrest] at hsplit
    cases hsplit
    exact hcons

/-- A piece ends at the first separator. -/
theorem splitOn_piece_append {a : α} (ha : separates a = true) (h : ∀ b ∈ piece, separates b = false)
    (rest : List α) : splitOn separates (piece ++ a :: rest) = piece :: splitOn separates rest := by
  induction piece with
  | nil => exact splitOn_cons_of_pos ha rest
  | cons b piece ih =>
    have hpiece := ih fun c hc => h c (List.mem_cons_of_mem b hc)
    obtain ⟨first, others, hsplit, hcons⟩ :=
      splitOn_cons_of_neg (h b List.mem_cons_self) (piece ++ a :: rest)
    rw [hpiece] at hsplit
    cases hsplit
    exact hcons

/-- Pieces that were put together with separators are found again. -/
theorem splitOn_intercalate {a : α} {pieces : List (List α)} (ha : separates a = true)
    (hne : pieces ≠ []) (h : ∀ piece ∈ pieces, ∀ b ∈ piece, separates b = false) :
    splitOn separates ([a].intercalate pieces) = pieces := by
  induction pieces with
  | nil => exact absurd rfl hne
  | cons first others ih =>
    cases others with
    | nil =>
      rw [List.intercalate_singleton]
      exact splitOn_of_not_separates (h first List.mem_cons_self)
    | cons second others =>
      have hothers := ih (by simp) fun piece hpiece => h piece (List.mem_cons_of_mem first hpiece)
      rw [List.intercalate_cons_cons, List.append_assoc, List.singleton_append,
        splitOn_piece_append ha (h first List.mem_cons_self), hothers]

end DeepScope
