import DeepScope.Token.Stream

namespace DeepScope.Source

/-- A character that a text ready to be read can hold. -/
def IsClean (c : Char) : Prop :=
  c ≠ '\x00' ∧ c ≠ '\r' ∧ c ≠ '\x0c'

instance (c : Char) : Decidable (IsClean c) :=
  inferInstanceAs (Decidable (c ≠ '\x00' ∧ c ≠ '\r' ∧ c ≠ '\x0c'))

theorem isClean_of_mem_of_all {text : List Char} (h : text.all (IsClean ·) = true) {c : Char}
    (hc : c ∈ text) : IsClean c :=
  of_decide_eq_true (List.all_eq_true.1 h c hc)

theorem isClean_of_mem_normalize {text : List Char} : ∀ c ∈ normalize text, IsClean c := by
  intro c hc
  fun_induction normalize text with
  | case1 => cases hc
  | case2 rest ih =>
    rcases List.mem_cons.1 hc with rfl | hc
    · decide
    · exact ih hc
  | case3 d rest _ ih =>
    rcases List.mem_cons.1 hc with rfl | hc
    · split
      · decide
      · next hline =>
        simp only [Bool.or_eq_true, decide_eq_true_eq, not_or] at hline
        split
        · decide
        · next hnull => exact ⟨hnull, hline⟩
    · exact ih hc

theorem normalize_cons_of_isClean {c : Char} (h : IsClean c) (rest : List Char) :
    normalize (c :: rest) = c :: normalize rest := by
  obtain ⟨hnull, hreturn, hfeed⟩ := h
  rw [normalize]
  · simp [hnull, hreturn, hfeed]
  · intro tail hc
    exact absurd hc hreturn

/-- Text that is ready stays as it is, and so does not depend on what follows. -/
theorem normalize_append_of_isClean {front : List Char} (h : ∀ c ∈ front, IsClean c)
    (back : List Char) : normalize (front ++ back) = front ++ normalize back := by
  induction front with
  | nil => rfl
  | cons c front ih =>
    rw [List.cons_append, normalize_cons_of_isClean (h c List.mem_cons_self),
      ih fun d hd => h d (List.mem_cons_of_mem c hd), List.cons_append]

theorem normalize_eq_self {text : List Char} (h : ∀ c ∈ text, IsClean c) : normalize text = text := by
  simpa [normalize] using normalize_append_of_isClean h []

/-- A character that nothing else is made into stands first already. -/
theorem head?_of_normalize {text : List Char} {c : Char} (hline : c ≠ '\n') (hnull : c ≠ replacement)
    (h : (normalize text).head? = some c) : text.head? = some c := by
  unfold normalize at h
  split at h
  · cases h
  · exact absurd (Option.some.inj h).symm hline
  · have hc := Option.some.inj h
    split at hc
    · exact absurd hc.symm hline
    · split at hc
      · exact absurd hc.symm hnull
      · rw [hc]
        rfl

/-- Two texts are made ready one after the other, unless a line end lies across
    the seam. -/
theorem normalize_append {front back : List Char}
    (h : front.getLast? ≠ some '\r' ∨ back.head? ≠ some '\n') :
    normalize (front ++ back) = normalize front ++ normalize back := by
  fun_induction normalize front with
  | case1 => rfl
  | case2 rest ih =>
    rw [List.cons_append, List.cons_append, normalize, ih, List.cons_append]
    refine h.imp_left fun hlast hrest => hlast ?_
    simp [List.getLast?_cons, hrest]
  | case3 c rest hpair ih =>
    rw [List.cons_append, normalize, ih, List.cons_append]
    · refine h.imp_left fun hlast hrest => hlast ?_
      simp [List.getLast?_cons, hrest]
    · intro tail hc htail
      cases rest with
      | nil =>
        subst hc
        rw [List.nil_append] at htail
        simp [htail] at h
      | cons d rest =>
        rw [List.cons_append, List.cons.injEq] at htail
        exact hpair rest hc (by rw [htail.1])

/-- The two ends of a comment stay as they are. -/
theorem normalize_comment (comment back : List Char) :
    normalize ('/' :: '*' :: (comment ++ '*' :: '/' :: back)) =
      '/' :: '*' :: (normalize comment ++ '*' :: '/' :: normalize back) := by
  have hslash : IsClean '/' := by decide
  have hstar : IsClean '*' := by decide
  rw [normalize_cons_of_isClean hslash, normalize_cons_of_isClean hstar,
    normalize_append (.inr (by simp)), normalize_cons_of_isClean hstar,
    normalize_cons_of_isClean hslash]

/-- Making a text ready brings in no other characters than these. -/
theorem mem_of_mem_normalize {text : List Char} {c : Char} (hline : c ≠ '\n') (hnull : c ≠ replacement)
    (hc : c ∈ normalize text) : c ∈ text := by
  fun_induction normalize text with
  | case1 => cases hc
  | case2 rest ih =>
    have hrest := ih ((List.mem_cons.1 hc).resolve_left hline)
    exact List.mem_cons_of_mem _ (List.mem_cons_of_mem _ hrest)
  | case3 d rest _ ih =>
    rcases List.mem_cons.1 hc with heq | hc
    · split at heq
      · exact absurd heq hline
      · split at heq
        · exact absurd heq hnull
        · exact heq ▸ List.mem_cons_self
    · exact List.mem_cons_of_mem d (ih hc)

/-- A text that holds no line end when it is ready, and no null character before, was
    ready already. -/
theorem normalize_eq_self_of_line {text : List Char} (hnull : '\x00' ∉ text)
    (hline : '\n' ∉ normalize text) : normalize text = text := by
  fun_induction normalize text with
  | case1 => rfl
  | case2 => exact absurd List.mem_cons_self hline
  | case3 c rest _ ih =>
    rw [List.mem_cons, not_or] at hnull hline
    rw [ih hnull.2 hline.2]
    split
    · next hfold => exact absurd (if_pos hfold).symm hline.1
    · rw [if_neg (Ne.symm hnull.1)]

theorem dropMark_of_head {text : List Char} (h : text.head? ≠ some '\uFEFF') :
    dropMark text = text := by
  unfold dropMark
  split
  · exact absurd rfl h
  · rfl

/-- A clean text without a mark is read as it stands. -/
theorem ofText_ofList {text : List Char} (hclean : ∀ c ∈ text, IsClean c)
    (hmark : text.head? ≠ some '\uFEFF') : ofText (String.ofList text) = text := by
  rw [ofText, String.toList_ofList, dropMark_of_head hmark, normalize_eq_self hclean]

end DeepScope.Source
