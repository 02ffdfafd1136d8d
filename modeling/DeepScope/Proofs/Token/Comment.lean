import DeepScope.Proofs.Token.Settled

namespace DeepScope.Comment

variable {text : List Char} {n : Nat}

/-- What is left behind the first comment of a text that is all taken. -/
theorem length_drop_comment {k j : Nat} (h : ('/' :: '*' :: text).length = k + 2 + j) :
    (text.drop k).length = j := by
  rw [List.length_drop]
  simp only [List.length_cons] at h
  omega

/-- Comments go on in the text behind them. -/
theorem size_append_of_length (h : size text = .ok text.length) {more : List Char} {m : Nat}
    (hmore : size more = .ok m) : size (text ++ more) = .ok (text.length + m) := by
  generalize hn : text.length = n at h
  fun_induction size text generalizing n with
  | case1 => cases h
  | case2 rest k hclose ih =>
    obtain ⟨j, hj, hpure⟩ := exists_of_bind_eq_ok h
    cases hpure
    have hk := sizeToClose_le hclose
    show size ('/' :: '*' :: (rest ++ more)) = _
    rw [Nat.add_assoc]
    refine size_cons (sizeToClose_append hclose more) ?_
    rw [List.drop_append_of_le_length hk]
    exact ih j (length_drop_comment hn) hj
  | case3 =>
    cases h
    rw [List.length_eq_zero_iff.1 hn, List.nil_append, hmore, Nat.zero_add]

theorem sizeWithBlanks_append_of_length (h : sizeWithBlanks text = .ok text.length)
    {more : List Char} {m : Nat} (hmore : sizeWithBlanks more = .ok m) :
    sizeWithBlanks (text ++ more) = .ok (text.length + m) := by
  generalize hn : text.length = n at h
  fun_induction sizeWithBlanks text generalizing n with
  | case1 => cases h
  | case2 rest k hclose ih =>
    obtain ⟨j, hj, hpure⟩ := exists_of_bind_eq_ok h
    cases hpure
    have hk := sizeToClose_le hclose
    show sizeWithBlanks ('/' :: '*' :: (rest ++ more)) = _
    rw [Nat.add_assoc]
    refine sizeWithBlanks_cons (sizeToClose_append hclose more) ?_
    rw [List.drop_append_of_le_length hk]
    exact ih j (length_drop_comment hn) hj
  | case3 c rest _ hblank ih =>
    obtain ⟨j, hj, hpure⟩ := exists_of_bind_eq_ok h
    cases hpure
    rw [List.cons_append, sizeWithBlanks_blank hblank, ih j (by simpa using hn) hj]
    show Except.ok _ = _
    rw [Nat.add_right_comm]
  | case4 c rest =>
    cases h
    cases hn
  | case5 =>
    cases h
    rw [List.nil_append, hmore, Nat.zero_add]

/-- The comments in front are part of the blanks. -/
theorem sizeWithBlanks_of_size {m : Nat} (h : size text = .ok n)
    (hrest : sizeWithBlanks (text.drop n) = .ok m) : sizeWithBlanks text = .ok (n + m) := by
  fun_induction size text generalizing n m with
  | case1 => cases h
  | case2 rest k hclose ih =>
    obtain ⟨j, hj, hpure⟩ := exists_of_bind_eq_ok h
    cases hpure
    rw [drop_comment] at hrest
    rw [Nat.add_assoc]
    exact sizeWithBlanks_cons hclose (ih hj hrest)
  | case3 =>
    cases h
    rw [Nat.zero_add]
    exact hrest

theorem not_prefix_of_size (h : size text = .ok 0) : ¬['/', '*'] <+: text := by
  rintro ⟨rest, rfl⟩
  change size ('/' :: '*' :: rest) = .ok 0 at h
  rw [size] at h
  split at h
  · cases h
  · obtain ⟨j, -, hpure⟩ := exists_of_bind_eq_ok h
    have hzero := Except.ok.inj hpure
    omega

/-- Behind the comments no other comment begins. -/
theorem size_drop (h : size text = .ok n) : size (text.drop n) = .ok 0 := by
  fun_induction size text generalizing n with
  | case1 => cases h
  | case2 rest k hclose ih =>
    obtain ⟨j, hj, hpure⟩ := exists_of_bind_eq_ok h
    cases hpure
    rw [drop_comment]
    exact ih hj
  | case3 text hno =>
    cases h
    refine size_eq_zero ?_
    rintro ⟨rest, hrest⟩
    exact hno rest hrest.symm

theorem sizeWithBlanks_drop (h : sizeWithBlanks text = .ok n) :
    sizeWithBlanks (text.drop n) = .ok 0 := by
  fun_induction sizeWithBlanks text generalizing n with
  | case1 => cases h
  | case2 rest k hclose ih =>
    obtain ⟨j, hj, hpure⟩ := exists_of_bind_eq_ok h
    cases hpure
    rw [drop_comment]
    exact ih hj
  | case3 c rest _ _ ih =>
    obtain ⟨j, hj, hpure⟩ := exists_of_bind_eq_ok h
    cases hpure
    exact ih hj
  | case4 c rest hno hblank =>
    cases h
    rw [List.drop_zero, sizeWithBlanks_eq_zero_iff]
    refine ⟨by simpa using hblank, ?_⟩
    rintro ⟨tail, htail⟩
    cases htail
    exact hno tail rfl rfl
  | case5 =>
    cases h
    rw [List.drop_zero, sizeWithBlanks]

theorem size_of_sizeWithBlanks (h : sizeWithBlanks text = .ok 0) : size text = .ok 0 :=
  size_eq_zero (sizeWithBlanks_eq_zero_iff.1 h).2

theorem getLast?_of_sizeToClose (h : sizeToClose text = some text.length) :
    text.getLast? = some '/' := by
  generalize hn : text.length = n at h
  fun_induction sizeToClose text generalizing n with
  | case1 rest =>
    cases h
    simp only [List.length_cons] at hn
    obtain rfl : rest = [] := List.length_eq_zero_iff.1 (by omega)
    rfl
  | case2 c rest _ ih =>
    obtain ⟨m, hm, rfl⟩ := Option.map_eq_some_iff.1 h
    have hlast := ih m (by simpa using hn) hm
    rw [List.getLast?_cons, hlast]
    rfl
  | case3 => cases h

/-- Comments end in a slash. -/
theorem getLast?_of_size (h : size text = .ok text.length) (hne : text ≠ []) :
    text.getLast? = some '/' := by
  generalize hn : text.length = n at h
  fun_induction size text generalizing n with
  | case1 => cases h
  | case2 rest k hclose ih =>
    obtain ⟨j, hj, hpure⟩ := exists_of_bind_eq_ok h
    cases hpure
    have hk := sizeToClose_le hclose
    have hlast : rest.getLast? = some '/' := by
      by_cases hdrop : rest.drop k = []
      · have hk' : k = rest.length := Nat.le_antisymm hk (List.drop_eq_nil_iff.1 hdrop)
        exact getLast?_of_sizeToClose (hk' ▸ hclose)
      · have hlast := ih hdrop j (length_drop_comment hn) hj
        rwa [List.getLast?_drop, if_neg] at hlast
        rw [← List.drop_eq_nil_iff]
        exact hdrop
    rw [List.getLast?_cons, List.getLast?_cons, hlast]
    rfl
  | case3 =>
    cases h
    exact absurd (List.length_eq_zero_iff.1 hn) hne

end DeepScope.Comment
