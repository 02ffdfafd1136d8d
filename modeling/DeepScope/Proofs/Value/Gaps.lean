import DeepScope.Proofs.Value.Tidy

namespace DeepScope.Value

/-- The values other than white space. -/
def kept (values : List Value) : List Value :=
  values.filter fun v => !v.isBlank

/-- The number of blanks right in front of the kept value with such a number. The
    blanks behind the last one are found under the number that comes next. -/
def gap : List Value → Nat → Nat
  | [], _ => 0
  | v :: rest, 0 => if v.isBlank then gap rest 0 + 1 else 0
  | v :: rest, i + 1 => if v.isBlank then gap rest (i + 1) else gap rest i

/-- Whether there is a kept value with such a number, and it is no comma. -/
def isPlainAt (values : List Value) (i : Nat) : Bool :=
  (kept values)[i]?.any fun v => !v.isComma

/-- Whether there is white space right in front of the kept value with such a
    number, and it separates this value from the one before. -/
def separatesAt (values : List Value) : Nat → Bool
  | 0 => false
  | i + 1 => isPlainAt values i && 0 < gap values (i + 1) && isPlainAt values (i + 1)

variable {values others rest : List Value} {v : Value}

section

theorem kept_blank (h : v.isBlank = true) : kept (v :: rest) = kept rest := by
  simp [kept, h]

theorem kept_cons (h : v.isBlank = false) : kept (v :: rest) = v :: kept rest := by
  simp [kept, h]

theorem gap_blank_zero (h : v.isBlank = true) : gap (v :: rest) 0 = gap rest 0 + 1 := by
  rw [gap, if_pos h]

theorem gap_blank_succ (h : v.isBlank = true) (i : Nat) : gap (v :: rest) (i + 1) = gap rest (i + 1) := by
  rw [gap, if_pos h]

theorem gap_cons_zero (h : v.isBlank = false) : gap (v :: rest) 0 = 0 := by
  simp [gap, h]

theorem gap_cons_succ (h : v.isBlank = false) (i : Nat) : gap (v :: rest) (i + 1) = gap rest i := by
  simp [gap, h]

theorem isPlainAt_blank (h : v.isBlank = true) (i : Nat) :
    isPlainAt (v :: rest) i = isPlainAt rest i := by
  rw [isPlainAt, kept_blank h, isPlainAt]

theorem isPlainAt_cons_zero (h : v.isBlank = false) : isPlainAt (v :: rest) 0 = !v.isComma := by
  simp [isPlainAt, kept_cons h]

theorem isPlainAt_cons_succ (h : v.isBlank = false) (i : Nat) :
    isPlainAt (v :: rest) (i + 1) = isPlainAt rest i := by
  simp [isPlainAt, kept_cons h]

theorem separatesAt_blank (h : v.isBlank = true) (i : Nat) :
    separatesAt (v :: rest) i = separatesAt rest i := by
  cases i with
  | zero => rfl
  | succ i =>
    rw [separatesAt, isPlainAt_blank h, isPlainAt_blank h, gap_blank_succ h, separatesAt]

theorem separatesAt_cons_one (h : v.isBlank = false) :
    separatesAt (v :: rest) 1 = (!v.isComma && 0 < gap rest 0 && isPlainAt rest 0) := by
  rw [separatesAt, isPlainAt_cons_zero h, gap_cons_succ h, isPlainAt_cons_succ h]

theorem separatesAt_cons_succ (h : v.isBlank = false) (i : Nat) :
    separatesAt (v :: rest) (i + 2) = separatesAt rest (i + 1) := by
  rw [separatesAt, isPlainAt_cons_succ h, gap_cons_succ h, isPlainAt_cons_succ h, separatesAt]

end

theorem eq_nil_of_kept_gap (hkept : kept values = []) (hgap : gap values 0 = 0) : values = [] := by
  cases values with
  | nil => rfl
  | cons v rest =>
    cases hv : v.isBlank with
    | true =>
      rw [gap_blank_zero hv] at hgap
      cases hgap
    | false =>
      rw [kept_cons hv] at hkept
      cases hkept

/-- A list is made of the values that are kept and of the white space between
    them. -/
theorem eq_of_kept_gap (hkept : kept values = kept others)
    (hgap : ∀ i, gap values i = gap others i) : values = others := by
  induction values generalizing others with
  | nil => exact (eq_nil_of_kept_gap hkept.symm (hgap 0).symm).symm
  | cons v values ih =>
    cases others with
    | nil => exact eq_nil_of_kept_gap hkept (hgap 0)
    | cons w others =>
      have hzero := hgap 0
      cases hv : v.isBlank with
      | true =>
        cases hw : w.isBlank with
        | true =>
          rw [kept_blank hv, kept_blank hw] at hkept
          rw [gap_blank_zero hv, gap_blank_zero hw] at hzero
          rw [eq_of_isBlank hv, eq_of_isBlank hw, ih hkept fun i => ?_]
          cases i with
          | zero => exact Nat.succ.inj hzero
          | succ i => simpa only [gap_blank_succ hv, gap_blank_succ hw] using hgap (i + 1)
        | false =>
          rw [gap_blank_zero hv, gap_cons_zero hw] at hzero
          cases hzero
      | false =>
        cases hw : w.isBlank with
        | true =>
          rw [gap_cons_zero hv, gap_blank_zero hw] at hzero
          cases hzero
        | false =>
          rw [kept_cons hv, kept_cons hw] at hkept
          obtain ⟨rfl, hrest⟩ := List.cons.inj hkept
          rw [ih hrest fun i => by simpa only [gap_cons_succ hv] using hgap (i + 1)]

theorem kept_normalizeFrom (separable blank : Bool) (values : List Value) :
    kept (normalizeFrom separable blank values) = kept values := by
  fun_induction normalizeFrom separable blank values with
  | case1 => rfl
  | case2 _ _ v rest hv ih => rw [kept_blank hv, ih]
  | case3 _ _ v rest hv _ ih =>
    rw [Bool.not_eq_true] at hv
    rw [kept_blank rfl, kept_cons hv, kept_cons hv, ih]
  | case4 _ _ v rest hv _ ih =>
    rw [Bool.not_eq_true] at hv
    rw [kept_cons hv, kept_cons hv, ih]

/-- One blank is left where white space separates two values. In front of all of
    them this is so if it separates the first one from what came before. -/
theorem gap_normalizeFrom (separable blank : Bool) (values : List Value) :
    gap (normalizeFrom separable blank values) 0 =
        (separable && (blank || 0 < gap values 0) && isPlainAt values 0).toNat ∧
      ∀ i, gap (normalizeFrom separable blank values) (i + 1) = (separatesAt values (i + 1)).toNat := by
  fun_induction normalizeFrom separable blank values with
  | case1 => simp [gap, isPlainAt, separatesAt, kept]
  | case2 separable blank v rest hv ih =>
    refine ⟨?_, fun i => by rw [ih.2, separatesAt_blank hv]⟩
    rw [ih.1, isPlainAt_blank hv, gap_blank_zero hv]
    simp
  | case3 separable blank v rest hv hseparates ih =>
    rw [Bool.not_eq_true] at hv
    simp only [Bool.and_eq_true, Bool.not_eq_true'] at hseparates
    obtain ⟨⟨rfl, rfl⟩, hcomma⟩ := hseparates
    refine ⟨?_, fun i => ?_⟩
    · rw [gap_blank_zero rfl, gap_cons_zero hv, isPlainAt_cons_zero hv, hcomma]
      rfl
    · rw [gap_blank_succ rfl, gap_cons_succ hv]
      cases i with
      | zero => rw [ih.1, separatesAt_cons_one hv, Bool.false_or]
      | succ i => rw [ih.2, separatesAt_cons_succ hv]
  | case4 separable blank v rest hv hseparates ih =>
    rw [Bool.not_eq_true] at hv
    refine ⟨?_, fun i => ?_⟩
    · rw [gap_cons_zero hv, gap_cons_zero hv, isPlainAt_cons_zero hv]
      rw [Bool.not_eq_true] at hseparates
      simp [hseparates]
    · rw [gap_cons_succ hv]
      cases i with
      | zero => rw [ih.1, separatesAt_cons_one hv, Bool.false_or]
      | succ i => rw [ih.2, separatesAt_cons_succ hv]

theorem kept_normalize (values : List Value) : kept (normalize values) = kept values :=
  kept_normalizeFrom false false values

theorem gap_normalize (values : List Value) (i : Nat) :
    gap (normalize values) i = (separatesAt values i).toNat := by
  obtain ⟨hzero, hsucc⟩ := gap_normalizeFrom false false values
  cases i with
  | zero => exact hzero
  | succ i => exact hsucc i

theorem separatesAt_eq_gap_normalize (values : List Value) (i : Nat) :
    separatesAt values i = (gap (normalize values) i == 1) := by
  rw [gap_normalize]
  cases separatesAt values i <;> rfl

/-- Two lists come to the same if they keep the same values and white space
    separates these in the same places. -/
theorem normalize_eq_normalize_iff : normalize values = normalize others ↔
    kept values = kept others ∧ ∀ i, separatesAt values i = separatesAt others i := by
  constructor
  · intro h
    refine ⟨?_, fun i => ?_⟩
    · rw [← kept_normalize values, h, kept_normalize]
    · rw [separatesAt_eq_gap_normalize, h, separatesAt_eq_gap_normalize]
  · rintro ⟨hkept, hseparates⟩
    refine eq_of_kept_gap ?_ fun i => ?_
    · rw [kept_normalize, kept_normalize, hkept]
    · rw [gap_normalize, gap_normalize, hseparates]

/-- What is left of a list: the values that are kept, and one blank wherever white
    space separates two of them. So it is left as it is a second time, and two
    lists come to the same if they differ in other white space alone. -/
theorem normalize_exact (values : List Value) :
    kept (normalize values) = kept values ∧
      (∀ i, gap (normalize values) i = if separatesAt values i then 1 else 0) ∧
      normalize (normalize values) = normalize values ∧
      ∀ others, normalize values = normalize others ↔
        kept values = kept others ∧ ∀ i, separatesAt values i = separatesAt others i := by
  refine ⟨kept_normalize values, fun i => ?_, normalize_normalize values,
    fun _ => normalize_eq_normalize_iff⟩
  rw [gap_normalize]
  cases separatesAt values i <;> rfl

end DeepScope.Value
