import DeepScope.Token.Escape

namespace DeepScope.Name

/-- Whether the text begins with something that could be an identifier. -/
def starts : List Char → Bool
  | '-' :: '-' :: _ => true
  | '-' :: '\\' :: rest => Escape.follows rest
  | '-' :: c :: _ => isNameStart c
  | '\\' :: rest => Escape.follows rest
  | c :: _ => isNameStart c
  | [] => false

/-- Whether the text begins with a character of a name, escaped or not. -/
def continues : List Char → Bool
  | '\\' :: rest => Escape.follows rest
  | c :: _ => isNameChar c
  | [] => false

/-- Reads the longest name that the text begins with, which may be empty, and
    counts the characters that it takes. Fails only if the text ends in a
    backslash that belongs to the name. -/
def read : List Char → Option (List Char × Nat)
  | [] => some ([], 0)
  | c :: rest =>
    if isNameChar c then do
      let (name, n) ← read rest
      return (c :: name, n + 1)
    else if c = '\\' && Escape.follows rest then do
      let (d, k) ← Escape.read rest
      let (name, n) ← read (rest.drop k)
      return (d :: name, k + n + 1)
    else
      some ([], 0)
termination_by text => text.length
decreasing_by
  · simp
  · simp only [List.length_drop, List.length_cons]
    omega

/-- A name ends where the text does, at the latest. -/
theorem read_le {text name : List Char} {n : Nat} (h : read text = some (name, n)) :
    n ≤ text.length := by
  fun_induction read text generalizing name n with
  | case1 => simp_all
  | case2 c tail _ ih =>
    simp only [Option.bind_eq_bind, Option.bind_eq_some_iff, Prod.exists] at h
    obtain ⟨front, m, hread, hpure⟩ := h
    simp only [Option.pure_def, Option.some.injEq, Prod.mk.injEq] at hpure
    have := ih hread
    simp only [List.length_cons]
    omega
  | case3 c tail _ _ ih =>
    simp only [Option.bind_eq_bind, Option.bind_eq_some_iff, Prod.exists] at h
    obtain ⟨d, k, hescape, front, m, hread, hpure⟩ := h
    simp only [Option.pure_def, Option.some.injEq, Prod.mk.injEq] at hpure
    have hk := Escape.read_le hescape
    have := ih k hread
    simp only [List.length_drop] at this
    simp only [List.length_cons]
    omega
  | case4 =>
    cases h
    exact Nat.zero_le _

/-- A name that the text does begin with takes at least one character. -/
theorem read_pos {text name : List Char} {n : Nat} (hcont : continues text)
    (h : read text = some (name, n)) : 0 < n := by
  cases text with
  | nil => simp [continues] at hcont
  | cons c tail =>
    rw [read] at h
    split at h
    · simp only [Option.bind_eq_bind, Option.bind_eq_some_iff, Prod.exists] at h
      obtain ⟨front, m, hread, hpure⟩ := h
      simp only [Option.pure_def, Option.some.injEq, Prod.mk.injEq] at hpure
      omega
    · split at h
      · simp only [Option.bind_eq_bind, Option.bind_eq_some_iff, Prod.exists] at h
        obtain ⟨d, k, hescape, front, m, hread, hpure⟩ := h
        simp only [Option.pure_def, Option.some.injEq, Prod.mk.injEq] at hpure
        omega
      · next hchar hescape =>
        exfalso
        by_cases hc : c = '\\'
        · subst hc
          simp_all [continues]
        · simp_all [continues]

end DeepScope.Name
