import DeepScope.Outcome
import DeepScope.Text.Basic
import DeepScope.Token.Fault

namespace DeepScope.Comment

/-- The number of characters up to the end of the first `*/`, if there is one. -/
def sizeToClose : List Char → Option Nat
  | '*' :: '/' :: _ => some 2
  | _ :: rest => (sizeToClose rest).map (· + 1)
  | [] => none

/-- The number of characters in the comments that the text begins with. -/
def size : List Char → Except Fault Nat
  | '/' :: '*' :: rest =>
    match sizeToClose rest with
    | none => .error ⟨.unclosedComment, '/' :: '*' :: rest⟩
    | some n => do
      let more ← size (rest.drop n)
      return n + 2 + more
  | _ => .ok 0
termination_by text => text.length
decreasing_by simp only [List.length_drop, List.length_cons]; omega

/-- The number of characters in the blanks and the comments that the text begins
    with. -/
def sizeWithBlanks : List Char → Except Fault Nat
  | '/' :: '*' :: rest =>
    match sizeToClose rest with
    | none => .error ⟨.unclosedComment, '/' :: '*' :: rest⟩
    | some n => do
      let more ← sizeWithBlanks (rest.drop n)
      return n + 2 + more
  | c :: rest =>
    if isBlank c then do
      let more ← sizeWithBlanks rest
      return more + 1
    else .ok 0
  | [] => .ok 0
termination_by text => text.length
decreasing_by
  · simp only [List.length_drop, List.length_cons]
    omega
  · simp only [List.length_cons]
    omega

theorem sizeToClose_le {text : List Char} {n : Nat} (h : sizeToClose text = some n) :
    n ≤ text.length := by
  fun_induction sizeToClose text generalizing n with
  | case1 =>
    cases h
    simp only [List.length_cons]
    omega
  | case2 c tail _ ih =>
    obtain ⟨m, hm, rfl⟩ := Option.map_eq_some_iff.1 h
    have := ih hm
    simp only [List.length_cons]
    omega
  | case3 => simp at h

theorem size_le {text : List Char} {n : Nat} (h : size text = .ok n) : n ≤ text.length := by
  fun_induction size text generalizing n with
  | case1 => simp at h
  | case2 tail k hclose ih =>
    obtain ⟨more, hmore, hpure⟩ := exists_of_bind_eq_ok h
    cases hpure
    have hk := sizeToClose_le hclose
    have hle := ih hmore
    simp only [List.length_drop, List.length_cons] at hle ⊢
    omega
  | case3 =>
    cases h
    exact Nat.zero_le _

theorem sizeWithBlanks_le {text : List Char} {n : Nat} (h : sizeWithBlanks text = .ok n) :
    n ≤ text.length := by
  fun_induction sizeWithBlanks text generalizing n with
  | case1 => simp at h
  | case2 tail k hclose ih =>
    obtain ⟨more, hmore, hpure⟩ := exists_of_bind_eq_ok h
    cases hpure
    have hk := sizeToClose_le hclose
    have hle := ih hmore
    simp only [List.length_drop, List.length_cons] at hle ⊢
    omega
  | case3 c tail _ _ ih =>
    obtain ⟨more, hmore, hpure⟩ := exists_of_bind_eq_ok h
    cases hpure
    have := ih hmore
    simp only [List.length_cons]
    omega
  | case4 =>
    cases h
    exact Nat.zero_le _
  | case5 =>
    cases h
    exact Nat.zero_le _

end DeepScope.Comment
