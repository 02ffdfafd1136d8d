import DeepScope.Proofs.Pieces
import DeepScope.Proofs.Value.Condition
import DeepScope.Proofs.Value.Sound

namespace DeepScope

/-- The greatest measure of the members of a list. -/
def deepest {α : Type} (measure : α → Nat) : List α → Nat
  | [] => 0
  | a :: rest => max (measure a) (deepest measure rest)

@[simp] theorem deepest_nil {α : Type} (measure : α → Nat) : deepest measure [] = 0 := rfl

@[simp] theorem deepest_cons {α : Type} (measure : α → Nat) (a : α) (rest : List α) :
    deepest measure (a :: rest) = max (measure a) (deepest measure rest) := rfl

theorem deepest_append {α : Type} (measure : α → Nat) (front back : List α) :
    deepest measure (front ++ back) = max (deepest measure front) (deepest measure back) := by
  induction front with
  | nil => exact (Nat.zero_max _).symm
  | cons a front ih => rw [List.cons_append, deepest_cons, deepest_cons, ih, Nat.max_assoc]

/-- Whether something so deep has room inside so many other levels. Without any
    levels of its own it always has. -/
def Fits (limit depth nesting : Nat) : Prop :=
  depth + nesting ≤ max depth limit

namespace Fits

variable {limit depth : Nat}

@[simp] theorem zero : Fits limit depth 0 :=
  Nat.le_max_left _ _

theorem max_iff {first second : Nat} :
    Fits limit depth (max first second) ↔ Fits limit depth first ∧ Fits limit depth second := by
  unfold Fits
  omega

theorem succ_iff {nesting : Nat} :
    Fits limit depth (nesting + 1) ↔ depth < limit ∧ Fits limit (depth + 1) nesting := by
  unfold Fits
  omega

theorem outermost_iff {nesting : Nat} : Fits limit 0 nesting ↔ nesting ≤ limit := by
  unfold Fits
  omega

end Fits

namespace Value

/-- How many functions and blocks stand around the innermost of the values. -/
def nesting : List Value → Nat
  | [] => 0
  | .token _ :: rest => nesting rest
  | .function _ arguments :: rest => max (nesting arguments + 1) (nesting rest)
  | .block _ contents :: rest => max (nesting contents + 1) (nesting rest)

@[simp] theorem nesting_nil : nesting [] = 0 := by rw [nesting]

@[simp] theorem nesting_token (t : Token) (rest : List Value) :
    nesting (.token t :: rest) = nesting rest := by rw [nesting]

@[simp] theorem nesting_function (name : String) (arguments rest : List Value) :
    nesting (.function name arguments :: rest) = max (nesting arguments + 1) (nesting rest) := by
  rw [nesting]

@[simp] theorem nesting_block (opener : Token) (contents rest : List Value) :
    nesting (.block opener contents :: rest) = max (nesting contents + 1) (nesting rest) := by
  rw [nesting]

theorem nesting_nest (opener : Token) (contents rest : List Value) :
    nesting (nest opener contents :: rest) = max (nesting contents + 1) (nesting rest) := by
  cases opener <;> simp [nest]

theorem nesting_append (front back : List Value) :
    nesting (front ++ back) = max (nesting front) (nesting back) := by
  induction front with
  | nil => simp
  | cons v front ih => cases v <;> simp [ih, Nat.max_assoc]

theorem nesting_cons (v : Value) (rest : List Value) :
    nesting (v :: rest) = max (nesting [v]) (nesting rest) :=
  nesting_append [v] rest

theorem nesting_reverse (values : List Value) : nesting values.reverse = nesting values := by
  induction values with
  | nil => rfl
  | cons v rest ih => rw [List.reverse_cons, nesting_append, ih, nesting_cons v rest, Nat.max_comm]

theorem nesting_of_isBlank {v : Value} (h : v.isBlank = true) (rest : List Value) :
    nesting (v :: rest) = nesting rest := by
  rw [eq_of_isBlank h, nesting_token]

theorem nesting_dropWhile_isBlank (values : List Value) :
    nesting (values.dropWhile isBlank) = nesting values := by
  induction values with
  | nil => rfl
  | cons v rest ih =>
    rw [List.dropWhile_cons]
    split
    · next hblank => rw [ih, nesting_of_isBlank hblank]
    · rfl

theorem nesting_normalizeFrom (separable blank : Bool) (values : List Value) :
    nesting (normalizeFrom separable blank values) = nesting values := by
  induction values generalizing separable blank with
  | nil => rfl
  | cons v rest ih =>
    rw [normalizeFrom]
    split
    · next hblank => rw [ih, nesting_of_isBlank hblank]
    · split
      · rw [nesting_token, nesting_cons, ih, ← nesting_cons]
      · rw [nesting_cons, ih, ← nesting_cons]

/-- White space has no levels, so it is no matter how much of it is kept. -/
@[simp] theorem nesting_normalize (values : List Value) : nesting (normalize values) = nesting values :=
  nesting_normalizeFrom false false values

theorem nesting_tightenColons (afterColon : Bool) (values : List Value) :
    nesting (tightenColons afterColon values) = nesting values := by
  induction values generalizing afterColon with
  | nil => rfl
  | cons v rest ih =>
    rw [tightenColons]
    split
    · next hblank =>
      rw [ih, nesting_of_isBlank (Bool.and_eq_true_iff.1 hblank).1]
    · rw [nesting_cons, ih, ← nesting_cons]

@[simp] theorem nesting_normalizeCondition (values : List Value) :
    nesting (normalizeCondition values) = nesting values := by
  fun_induction normalizeCondition values with
  | case1 => rfl
  | case2 rest contents ihContents ih =>
    rw [nesting_block, nesting_block, nesting_tightenColons, ihContents, ih]
  | case3 v rest _ ih => rw [nesting_cons, ih, ← nesting_cons]

theorem deepest_splitOn (values : List Value) :
    deepest nesting (splitOn isComma values) = nesting values := by
  induction values with
  | nil => simp [splitOn]
  | cons v rest ih =>
    rw [splitOn]
    split
    · next hcomma => rw [deepest_cons, ih, eq_of_isComma hcomma, nesting_token, nesting_nil, Nat.zero_max]
    · split
      · next hnil => exact absurd hnil (splitOn_ne_nil _ _)
      · next piece pieces hpieces =>
        rw [hpieces, deepest_cons] at ih
        rw [deepest_cons, nesting_cons v piece, Nat.max_assoc, ih, ← nesting_cons]

/-- Tokens gather into values under a limit if they do without one and the
    values are not too deep. -/
theorem gathers_some_iff {limit depth : Nat} {tokens : List Token} {values : List Value} :
    Gathers (some limit) depth tokens values ↔
      Gathers none depth tokens values ∧ Fits limit depth (nesting values) := by
  constructor
  · intro h
    induction h with
    | nil => exact ⟨.nil, by simp⟩
    | token hopens hcloses hend _ ih =>
      rw [nesting_token]
      exact ⟨.token hopens hcloses hend ih.1, ih.2⟩
    | nested hopens hnest _ _ ihInner ih =>
      refine ⟨.nested hopens rfl ihInner.1 ih.1, ?_⟩
      rw [close_extend, nesting_nest, nesting_normalize, Fits.max_iff, Fits.succ_iff]
      exact ⟨⟨of_decide_eq_true hnest, ihInner.2⟩, ih.2⟩
  · rintro ⟨h, hfits⟩
    induction h with
    | nil => exact .nil
    | token hopens hcloses hend _ ih =>
      rw [nesting_token] at hfits
      exact .token hopens hcloses hend (ih hfits)
    | nested hopens _ _ _ ihInner ih =>
      rw [close_extend, nesting_nest, nesting_normalize, Fits.max_iff, Fits.succ_iff] at hfits
      exact .nested hopens (decide_eq_true hfits.1.1) (ihInner hfits.1.2) (ih hfits.2)

end Value

end DeepScope
