import DeepScope.Proofs.Script.Value
import DeepScope.Proofs.Value.Respaced

namespace DeepScope

/-- The token that a function or a block ends with, by the token that opens it. -/
def Token.partner? : Token → Option Token
  | .function _ | .openParen => some .closeParen
  | .openSquare => some .closeSquare
  | .openBrace => some .closeBrace
  | _ => none

/-- Whether functions and blocks are closed in the order in which they are
    opened, each by its own token, and `due` by what closes none of them. -/
def balanced (due : List Token) : List Token → Bool
  | [] => due.isEmpty
  | t :: rest =>
    match t.partner? with
    | some closer => balanced (closer :: due) rest
    | none =>
      if t.closes then due.head? = some t && balanced due.tail rest
      else balanced due rest

/-- Every run of white space as a single one. -/
def collapseBlanks : List Token → List Token
  | [] => []
  | t :: rest =>
    if t = .whitespace ∧ rest.head? = some .whitespace then collapseBlanks rest
    else t :: collapseBlanks rest

/-- The tokens without the white space at either end of a function or a block, or
    beside a comma. `free` tells whether an opening token or a comma comes in
    front of them. -/
def dropIdle (free : Bool) : List Token → List Token
  | [] => []
  | t :: rest =>
    if t = .whitespace ∧ (free || rest.head?.any Token.bounds) = true then dropIdle free rest
    else t :: dropIdle t.frees rest

/-- The tokens with white space in front, if there is any. -/
def leadBlank (blank : Bool) (tokens : List Token) : List Token :=
  if blank then .whitespace :: tokens else tokens

@[simp] theorem leadBlank_false (tokens : List Token) : leadBlank false tokens = tokens := rfl

@[simp] theorem leadBlank_true (tokens : List Token) :
    leadBlank true tokens = .whitespace :: tokens := rfl

theorem leadBlank_append (blank : Bool) (front back : List Token) :
    leadBlank blank front ++ back = leadBlank blank (front ++ back) := by
  cases blank <;> rfl

namespace Token

variable {t : Token}

theorem partner?_of_opens (h : t.opens = true) :
    t.partner? = some (OpenValue.closer ⟨t, []⟩) := by
  cases t <;> first | rfl | cases h

theorem partner?_of_not_opens (h : t.opens = false) : t.partner? = none := by
  cases t <;> first | rfl | cases h

end Token

section WhiteSpace

variable {t : Token} {tokens rest : List Token} {free blank : Bool}

theorem collapseBlanks_cons (ht : t ≠ .whitespace) (rest : List Token) :
    collapseBlanks (t :: rest) = t :: collapseBlanks rest := by
  rw [collapseBlanks, if_neg fun h => ht h.1]

theorem dropIdle_cons (ht : t ≠ .whitespace) (free : Bool) (rest : List Token) :
    dropIdle free (t :: rest) = t :: dropIdle t.frees rest := by
  rw [dropIdle, if_neg fun h => ht h.1]

/-- White space behind white space adds nothing. -/
theorem collapseBlanks_leadBlank (blank : Bool) (rest : List Token) :
    collapseBlanks (leadBlank blank (.whitespace :: rest)) =
      collapseBlanks (leadBlank true rest) := by
  cases blank with
  | false => rfl
  | true => exact if_pos ⟨rfl, rfl⟩

/-- In front of another token white space is kept where it separates that token
    from something. -/
theorem dropIdle_collapseBlanks_cons (ht : t ≠ .whitespace) (free blank : Bool)
    (rest : List Token) :
    dropIdle free (collapseBlanks (leadBlank blank (t :: rest))) =
      leadBlank (!free && blank && !t.bounds) (t :: dropIdle t.frees (collapseBlanks rest)) := by
  cases blank with
  | false =>
    rw [Bool.and_false, Bool.false_and, leadBlank_false, leadBlank_false, collapseBlanks_cons ht,
      dropIdle_cons ht]
  | true =>
    have hblank : collapseBlanks (.whitespace :: t :: rest) =
        .whitespace :: t :: collapseBlanks rest := by
      rw [collapseBlanks, if_neg (by simpa using ht), collapseBlanks_cons ht]
    rw [leadBlank_true, hblank, dropIdle, dropIdle_cons ht, dropIdle_cons ht]
    cases free <;> cases hbounds : t.bounds <;> simp [hbounds]

end WhiteSpace

namespace Value

variable {limit : Option Nat} {depth : Nat} {tokens : List Token} {values : List Value}
  {reader after : Reader} {value : Value}

/-- What stands for values closes all that it opens, and nothing else. -/
theorem Gathers.balanced (h : Gathers limit depth tokens values) (due rest : List Token) :
    balanced due (tokens ++ rest) = DeepScope.balanced due rest := by
  induction h generalizing due rest with
  | nil => rfl
  | token hopens hcloses _ _ ih =>
    rw [List.cons_append, DeepScope.balanced, Token.partner?_of_not_opens hopens]
    dsimp only
    rw [if_neg (by simp [hcloses]), ih]
  | @nested _ opener inner tokens _ _ hopens _ _ _ ihInner ih =>
    have hcloses := OpenValue.closes_closer ⟨opener, []⟩
    have hcloser := Token.partner?_of_not_opens (Token.opens_of_closes hcloses)
    rw [List.cons_append, List.append_assoc, DeepScope.balanced, Token.partner?_of_opens hopens]
    dsimp only
    rw [ihInner, List.cons_append, DeepScope.balanced, hcloser]
    dsimp only
    rw [if_pos hcloses, ih]
    simp

/-- A value other than white space is kept, with white space in front where it
    separates the value from something. -/
theorem flatten_normalizeFrom_cons {v : Value} (hv : v.isBlank = false)
    (separable blank : Bool) (rest : List Value) :
    flatten (normalizeFrom separable blank (v :: rest)) =
      leadBlank (separable && blank && !v.isComma)
        (flatten (v :: normalizeFrom (!v.isComma) false rest)) := by
  rw [normalizeFrom, if_neg (by simp [hv])]
  unfold leadBlank
  split
  · rw [flatten]
  · rfl

/-- Of the tokens up to the closing one, the values keep those that are left when
    idle white space is dropped. `blank` tells whether white space has been read
    since the last of the values in front. -/
theorem Gathers.flatten_normalizeFrom (h : Gathers limit depth tokens values) (free blank : Bool)
    {closer : Token} (hcloser : closer.closes = true) (more : List Token) :
    dropIdle free (collapseBlanks (leadBlank blank (tokens ++ closer :: more))) =
      flatten (normalizeFrom (!free) blank values) ++
        closer :: dropIdle false (collapseBlanks more) := by
  induction h generalizing free blank closer more with
  | nil =>
    rw [List.nil_append, dropIdle_collapseBlanks_cons (Token.ne_whitespace_of_closes hcloser),
      Token.bounds_of_closes hcloser, Token.frees_of_closes hcloser, Bool.not_true, Bool.and_false,
      normalizeFrom, flatten]
    rfl
  | @token _ t tokens values hopens hcloses _ _ ih =>
    rw [List.cons_append]
    by_cases ht : t = .whitespace
    · rw [ht, collapseBlanks_leadBlank, ih free true hcloser, normalizeFrom_blank rfl]
    · obtain ⟨hfrees, hbounds⟩ := frees_bounds_token hopens hcloses
      have hrest := ih t.frees false hcloser more
      rw [leadBlank_false, hfrees] at hrest
      rw [dropIdle_collapseBlanks_cons ht, flatten_normalizeFrom_cons (isBlank_token ht),
        flatten, hfrees, hbounds, hrest, leadBlank_append, List.cons_append]
  | @nested _ opener inner tokens contents values hopens _ _ _ ihInner ih =>
    have hinner := ihInner true false (OpenValue.closes_closer ⟨opener, []⟩)
      (tokens ++ closer :: more)
    have hrest := ih false false hcloser more
    rw [leadBlank_false] at hinner hrest
    rw [List.cons_append, List.append_assoc, List.cons_append,
      dropIdle_collapseBlanks_cons (Token.ne_whitespace_of_opens hopens), close_extend,
      flatten_normalizeFrom_cons (isBlank_nest _), isComma_nest, flatten_nest,
      Token.bounds_of_opens hopens, Token.frees_of_opens hopens, hinner, hrest, leadBlank_append,
      normalize]
    simp

/-- A single value is made of the tokens that stand for it, without idle white
    space. -/
theorem Gathers.flatten_singleton (h : Gathers limit depth tokens [value]) :
    flatten [value] = dropIdle false (collapseBlanks tokens) := by
  cases h with
  | @token _ t _ _ _ _ _ hnil =>
    cases hnil
    rw [flatten, flatten]
    by_cases ht : t = .whitespace
    · rw [ht]
      rfl
    · rw [collapseBlanks_cons ht, dropIdle_cons ht]
      rfl
  | @nested _ opener inner _ contents _ hopens _ hinner hnil =>
    cases hnil
    have hne := Token.ne_whitespace_of_opens hopens
    have hcontents := hinner.flatten_normalizeFrom true false
      (OpenValue.closes_closer ⟨opener, []⟩) []
    rw [close_extend, flatten_nest, flatten, collapseBlanks_cons hne, dropIdle_cons hne,
      Token.frees_of_opens hopens]
    exact congrArg (opener :: ·) hcontents.symm

/-- What is left behind a value is the end of what was there. -/
theorem read_suffix (h : read limit depth reader = .ok (value, after)) :
    after.rest <:+ reader.rest :=
  Script.run_suffix ((Script.run_value_contents (Nat.le_refl _)).trans h)

/-- Reading a value takes balanced tokens off the front, and the value is made of
    these, without the white space that has no meaning. -/
theorem flatten_read (h : read limit depth reader = .ok (value, after)) :
    ∃ taken : List Located, reader.rest = taken ++ after.rest ∧
      balanced [] (taken.map Located.token) = true ∧
      flatten [value] = dropIdle false (collapseBlanks (taken.map Located.token)) := by
  obtain ⟨tokens, htokens, hgathers, -⟩ := read_sound h
  obtain ⟨taken, htaken⟩ := read_suffix h
  have hmap : taken.map Located.token = tokens := by
    unfold Reader.tokens at htokens
    rw [← htaken, List.map_append] at htokens
    exact List.append_cancel_right htokens
  have hbalanced := hgathers.balanced [] []
  rw [List.append_nil] at hbalanced
  refine ⟨taken, htaken.symm, ?_, ?_⟩
  · rwa [hmap]
  · rw [hmap]
    exact hgathers.flatten_singleton

/-- The tokens of `f( a , [ ] );`, of which the function is read. -/
theorem flatten_read_function :
    let items := List.map (Located.mk · ⟨1, 1⟩)
      [.function "f", .whitespace, .ident "a", .whitespace, .comma, .whitespace, .openSquare,
        .whitespace, .closeSquare, .whitespace, .closeParen, .semicolon]
    let value := Value.function "f" [.token (.ident "a"), .token .comma, .block .openSquare []]
    ∃ taken : List Located, items = taken ++ [⟨.semicolon, ⟨1, 1⟩⟩] ∧
      balanced [] (taken.map Located.token) = true ∧
      flatten [value] = dropIdle false (collapseBlanks (taken.map Located.token)) :=
  @flatten_read (some 2) 0 ⟨⟨1, 1⟩, _⟩ ⟨⟨1, 1⟩, _⟩ _ rfl

end Value

end DeepScope
