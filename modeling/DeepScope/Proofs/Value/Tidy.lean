import DeepScope.Value.Basic
import Mathlib.Data.List.Chain

namespace DeepScope.Value

theorem eq_of_isBlank {v : Value} (h : v.isBlank = true) : v = .token .whitespace := by
  unfold isBlank at h
  split at h
  · rfl
  · cases h

theorem eq_of_isComma {v : Value} (h : v.isComma = true) : v = .token .comma := by
  unfold isComma at h
  split at h
  · rfl
  · cases h

/-- Two values that may stand next to each other where white space only
    separates. -/
def Neighbors (a b : Value) : Prop :=
  (a.isBlank = true → b.isBlank = false ∧ b.isComma = false) ∧
    (a.isComma = true → b.isBlank = false)

theorem neighbors_of_plain {a b : Value} (hblank : a.isBlank = false) (hcomma : a.isComma = false) :
    Neighbors a b :=
  ⟨fun h => absurd h (by simp [hblank]), fun h => absurd h (by simp [hcomma])⟩

theorem neighbors_of_not_blank {a b : Value} (ha : a.isBlank = false) (hb : b.isBlank = false) :
    Neighbors a b :=
  ⟨fun h => absurd h (by simp [ha]), fun _ => hb⟩

theorem neighbors_comma {a : Value} (h : a.isBlank = false) : Neighbors a (.token .comma) :=
  neighbors_of_not_blank h rfl

/-- White space stands between two values that are no commas, and only one at a
    time. The ends of the list count as commas. -/
def Tidy (values : List Value) : Prop :=
  List.IsChain Neighbors (.token .comma :: (values ++ [.token .comma]))

variable {values tail : List Value} {separable blank : Bool}

theorem Tidy.chain (h : Tidy values) : List.IsChain Neighbors (values ++ [.token .comma]) :=
  List.IsChain.tail h

theorem tidy_nil : Tidy [] :=
  .cons_cons (neighbors_comma rfl) (.singleton _)

theorem tidy_iff : Tidy values ↔ List.IsChain Neighbors values ∧
    (∀ v ∈ values.head?, v.isBlank = false) ∧ ∀ v ∈ values.getLast?, v.isBlank = false := by
  have hcomma : ∀ {v : Value}, Neighbors v (.token .comma) ↔ v.isBlank = false :=
    ⟨fun h => Bool.eq_false_iff.2 fun hblank => absurd (h.1 hblank).2 (by simp [isComma]),
      neighbors_comma⟩
  unfold Tidy
  rw [List.isChain_cons, List.isChain_append]
  constructor
  · rintro ⟨hhead, hchain, -, hlast⟩
    refine ⟨hchain, fun v hv => ?_, fun v hv => hcomma.1 (hlast v hv _ rfl)⟩
    refine (hhead v ?_).2 rfl
    rw [List.head?_append, Option.mem_def.1 hv]
    rfl
  · rintro ⟨hchain, hhead, hlast⟩
    refine ⟨fun v hv => ?_, hchain, .singleton _, fun v hv w hw => ?_⟩
    · rw [List.head?_append] at hv
      refine neighbors_of_not_blank rfl ?_
      cases hcases : values.head? with
      | none =>
        rw [hcases] at hv
        cases hv
        rfl
      | some w =>
        rw [hcases] at hv
        cases hv
        exact hhead _ hcases
    · cases hw
      exact hcomma.2 (hlast v hv)

/-- What comes before some of the values is tidy by itself, unless white space
    ends it. -/
theorem Tidy.of_append {front back : List Value} (h : Tidy (front ++ back))
    (hlast : ∀ v ∈ front.getLast?, v.isBlank = false) : Tidy front := by
  obtain ⟨hchain, hhead, -⟩ := tidy_iff.1 h
  refine tidy_iff.2 ⟨hchain.left_of_append, fun v hv => hhead v ?_, hlast⟩
  rw [List.head?_append, Option.mem_def.1 hv]
  rfl

theorem Tidy.append_comma {front back : List Value} (h : Tidy front) (h' : Tidy back) :
    Tidy (front ++ .token .comma :: back) := by
  unfold Tidy at *
  rw [List.append_assoc, List.cons_append, ← List.cons_append, List.isChain_split]
  exact ⟨h, h'⟩

/-- Without a value to separate from, white space has no effect. -/
theorem normalizeFrom_false (blank : Bool) (values : List Value) :
    normalizeFrom false blank values = normalizeFrom false false values := by
  cases values with
  | nil => rfl
  | cons v rest => simp [normalizeFrom]

theorem normalizeFrom_blank {v : Value} (h : v.isBlank = true) (separable blank : Bool)
    (rest : List Value) :
    normalizeFrom separable blank (v :: rest) = normalizeFrom separable true rest := by
  rw [normalizeFrom, if_pos h]

theorem normalizeFrom_comma (separable blank : Bool) (rest : List Value) :
    normalizeFrom separable blank (.token .comma :: rest) =
      .token .comma :: normalizeFrom false false rest := by
  simp [normalizeFrom, isBlank, isComma]

theorem normalizeFrom_cons {v : Value} (h : v.isBlank = false) (separable : Bool)
    (rest : List Value) :
    normalizeFrom separable false (v :: rest) = v :: normalizeFrom (!v.isComma) false rest := by
  simp [normalizeFrom, h]

/-- White space behind a value is put in front of the next, unless one of the
    two is a comma. -/
theorem normalizeFrom_true_cons {v : Value} (hblank : v.isBlank = false) (hcomma : v.isComma = false)
    (rest : List Value) :
    normalizeFrom true true (v :: rest) =
      .token .whitespace :: normalizeFrom true false (v :: rest) := by
  simp [normalizeFrom, hblank, hcomma]

theorem mem_normalizeFrom {v : Value} (h : v ∈ normalizeFrom separable blank values) :
    v = .token .whitespace ∨ v ∈ values := by
  fun_induction normalizeFrom separable blank values with
  | case1 => cases h
  | case2 _ _ w rest _ ih => exact (ih h).imp_right (List.mem_cons_of_mem w)
  | case3 _ _ w rest _ _ ih =>
    rcases List.mem_cons.1 h with rfl | h
    · exact .inl rfl
    · rcases List.mem_cons.1 h with rfl | h
      · exact .inr List.mem_cons_self
      · exact (ih h).imp_right (List.mem_cons_of_mem w)
  | case4 _ _ w rest _ _ ih =>
    rcases List.mem_cons.1 h with rfl | h
    · exact .inr List.mem_cons_self
    · exact (ih h).imp_right (List.mem_cons_of_mem w)

theorem chain_normalizeFrom (separable blank : Bool) (values : List Value) :
    List.IsChain Neighbors (normalizeFrom separable blank values ++ [.token .comma]) ∧
      (separable = false →
        ∀ v ∈ (normalizeFrom separable blank values ++ [Value.token .comma]).head?,
          v.isBlank = false) := by
  have hcons : ∀ {v : Value} {rest : List Value}, v.isBlank = false →
      List.IsChain Neighbors (rest ++ [.token .comma]) →
      (v.isComma = true → ∀ w ∈ (rest ++ [Value.token .comma]).head?, w.isBlank = false) →
      List.IsChain Neighbors (v :: (rest ++ [.token .comma])) := by
    intro v rest hblank hchain hhead
    refine hchain.cons fun w hw => ?_
    cases hcomma : v.isComma with
    | true => exact neighbors_of_not_blank hblank (hhead hcomma w hw)
    | false => exact neighbors_of_plain hblank hcomma
  fun_induction normalizeFrom separable blank values with
  | case1 =>
    refine ⟨.singleton _, fun _ v hv => ?_⟩
    cases hv
    rfl
  | case2 _ _ v rest hblank ih => exact ih
  | case3 separable blank v rest hblank hsep ih =>
    simp only [Bool.and_eq_true, Bool.not_eq_true'] at hsep
    rw [Bool.not_eq_true] at hblank
    obtain ⟨⟨rfl, -⟩, hcomma⟩ := hsep
    refine ⟨.cons_cons ⟨fun _ => ⟨hblank, hcomma⟩, fun h => by cases h⟩ ?_, fun h => by cases h⟩
    exact hcons hblank ih.1 fun h => absurd h (by simp [hcomma])
  | case4 separable blank v rest hblank _ ih =>
    rw [Bool.not_eq_true] at hblank
    refine ⟨hcons hblank ih.1 fun h => ih.2 (by simp [h]), fun _ w hw => ?_⟩
    cases hw
    exact hblank

theorem tidy_normalize (values : List Value) : Tidy (normalize values) := by
  obtain ⟨hchain, hhead⟩ := chain_normalizeFrom false false values
  exact hchain.cons fun v hv => neighbors_of_not_blank rfl (hhead rfl v hv)

/-- Whether white space behind the values would separate, given whether it would
    in front of them. -/
def separates (separable : Bool) (values : List Value) : Bool :=
  (values.getLast?.map fun v => !v.isComma).getD separable

theorem separates_cons (separable : Bool) (v : Value) (rest : List Value) :
    separates separable (v :: rest) = separates (!v.isComma) rest := by
  unfold separates
  rw [List.getLast?_cons]
  cases rest.getLast? <;> rfl

/-- Tidy values are kept. -/
theorem normalizeFrom_append (hchain : List.IsChain Neighbors (values ++ [.token .comma]))
    (hhead : separable = false → ∀ v ∈ values.head?, v.isBlank = false) (tail : List Value) :
    normalizeFrom separable false (values ++ tail) =
      values ++ normalizeFrom (separates separable values) false tail := by
  induction values generalizing separable with
  | nil => rfl
  | cons v rest ih =>
    rw [List.cons_append, List.isChain_cons] at hchain
    obtain ⟨hnext, hchain⟩ := hchain
    rw [List.cons_append, List.cons_append, separates_cons]
    cases hblank : v.isBlank with
    | false =>
      rw [normalizeFrom_cons hblank, ih hchain]
      intro hcomma w hw
      refine (hnext w ?_).2 (by simpa using hcomma)
      rw [List.head?_append, Option.mem_def.1 hw]
      rfl
    | true =>
      have hseparable : separable = true := by
        cases separable with
        | true => rfl
        | false => exact absurd hblank (by simp [hhead rfl v rfl])
      cases rest with
      | nil => exact absurd ((hnext _ rfl).1 hblank).2 (by simp [isComma])
      | cons w rest =>
        obtain ⟨hw, hwComma⟩ := (hnext w rfl).1 hblank
        have hv : v.isComma = false := by
          rw [eq_of_isBlank hblank]
          rfl
        rw [normalizeFrom_blank hblank, hseparable, List.cons_append,
          normalizeFrom_true_cons hw hwComma, ← List.cons_append, ih hchain (by simp), hv,
          eq_of_isBlank hblank]
        rfl

theorem Tidy.normalize_append (h : Tidy values) (tail : List Value) :
    normalize (values ++ tail) = values ++ normalizeFrom (separates false values) false tail :=
  normalizeFrom_append h.chain (fun _ => (tidy_iff.1 h).2.1) tail

theorem Tidy.normalize_eq (h : Tidy values) : normalize values = values := by
  have happend := h.normalize_append []
  rwa [List.append_nil, normalizeFrom, List.append_nil] at happend

theorem normalize_normalize (values : List Value) : normalize (normalize values) = normalize values :=
  (tidy_normalize values).normalize_eq

/-- Values that are told apart by white space without a meaning alone, whatever
    stands around them. -/
def Alike (values others : List Value) : Prop :=
  ∀ separable blank tail,
    normalizeFrom separable blank (values ++ tail) = normalizeFrom separable blank (others ++ tail)

theorem Alike.refl (values : List Value) : Alike values values := fun _ _ _ => rfl

theorem Alike.trans {others values' : List Value} (h : Alike values others)
    (h' : Alike others values') : Alike values values' :=
  fun separable blank tail => (h separable blank tail).trans (h' separable blank tail)

theorem Alike.cons {others : List Value} (h : Alike values others) (v : Value) :
    Alike (v :: values) (v :: others) := by
  intro separable blank tail
  rw [List.cons_append, List.cons_append, normalizeFrom, normalizeFrom, h, h]

theorem Alike.normalize_append {others : List Value} (h : Alike values others) (tail : List Value) :
    normalize (values ++ tail) = normalize (others ++ tail) :=
  h false false tail

theorem Alike.normalize_eq {others : List Value} (h : Alike values others) :
    normalize values = normalize others := by
  simpa using h.normalize_append []

/-- White space behind a comma has no meaning. -/
theorem alike_comma_blank (values : List Value) :
    Alike (.token .comma :: .token .whitespace :: values) (.token .comma :: values) := by
  intro separable blank tail
  rw [List.cons_append, List.cons_append, normalizeFrom_comma, normalizeFrom_blank rfl,
    normalizeFrom_false, List.cons_append, normalizeFrom_comma]

/-- White space in front of all values has no meaning. -/
theorem normalize_cons_blank (values : List Value) :
    normalize (.token .whitespace :: values) = normalize values := by
  unfold normalize
  rw [normalizeFrom_blank rfl, normalizeFrom_false]

/-- White space behind all values has no meaning. -/
theorem normalizeFrom_append_blank (separable blank : Bool) (values : List Value) :
    normalizeFrom separable blank (values ++ [.token .whitespace]) =
      normalizeFrom separable blank values := by
  induction values generalizing separable blank with
  | nil => rfl
  | cons v rest ih =>
    rw [List.cons_append, normalizeFrom, normalizeFrom, ih, ih]

end DeepScope.Value
