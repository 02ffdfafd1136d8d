import DeepScope.Proofs.Token.Numeral
import Mathlib.Computability.Language

namespace DeepScope.Numeral

/-- A plus or a minus sign. -/
def signs : Language Char := {['+'], ['-']}

/-- Digits, at least one of them. -/
def digitRuns : Language Char := {text | text ≠ [] ∧ ∀ d ∈ text, d.isDigit = true}

/-- A point, and digits behind it. -/
def fractions : Language Char := {['.']} * digitRuns

/-- The letter of an exponent, perhaps a sign, and digits. -/
def exponents : Language Char := {['e'], ['E']} * (1 + signs) * digitRuns

/-- Numbers: perhaps a sign, then digits with or without a fraction, or a
    fraction alone, and then perhaps an exponent. -/
def numbers : Language Char :=
  (1 + signs) * (digitRuns * (1 + fractions) + fractions) * (1 + exponents)

section

variable {text : List Char}

theorem mem_one_add_iff {language : Language Char} :
    text ∈ 1 + language ↔ text = [] ∨ text ∈ language := by
  rw [Language.mem_add, Language.mem_one]

theorem mem_signs_iff : text ∈ signs ↔ ∃ c, isSign c = true ∧ text = [c] := by
  have hsigns : text ∈ signs ↔ text = ['+'] ∨ text = ['-'] := Iff.rfl
  rw [hsigns]
  constructor
  · rintro (rfl | rfl)
    · exact ⟨'+', rfl, rfl⟩
    · exact ⟨'-', rfl, rfl⟩
  · rintro ⟨c, hc, rfl⟩
    simpa [isSign] using hc

theorem mem_digitRuns_iff : text ∈ digitRuns ↔
    ∃ d ds, text = d :: ds ∧ d.isDigit = true ∧ ∀ x ∈ ds, x.isDigit = true := by
  constructor
  · rintro ⟨hne, hdigits⟩
    obtain ⟨d, ds, rfl⟩ := List.exists_cons_of_ne_nil hne
    exact ⟨d, ds, rfl, List.forall_mem_cons.1 hdigits⟩
  · rintro ⟨d, ds, rfl, hdigits⟩
    exact ⟨List.cons_ne_nil d ds, List.forall_mem_cons.2 hdigits⟩

theorem mem_fractions_iff : text ∈ fractions ↔
    ∃ d ds, text = '.' :: d :: ds ∧ d.isDigit = true ∧ ∀ x ∈ ds, x.isDigit = true := by
  unfold fractions
  rw [Language.mem_mul]
  constructor
  · rintro ⟨point, rfl, run, hrun, rfl⟩
    obtain ⟨d, ds, rfl, hdigits⟩ := mem_digitRuns_iff.1 hrun
    exact ⟨d, ds, rfl, hdigits⟩
  · rintro ⟨d, ds, rfl, hdigits⟩
    exact ⟨['.'], rfl, d :: ds, mem_digitRuns_iff.2 ⟨d, ds, rfl, hdigits⟩, rfl⟩

theorem mem_exponents_iff : text ∈ exponents ↔
    ∃ e s d ds, text = e :: (s ++ d :: ds) ∧ (e = 'e' ∨ e = 'E') ∧
      (s = [] ∨ ∃ c, isSign c = true ∧ s = [c]) ∧ d.isDigit = true ∧ ∀ x ∈ ds, x.isDigit = true := by
  unfold exponents
  rw [Language.mem_mul]
  constructor
  · rintro ⟨front, hfront, run, hrun, rfl⟩
    obtain ⟨letter, hletter, s, hs, rfl⟩ := Language.mem_mul.1 hfront
    obtain ⟨d, ds, rfl, hdigits⟩ := mem_digitRuns_iff.1 hrun
    rw [mem_one_add_iff, mem_signs_iff] at hs
    rcases hletter with rfl | rfl
    · exact ⟨'e', s, d, ds, by simp, .inl rfl, hs, hdigits⟩
    · exact ⟨'E', s, d, ds, by simp, .inr rfl, hs, hdigits⟩
  · rintro ⟨e, s, d, ds, rfl, he, hs, hdigits⟩
    have hletter : [e] ∈ ({['e'], ['E']} : Language Char) := by
      rcases he with rfl | rfl
      · exact .inl rfl
      · exact .inr rfl
    rw [← mem_signs_iff, ← mem_one_add_iff] at hs
    exact ⟨[e] ++ s, Language.append_mem_mul hletter hs, d :: ds,
      mem_digitRuns_iff.2 ⟨d, ds, rfl, hdigits⟩, by simp⟩

/-- The texts of the grammar are what the parts of a number make up. -/
theorem mem_numbers_iff : text ∈ numbers ↔ ∃ parts : Parts, parts.chars = text := by
  unfold numbers
  rw [Language.mem_mul]
  constructor
  · rintro ⟨front, hfront, exponent, hexponent, rfl⟩
    obtain ⟨sign, hsign, body, hbody, rfl⟩ := Language.mem_mul.1 hfront
    rw [mem_one_add_iff, mem_signs_iff] at hsign
    rw [mem_one_add_iff, mem_exponents_iff] at hexponent
    rw [Language.mem_add, Language.mem_mul] at hbody
    rcases hbody with ⟨whole, ⟨hne, hwhole⟩, fraction, hfraction, rfl⟩ | hfraction
    · rw [mem_one_add_iff, mem_fractions_iff] at hfraction
      refine ⟨⟨sign, whole, fraction, exponent, hsign, hwhole, hfraction, hexponent, fun hnil => ?_⟩, ?_⟩
      · exact absurd hnil hne
      · simp [Parts.chars]
    · rw [mem_fractions_iff] at hfraction
      refine ⟨⟨sign, [], body, exponent, hsign, List.forall_mem_nil _, .inr hfraction, hexponent,
        fun _ hnil => ?_⟩, ?_⟩
      · obtain ⟨d, ds, rfl, -⟩ := hfraction
        cases hnil
      · simp [Parts.chars]
  · rintro ⟨parts, rfl⟩
    have hsign : parts.sign ∈ 1 + signs := by
      rw [mem_one_add_iff, mem_signs_iff]
      exact parts.sign_form
    have hexponent : parts.exponent ∈ 1 + exponents := by
      rw [mem_one_add_iff, mem_exponents_iff]
      exact parts.exponent_form
    have hfraction : parts.fraction ∈ 1 + fractions := by
      rw [mem_one_add_iff, mem_fractions_iff]
      exact parts.fraction_form
    have hbody : parts.whole ++ parts.fraction ∈ digitRuns * (1 + fractions) + fractions := by
      rw [Language.mem_add]
      by_cases hwhole : parts.whole = []
      · right
        rw [hwhole, List.nil_append]
        exact (mem_one_add_iff.1 hfraction).resolve_left (parts.some_digit hwhole)
      · left
        exact Language.append_mem_mul ⟨hwhole, parts.whole_form⟩ hfraction
    refine ⟨parts.sign ++ (parts.whole ++ parts.fraction), Language.append_mem_mul hsign hbody,
      parts.exponent, hexponent, ?_⟩
    simp [Parts.chars]

end

variable {front back : List Char}

/-- A letter, perhaps a sign and a digit are an exponent, whatever comes next. -/
theorem readExponent_ne_nil {e d : Char} {s : List Char} (he : e = 'e' ∨ e = 'E')
    (hs : s = [] ∨ ∃ c, isSign c = true ∧ s = [c]) (hd : d.isDigit = true) (rest : List Char) :
    (readExponent (e :: (s ++ d :: rest))).1 ≠ [] := by
  have hsign : readSign (s ++ d :: rest) = (s, d :: rest) :=
    readSign_append_of_head hs (by simp [isSign_of_isDigit hd])
  simp [readExponent, hsign, readDigits, hd, he]

/-- A fraction that a text begins with is found whatever comes behind the text. -/
theorem readFraction_eq_nil_of_append (h : (readFraction (front ++ back)).1 = []) :
    (readFraction front).1 = [] := by
  rcases readFraction_form front with hnil | ⟨d, ds, heq, hd, -⟩
  · exact hnil
  · have hfront := readFraction_append front
    rw [heq] at hfront
    rw [← hfront] at h
    simp [readFraction, hd] at h

/-- So is an exponent. -/
theorem readExponent_eq_nil_of_append (h : (readExponent (front ++ back)).1 = []) :
    (readExponent front).1 = [] := by
  rcases readExponent_form front with hnil | ⟨e, s, d, ds, heq, he, hs, hd, -⟩
  · exact hnil
  · have hfront := readExponent_append front
    rw [heq] at hfront
    rw [← hfront] at h
    simp only [List.cons_append, List.append_assoc] at h
    exact absurd h (readExponent_ne_nil he hs hd _)

/-- Where a number ends in front of a text, it ends in front of any beginning of
    that text. -/
theorem Ends.of_append {value : Numeral} (h : value.Ends (front ++ back)) : value.Ends front := by
  obtain ⟨hdigit, hexponent, hfraction⟩ := h
  refine ⟨?_, fun hno => readExponent_eq_nil_of_append (hexponent hno),
    fun hno hpoint => readFraction_eq_nil_of_append (hfraction hno hpoint)⟩
  cases front with
  | nil => rfl
  | cons c front => exact hdigit

namespace Parts

theorem ends_nil (parts : Parts) : parts.numeral.Ends [] :=
  ⟨rfl, fun _ => rfl, fun _ _ => rfl⟩

/-- A number is no longer than another one that it begins with, if that one ends
    in front of the rest of the text. -/
theorem chars_prefix_of_ends {parts others : Parts} (h : parts.chars ++ back = others.chars ++ front)
    (hends : others.numeral.Ends front) : parts.chars <+: others.chars := by
  rcases List.append_eq_append_iff.1 h with ⟨more, hmore, -⟩ | ⟨more, hmore, hfront⟩
  · exact ⟨more, hmore.symm⟩
  · rw [hfront] at hends
    have hothers := others.read_append hends.of_append
    have hparts := parts.read_append parts.ends_nil
    rw [List.append_nil, hmore, hothers] at hparts
    obtain rfl : more = [] := congrArg Prod.snd hparts
    rw [hmore, List.append_nil]

theorem kind_numeral_eq_number_iff (parts : Parts) :
    parts.numeral.kind = .number ↔ '.' ∈ parts.chars ∨ 'e' ∈ parts.chars ∨ 'E' ∈ parts.chars := by
  have hexponent := parts.hasExponent_numeral
  unfold HasExponent at hexponent
  rw [toList_numeral_text] at hexponent
  rw [hexponent, point_mem_chars, numeral]
  by_cases hfraction : parts.fraction = [] <;> simp [hfraction]

end Parts

/-- Where a text begins with a number, reading takes the longest one that it
    begins with, keeps it as it is written, and tells by its characters whether
    it is an integer. -/
theorem read_longest {text : List Char} (h : starts text = true) :
    let value := (read text).1
    value.text.toList ++ (read text).2 = text ∧ value.text.toList ∈ numbers ∧
      (∀ front ∈ numbers, front <+: text → front <+: value.text.toList) ∧
      (value.kind = .number ↔
        '.' ∈ value.text.toList ∨ 'e' ∈ value.text.toList ∨ 'E' ∈ value.text.toList) := by
  have hends := ends_read h
  have happend := read_append text
  rw [read_fst h] at hends happend ⊢
  rw [Parts.toList_numeral_text] at happend
  dsimp only
  rw [Parts.toList_numeral_text]
  refine ⟨happend, mem_numbers_iff.2 ⟨_, rfl⟩, fun front hfront hprefix => ?_,
    Parts.kind_numeral_eq_number_iff _⟩
  obtain ⟨parts, rfl⟩ := mem_numbers_iff.1 hfront
  obtain ⟨back, hback⟩ := hprefix
  exact Parts.chars_prefix_of_ends (hback.trans happend.symm) hends

/-- Of `+.5e-10e3` the second exponent is left. -/
theorem read_longest_twice :
    let text := "+.5e-10e3".toList
    let value : Numeral := ⟨"+.5e-10", .number⟩
    starts text = true ∧ value.text.toList ++ "e3".toList = text ∧ value.text.toList ∈ numbers ∧
      (∀ front ∈ numbers, front <+: text → front <+: value.text.toList) ∧
      (value.kind = .number ↔
        '.' ∈ value.text.toList ∨ 'e' ∈ value.text.toList ∨ 'E' ∈ value.text.toList) := by
  have hstart : starts "+.5e-10e3".toList = true := by decide
  have hread : read "+.5e-10e3".toList = (⟨"+.5e-10", .number⟩, "e3".toList) := by decide
  have hlongest := read_longest hstart
  rw [hread] at hlongest
  exact ⟨hstart, hlongest⟩

end DeepScope.Numeral
