import DeepScope.Token.Numeral

namespace DeepScope.Numeral

/-- The parts of a number, each of them missing or complete. -/
structure Parts where
  sign : List Char
  whole : List Char
  fraction : List Char
  exponent : List Char
  sign_form : sign = [] ∨ ∃ c, isSign c = true ∧ sign = [c]
  whole_form : ∀ d ∈ whole, d.isDigit = true
  fraction_form : fraction = [] ∨
    ∃ d ds, fraction = '.' :: d :: ds ∧ d.isDigit = true ∧ ∀ x ∈ ds, x.isDigit = true
  exponent_form : exponent = [] ∨
    ∃ e s d ds, exponent = e :: (s ++ d :: ds) ∧ (e = 'e' ∨ e = 'E') ∧
      (s = [] ∨ ∃ c, isSign c = true ∧ s = [c]) ∧ d.isDigit = true ∧ ∀ x ∈ ds, x.isDigit = true
  some_digit : whole = [] → fraction ≠ []

namespace Parts

/-- The characters of a number. -/
def chars (parts : Parts) : List Char :=
  parts.sign ++ (parts.whole ++ (parts.fraction ++ parts.exponent))

/-- The number that the parts make up. -/
def numeral (parts : Parts) : Numeral :=
  ⟨String.ofList parts.chars,
    if parts.fraction.isEmpty && parts.exponent.isEmpty then .integer else .number⟩

@[simp] theorem toList_numeral_text (parts : Parts) : parts.numeral.text.toList = parts.chars := by
  simp [numeral]

end Parts

theorem readDigits_append_of_head {digits rest : List Char} (h : ∀ d ∈ digits, d.isDigit = true)
    (hrest : rest.head?.any Char.isDigit = false) : readDigits (digits ++ rest) = (digits, rest) := by
  have hstop : rest.takeWhile Char.isDigit = [] ∧ rest.dropWhile Char.isDigit = rest := by
    cases rest with
    | nil => simp
    | cons c rest =>
      have hc : c.isDigit = false := by simpa using hrest
      simp [hc]
  unfold readDigits
  rw [List.takeWhile_append_of_pos h, List.dropWhile_append_of_pos h, hstop.1, hstop.2,
    List.append_nil]

theorem head_readDigits (text : List Char) :
    (readDigits text).2.head?.any Char.isDigit = false := by
  unfold readDigits
  induction text with
  | nil => rfl
  | cons c rest ih =>
    by_cases hc : c.isDigit = true
    · simpa [hc] using ih
    · simp [hc]

theorem forall_readDigits (text : List Char) : ∀ d ∈ (readDigits text).1, d.isDigit = true := by
  exact List.all_eq_true.1 List.all_takeWhile

theorem readSign_form (text : List Char) :
    (readSign text).1 = [] ∨ ∃ c, isSign c = true ∧ (readSign text).1 = [c] := by
  unfold readSign
  split
  · exact .inl rfl
  · split
    · next h => exact .inr ⟨_, h, rfl⟩
    · exact .inl rfl

theorem readFraction_form (text : List Char) : (readFraction text).1 = [] ∨
    ∃ d ds, (readFraction text).1 = '.' :: d :: ds ∧ d.isDigit = true ∧
      ∀ x ∈ ds, x.isDigit = true := by
  unfold readFraction
  split
  · next d rest =>
    split
    · next hd => exact .inr ⟨d, (readDigits rest).1, rfl, hd, forall_readDigits rest⟩
    · exact .inl rfl
  · exact .inl rfl

theorem readExponent_form (text : List Char) : (readExponent text).1 = [] ∨
    ∃ e s d ds, (readExponent text).1 = e :: (s ++ d :: ds) ∧ (e = 'e' ∨ e = 'E') ∧
      (s = [] ∨ ∃ c, isSign c = true ∧ s = [c]) ∧ d.isDigit = true ∧
      ∀ x ∈ ds, x.isDigit = true := by
  unfold readExponent
  split
  · next e rest =>
    dsimp only
    split
    · next h =>
      have hdigits := forall_readDigits (readSign rest).2
      cases hrun : (readDigits (readSign rest).2).1 with
      | nil => simp [hrun] at h
      | cons d ds =>
        rw [hrun] at hdigits
        simp only [hrun, Bool.and_eq_true, Bool.or_eq_true, decide_eq_true_eq] at h
        exact .inr ⟨e, _, d, ds, rfl, h.1, readSign_form rest, hdigits d List.mem_cons_self,
          fun x hx => hdigits x (List.mem_cons_of_mem d hx)⟩
    · exact .inl rfl
  · exact .inl rfl

/-- The parts that reading finds in a text that begins with a number. -/
def partsOf (text : List Char) (h : starts text = true) : Parts :=
  let afterSign := (readSign text).2
  let afterWhole := (readDigits afterSign).2
  let afterFraction := (readFraction afterWhole).2
  { sign := (readSign text).1
    whole := (readDigits afterSign).1
    fraction := (readFraction afterWhole).1
    exponent := (readExponent afterFraction).1
    sign_form := readSign_form text
    whole_form := forall_readDigits afterSign
    fraction_form := readFraction_form afterWhole
    exponent_form := readExponent_form afterFraction
    some_digit := readFraction_ne_nil h }

theorem read_snd (text : List Char) : (read text).2 =
    (readExponent (readFraction (readDigits (readSign text).2).2).2).2 := rfl

theorem read_fst {text : List Char} (h : starts text = true) :
    (read text).1 = (partsOf text h).numeral := rfl

/-- A number that reading can find. -/
def Proper (value : Numeral) : Prop :=
  ∃ parts : Parts, value = parts.numeral

/-- Whether a number is written with an exponent. -/
def HasExponent (value : Numeral) : Prop :=
  'e' ∈ value.text.toList ∨ 'E' ∈ value.text.toList

/-- Whether nothing behind a number would be read as more of it. -/
def Ends (value : Numeral) (rest : List Char) : Prop :=
  rest.head?.any Char.isDigit = false ∧
    (¬value.HasExponent → (readExponent rest).1 = []) ∧
    (¬value.HasExponent → '.' ∉ value.text.toList → (readFraction rest).1 = [])

namespace Parts

/-- The letter of an exponent and the point of a fraction stand nowhere else. -/
theorem not_mem_sign_whole {c : Char} (parts : Parts) (hdigit : c.isDigit = false)
    (hsign : isSign c = false) : c ∉ parts.sign ∧ c ∉ parts.whole := by
  constructor
  · intro hmem
    rcases parts.sign_form with hnil | ⟨s, hs, heq⟩
    · simp [hnil] at hmem
    · rw [heq, List.mem_singleton] at hmem
      rw [hmem, hs] at hsign
      cases hsign
  · intro hmem
    rw [parts.whole_form c hmem] at hdigit
    cases hdigit

theorem hasExponent_numeral (parts : Parts) :
    parts.numeral.HasExponent ↔ parts.exponent ≠ [] := by
  have hplace : ∀ c : Char, c.isDigit = false → isSign c = false → c ≠ '.' →
      (c ∈ parts.chars ↔ c ∈ parts.exponent) := by
    intro c hdigit hsign hpoint
    have hfront := parts.not_mem_sign_whole hdigit hsign
    have hfraction : c ∉ parts.fraction := by
      intro hmem
      rcases parts.fraction_form with hnil | ⟨d, ds, heq, hd, hds⟩
      · simp [hnil] at hmem
      · rw [heq] at hmem
        simp only [List.mem_cons] at hmem
        rcases hmem with rfl | rfl | hmem
        · exact hpoint rfl
        · simp [hd] at hdigit
        · simp [hds c hmem] at hdigit
    simp [chars, hfront, hfraction]
  unfold HasExponent
  rw [toList_numeral_text, hplace 'e' (by decide) (by decide) (by decide),
    hplace 'E' (by decide) (by decide) (by decide)]
  rcases parts.exponent_form with hnil | ⟨e, s, d, ds, heq, he, -⟩
  · simp [hnil]
  · rw [heq]
    rcases he with rfl | rfl <;> simp

theorem point_mem_chars (parts : Parts) : '.' ∈ parts.chars ↔ parts.fraction ≠ [] := by
  have hfront := parts.not_mem_sign_whole (c := '.') (by decide) (by decide)
  have hexponent : '.' ∉ parts.exponent := by
    intro hmem
    rcases parts.exponent_form with hnil | ⟨e, s, d, ds, heq, he, hs, hd, hds⟩
    · simp [hnil] at hmem
    · rw [heq] at hmem
      simp only [List.mem_cons, List.mem_append] at hmem
      rcases hmem with rfl | hmem | rfl | hmem
      · rcases he with he | he <;> cases he
      · rcases hs with rfl | ⟨c, hc, rfl⟩
        · cases hmem
        · rw [List.mem_singleton] at hmem
          subst hmem
          cases hc
      · cases hd
      · cases hds '.' hmem
  rcases parts.fraction_form with hnil | ⟨d, ds, heq, -⟩
  · simp [chars, hfront, hexponent, hnil]
  · simp [chars, heq]

theorem ends_numeral_iff (parts : Parts) (rest : List Char) :
    parts.numeral.Ends rest ↔ rest.head?.any Char.isDigit = false ∧
      (parts.exponent = [] → (readExponent rest).1 = []) ∧
      (parts.exponent = [] → parts.fraction = [] → (readFraction rest).1 = []) := by
  unfold Ends
  rw [hasExponent_numeral, toList_numeral_text, point_mem_chars]
  simp only [ne_eq, Decidable.not_not]

end Parts

theorem proper_read {text : List Char} (h : starts text = true) : (read text).1.Proper :=
  ⟨partsOf text h, rfl⟩

theorem head_readFraction {text : List Char} (h : text.head?.any Char.isDigit = false) :
    (readFraction text).2.head?.any Char.isDigit = false := by
  unfold readFraction
  split
  · split
    · exact head_readDigits _
    · exact h
  · exact h

theorem head_readExponent {text : List Char} (h : text.head?.any Char.isDigit = false) :
    (readExponent text).2.head?.any Char.isDigit = false := by
  unfold readExponent
  split
  · dsimp only
    split
    · exact head_readDigits _
    · exact h
  · exact h

theorem readFraction_snd_of_nil {text : List Char} (h : (readFraction text).1 = []) :
    (readFraction text).2 = text := by
  simpa [h] using readFraction_append text

theorem readExponent_snd_of_nil {text : List Char} (h : (readExponent text).1 = []) :
    (readExponent text).2 = text := by
  simpa [h] using readExponent_append text

/-- Whatever reading a number leaves does not continue it. -/
theorem ends_read {text : List Char} (h : starts text = true) :
    (read text).1.Ends (read text).2 := by
  rw [read_fst h, Parts.ends_numeral_iff, read_snd]
  refine ⟨head_readExponent (head_readFraction (head_readDigits _)), ?_, ?_⟩
  · intro hexponent
    rw [readExponent_snd_of_nil hexponent]
    exact hexponent
  · intro hexponent hfraction
    rw [readExponent_snd_of_nil hexponent, readFraction_snd_of_nil hfraction]
    exact hfraction

theorem readSign_append_of_head {sign rest : List Char}
    (h : sign = [] ∨ ∃ c, isSign c = true ∧ sign = [c])
    (hrest : rest.head?.any isSign = false) : readSign (sign ++ rest) = (sign, rest) := by
  rcases h with rfl | ⟨c, hc, rfl⟩
  · cases rest with
    | nil => rfl
    | cons c rest =>
      have hc : isSign c = false := by simpa using hrest
      simp [readSign, hc]
  · simp [readSign, hc]

theorem isSign_of_isDigit {d : Char} (h : d.isDigit = true) : isSign d = false := by
  unfold isSign
  simp only [Bool.or_eq_false_iff, decide_eq_false_iff_not]
  constructor <;> rintro rfl <;> exact absurd h (by decide)

namespace Parts

variable {rest : List Char}

theorem readExponent_append (parts : Parts) (hdigit : rest.head?.any Char.isDigit = false)
    (hexponent : parts.exponent = [] → (readExponent rest).1 = []) :
    readExponent (parts.exponent ++ rest) = (parts.exponent, rest) := by
  rcases parts.exponent_form with hnil | ⟨e, s, d, ds, heq, he, hs, hd, hds⟩
  · have hrest := hexponent hnil
    rw [hnil, List.nil_append, Prod.ext_iff]
    exact ⟨hrest, readExponent_snd_of_nil hrest⟩
  · have hrun : ∀ x ∈ d :: ds, x.isDigit = true := by
      intro x hx
      rcases List.mem_cons.1 hx with rfl | hx
      · exact hd
      · exact hds x hx
    have hsign : readSign (s ++ (d :: ds ++ rest)) = (s, d :: ds ++ rest) :=
      readSign_append_of_head hs (by simp [isSign_of_isDigit hd])
    have hdigits := readDigits_append_of_head hrun hdigit
    rw [heq, List.cons_append, List.append_assoc, readExponent, hsign]
    rcases he with rfl | rfl <;> simp only [hdigits] <;> simp

theorem readFraction_append (parts : Parts) (hdigit : rest.head?.any Char.isDigit = false)
    (hfraction : parts.exponent = [] → parts.fraction = [] → (readFraction rest).1 = []) :
    readFraction (parts.fraction ++ (parts.exponent ++ rest)) =
      (parts.fraction, parts.exponent ++ rest) := by
  have hhead : (parts.exponent ++ rest).head?.any Char.isDigit = false := by
    rcases parts.exponent_form with hnil | ⟨e, s, d, ds, heq, he, -⟩
    · simpa [hnil] using hdigit
    · rcases he with rfl | rfl <;> simp [heq]
  rcases parts.fraction_form with hnil | ⟨d, ds, heq, hd, hds⟩
  · rw [hnil, List.nil_append]
    rcases parts.exponent_form with hexponent | ⟨e, s, d, ds, heq, he, -⟩
    · have hrest := hfraction hexponent hnil
      rw [hexponent, List.nil_append, Prod.ext_iff]
      exact ⟨hrest, readFraction_snd_of_nil hrest⟩
    · rcases he with rfl | rfl <;> simp [heq, readFraction]
  · have hdigits := readDigits_append_of_head hds hhead
    rw [heq]
    simp [readFraction, hd, hdigits]

/-- A number is read back in front of whatever does not continue it. -/
theorem read_append (parts : Parts) (h : parts.numeral.Ends rest) :
    read (parts.chars ++ rest) = (parts.numeral, rest) := by
  rw [ends_numeral_iff] at h
  obtain ⟨hdigit, hexponent, hfraction⟩ := h
  have hexponentRead := parts.readExponent_append hdigit hexponent
  have hfractionRead := parts.readFraction_append hdigit hfraction
  have hwholeRead : readDigits (parts.whole ++ (parts.fraction ++ (parts.exponent ++ rest))) =
      (parts.whole, parts.fraction ++ (parts.exponent ++ rest)) := by
    refine readDigits_append_of_head parts.whole_form ?_
    rcases parts.fraction_form with hnil | ⟨d, ds, heq, -⟩
    · rcases parts.exponent_form with hexponent | ⟨e, s, d, ds, heq, he, -⟩
      · simpa [hnil, hexponent] using hdigit
      · rcases he with rfl | rfl <;> simp [hnil, heq]
    · simp [heq]
  have hsignRead : readSign (parts.chars ++ rest) =
      (parts.sign, parts.whole ++ (parts.fraction ++ (parts.exponent ++ rest))) := by
    unfold chars
    simp only [List.append_assoc]
    refine readSign_append_of_head parts.sign_form ?_
    cases hwhole : parts.whole with
    | nil =>
      rcases parts.fraction_form with hnil | ⟨d, ds, heq, -⟩
      · exact absurd hnil (parts.some_digit hwhole)
      · simp [heq, isSign]
    | cons d ds =>
      have hd := parts.whole_form d (by rw [hwhole]; exact List.mem_cons_self)
      simp [isSign_of_isDigit hd]
  simp only [read, hsignRead, hwholeRead, hfractionRead, hexponentRead]
  rfl

/-- What a number begins with: a sign, a digit, or the point of a fraction. -/
theorem starts_append (parts : Parts) (rest : List Char) :
    starts (parts.chars ++ rest) = true := by
  have hhead : startsUnsigned (parts.whole ++ (parts.fraction ++ (parts.exponent ++ rest))) = true ∧
      (parts.whole ++ (parts.fraction ++ (parts.exponent ++ rest))).head?.any isSign = false := by
    cases hwhole : parts.whole with
    | nil =>
      rcases parts.fraction_form with hnil | ⟨d, ds, heq, hd, -⟩
      · exact absurd hnil (parts.some_digit hwhole)
      · simp [heq, startsUnsigned, hd, isSign]
    | cons d ds =>
      have hd := parts.whole_form d (by rw [hwhole]; exact List.mem_cons_self)
      refine ⟨?_, by simp [isSign_of_isDigit hd]⟩
      rw [List.cons_append]
      unfold startsUnsigned
      split
      · next heq =>
        rw [List.cons.injEq] at heq
        rw [heq.1] at hd
        exact absurd hd (by decide)
      · next heq =>
        rw [List.cons.injEq] at heq
        rw [← heq.1]
        exact hd
      · next heq => cases heq
  unfold starts chars
  simp only [List.append_assoc]
  rw [readSign_append_of_head parts.sign_form hhead.2]
  exact hhead.1

end Parts

namespace Proper

variable {value : Numeral} {rest : List Char}

theorem starts_append (h : value.Proper) (rest : List Char) :
    starts (value.text.toList ++ rest) = true := by
  obtain ⟨parts, rfl⟩ := h
  rw [Parts.toList_numeral_text]
  exact parts.starts_append rest

theorem read_append_iff (h : value.Proper) :
    read (value.text.toList ++ rest) = (value, rest) ↔ value.Ends rest := by
  constructor
  · intro hread
    have hends := ends_read (h.starts_append rest)
    rwa [hread] at hends
  · intro hends
    obtain ⟨parts, rfl⟩ := h
    rw [Parts.toList_numeral_text]
    exact parts.read_append hends

end Proper

/-- The characters that numbers are written with. -/
theorem Proper.cases_of_mem {value : Numeral} (h : value.Proper) {c : Char}
    (hmem : c ∈ value.text.toList) :
    c.isDigit = true ∨ isSign c = true ∨ c = '.' ∨ c = 'e' ∨ c = 'E' := by
  obtain ⟨parts, rfl⟩ := h
  have hsign : ∀ sign : List Char, (sign = [] ∨ ∃ s, isSign s = true ∧ sign = [s]) → c ∈ sign →
      isSign c = true := by
    rintro sign (rfl | ⟨s, hs, rfl⟩) hmem
    · cases hmem
    · rwa [List.mem_singleton.1 hmem]
  rw [Parts.toList_numeral_text] at hmem
  simp only [Parts.chars, List.mem_append] at hmem
  rcases hmem with hmem | hmem | hmem | hmem
  · exact .inr (.inl (hsign _ parts.sign_form hmem))
  · exact .inl (parts.whole_form c hmem)
  · rcases parts.fraction_form with hnil | ⟨d, ds, heq, hd, hds⟩
    · rw [hnil] at hmem
      cases hmem
    · rw [heq] at hmem
      rcases List.mem_cons.1 hmem with rfl | hmem
      · exact .inr (.inr (.inl rfl))
      · rcases List.mem_cons.1 hmem with rfl | hmem
        · exact .inl hd
        · exact .inl (hds _ hmem)
  · rcases parts.exponent_form with hnil | ⟨e, s, d, ds, heq, he, hs, hd, hds⟩
    · rw [hnil] at hmem
      cases hmem
    · rw [heq] at hmem
      rcases List.mem_cons.1 hmem with rfl | hmem
      · rcases he with rfl | rfl <;> simp
      · rcases List.mem_append.1 hmem with hmem | hmem
        · exact .inr (.inl (hsign _ hs hmem))
        · rcases List.mem_cons.1 hmem with rfl | hmem
          · exact .inl hd
          · exact .inl (hds _ hmem)

end DeepScope.Numeral
