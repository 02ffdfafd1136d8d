import DeepScope.Proofs.Text.Source
import DeepScope.Proofs.Token.Legible
import DeepScope.Token.Writer

namespace DeepScope

theorem isClean_of_not_control {c : Char} (hnull : c ≠ '\x00') (h : isAsciiControl c = false) :
    Source.IsClean c := by
  refine ⟨hnull, ?_, ?_⟩ <;>
    · rintro rfl
      cases h

theorem isAsciiControl_of_not_isControl {c : Char} (h : isControl c = false) :
    isAsciiControl c = false := by
  simp only [isControl, isAsciiControl, Bool.or_eq_false_iff, Bool.and_eq_false_iff,
    decide_eq_false_iff_not] at h ⊢
  omega

theorem isClean_of_isNameChar {c : Char} (h : isNameChar c = true) : Source.IsClean c := by
  refine ⟨?_, ?_, ?_⟩ <;>
    · rintro rfl
      cases h

theorem isClean_of_mem_escaped {c d : Char} (hc : Source.IsClean c) (h : d ∈ ['\\', c]) :
    Source.IsClean d :=
  List.forall_mem_cons.2 ⟨by decide, List.forall_mem_singleton.2 hc⟩ d h

/-- A text is written cleanly if each of its characters is. -/
theorem isClean_of_mem_flatMap {write : Char → List Char} {text : List Char} {d : Char}
    (hwrite : ∀ {c}, c ≠ '\x00' → d ∈ write c → Source.IsClean d) (hnull : '\x00' ∉ text)
    (h : d ∈ text.flatMap write) : Source.IsClean d := by
  obtain ⟨c, hc, hd⟩ := List.mem_flatMap.1 h
  refine hwrite ?_ hd
  rintro rfl
  exact hnull hc

theorem Escape.isClean_of_mem_hex {c d : Char} (h : d ∈ hex c) : Source.IsClean d := by
  rcases List.mem_cons.1 h with rfl | h
  · decide
  · rcases List.mem_append.1 h with h | h
    · exact isClean_of_isNameChar (isNameChar_of_isHexDigit (isHexDigit_of_mem_hex h))
    · rw [List.mem_singleton.1 h]
      decide

namespace Name

theorem isClean_of_mem_writeChar {c d : Char} (hnull : c ≠ '\x00') (h : d ∈ writeChar c) :
    Source.IsClean d := by
  unfold writeChar at h
  rw [if_neg hnull] at h
  split at h
  · exact Escape.isClean_of_mem_hex h
  · next hcontrol =>
    have hc := isClean_of_not_control hnull (by simpa using hcontrol)
    split at h
    · rwa [List.mem_singleton.1 h]
    · exact isClean_of_mem_escaped hc h

theorem isClean_of_mem_writeLoose {name : List Char} {d : Char} (hnull : '\x00' ∉ name)
    (h : d ∈ writeLoose name) : Source.IsClean d :=
  isClean_of_mem_flatMap isClean_of_mem_writeChar hnull h

theorem isClean_of_mem_write {name : List Char} {d : Char} (hnull : '\x00' ∉ name)
    (h : d ∈ write name) : Source.IsClean d := by
  have hfirst : ∀ c rest, '\x00' ∉ c :: rest →
      d ∈ (if c.isDigit then Escape.hex c ++ writeLoose rest else writeChar c ++ writeLoose rest) →
      Source.IsClean d := by
    intro c rest hnull hmem
    rw [List.mem_cons, not_or] at hnull
    split at hmem
    · rcases List.mem_append.1 hmem with hmem | hmem
      · exact Escape.isClean_of_mem_hex hmem
      · exact isClean_of_mem_writeLoose hnull.2 hmem
    · rcases List.mem_append.1 hmem with hmem | hmem
      · exact isClean_of_mem_writeChar (Ne.symm hnull.1) hmem
      · exact isClean_of_mem_writeLoose hnull.2 hmem
  unfold write at h
  split at h
  · exact Source.isClean_of_mem_of_all (by decide) h
  · next c rest =>
    rw [List.mem_cons, not_or] at hnull
    by_cases hd : d = '-'
    · rw [hd]
      decide
    · refine hfirst c rest hnull.2 ?_
      split at h
      · next hdigit => simpa [hdigit, hd] using h
      · next hdigit => simpa [hdigit, hd] using h
  · next c rest _ _ => exact hfirst c rest hnull h
  · cases h

theorem isClean_of_mem_writeUnit {unit : List Char} {d : Char} (hnull : '\x00' ∉ unit)
    (h : d ∈ writeUnit unit) : Source.IsClean d := by
  unfold writeUnit at h
  split at h
  · next e rest =>
    split at h
    · rw [List.mem_cons, not_or] at hnull
      rcases List.mem_append.1 h with h | h
      · exact Escape.isClean_of_mem_hex h
      · exact isClean_of_mem_writeLoose hnull.2 h
    · exact isClean_of_mem_write hnull h
  · cases h

end Name

theorem QuotedString.isClean_of_mem_writeChar {c d : Char} (hnull : c ≠ '\x00')
    (h : d ∈ writeChar c) : Source.IsClean d := by
  unfold writeChar at h
  rw [if_neg hnull] at h
  split at h
  · exact Escape.isClean_of_mem_hex h
  · next hcontrol =>
    have hc := isClean_of_not_control hnull (by simpa using hcontrol)
    split at h
    · exact isClean_of_mem_escaped hc h
    · rwa [List.mem_singleton.1 h]

theorem Url.isClean_of_mem_writeChar {c d : Char} (hnull : c ≠ '\x00') (h : d ∈ writeChar c) :
    Source.IsClean d := by
  unfold writeChar at h
  rw [if_neg hnull] at h
  split at h
  · exact Escape.isClean_of_mem_hex h
  · next hcontrol =>
    simp only [Bool.or_eq_true, not_or, Bool.not_eq_true] at hcontrol
    have hc := isClean_of_not_control hnull (isAsciiControl_of_not_isControl hcontrol.2)
    split at h
    · exact isClean_of_mem_escaped hc h
    · rwa [List.mem_singleton.1 h]

theorem Numeral.Proper.isClean_of_mem {value : Numeral} (hvalue : value.Proper) {c : Char}
    (h : c ∈ value.text.toList) : Source.IsClean c := by
  rcases hvalue.cases_of_mem h with hdigit | hsign | rfl | rfl | rfl
  · exact isClean_of_isNameChar (isNameChar_of_isDigit hdigit)
  · simp only [isSign, Bool.or_eq_true, decide_eq_true_eq] at hsign
    rcases hsign with rfl | rfl <;> decide
  all_goals decide

/-- What a token is written with is read as it stands. -/
theorem Token.isClean_of_mem_chars {token : Token} (h : token.Legible) {c : Char}
    (hc : c ∈ token.chars) : Source.IsClean c := by
  suffices hall : ∀ d ∈ token.chars, Source.IsClean d from hall c hc
  have hfixed : ∀ {text : List Char}, text.all (Source.IsClean ·) = true →
      ∀ d ∈ text, Source.IsClean d := fun h d => Source.isClean_of_mem_of_all h
  cases token with
  | ident name => exact fun d => Name.isClean_of_mem_write h.2
  | function name =>
    exact List.forall_mem_append.2 ⟨fun d => Name.isClean_of_mem_write h.2, hfixed (by decide)⟩
  | atKeyword name =>
    exact List.forall_mem_cons.2 ⟨by decide, fun d => Name.isClean_of_mem_write h.2⟩
  | hash name kind =>
    cases kind with
    | id => exact List.forall_mem_cons.2 ⟨by decide, fun d => Name.isClean_of_mem_write h.2⟩
    | unrestricted =>
      exact List.forall_mem_cons.2 ⟨by decide, fun d => Name.isClean_of_mem_writeLoose h.1⟩
  | string text =>
    have htext : ∀ d ∈ text.toList.flatMap QuotedString.writeChar, Source.IsClean d :=
      fun d => isClean_of_mem_flatMap QuotedString.isClean_of_mem_writeChar h
    exact List.forall_mem_cons.2 ⟨by decide, List.forall_mem_append.2 ⟨htext, hfixed (by decide)⟩⟩
  | url address =>
    have haddress : ∀ d ∈ address.toList.flatMap Url.writeChar, Source.IsClean d :=
      fun d => isClean_of_mem_flatMap Url.isClean_of_mem_writeChar h
    exact List.forall_mem_append.2
      ⟨List.forall_mem_append.2 ⟨hfixed (by decide), haddress⟩, hfixed (by decide)⟩
  | delim d => exact List.forall_mem_singleton.2 h.2.2.2.2.1
  | number value => exact fun d => Numeral.Proper.isClean_of_mem h
  | percentage value =>
    exact List.forall_mem_append.2 ⟨fun d => Numeral.Proper.isClean_of_mem h, hfixed (by decide)⟩
  | dimension value unit =>
    exact List.forall_mem_append.2 ⟨fun d => Numeral.Proper.isClean_of_mem h.1,
      fun d => Name.isClean_of_mem_writeUnit h.2.2⟩
  | _ => exact hfixed (by decide)

end DeepScope
