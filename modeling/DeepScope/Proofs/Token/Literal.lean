import DeepScope.Proofs.Token.Escape
import DeepScope.Token.QuotedString
import DeepScope.Token.Url

namespace DeepScope

namespace QuotedString

theorem read_escape {quote c d : Char} {rest : List Char} {k : Nat} (hd : d ≠ '\n')
    (h : Escape.read (d :: rest) = some (c, k)) :
    read quote ('\\' :: d :: rest) =
      (read quote ((d :: rest).drop k)).map fun (text, n) => (c :: text, k + n + 1) := by
  rw [read]
  · rw [h]
    dsimp only
    cases read quote ((d :: rest).drop k) <;> rfl
  · exact hd

theorem read_char {quote c : Char} {rest : List Char} (hquote : c ≠ quote) (hslash : c ≠ '\\')
    (hline : c ≠ '\n') :
    read quote (c :: rest) = (read quote rest).map fun (text, n) => (c :: text, n + 1) := by
  rw [read, if_neg hquote, if_neg hline]
  · cases read quote rest <;> rfl
  · intro hc
    exact absurd hc hslash
  · intro tail hc
    exact absurd hc hslash
  · intro d tail hc
    exact absurd hc hslash

/-- A string without escapes is read as it stands, unless a line feed cuts it short. -/
theorem read_plain_append_iff {quote : Char} {text chars rest : List Char} {n : Nat}
    (hquote : quote ∉ text) (hslash : '\\' ∉ text) (hne : quote ≠ '\\') :
    read quote (text ++ quote :: rest) = .ok (chars, n) ↔
      '\n' ∉ text ∧ chars = text ∧ n = text.length + 1 := by
  induction text generalizing chars n with
  | nil =>
    rw [List.nil_append, read, if_pos rfl]
    · simp [eq_comm]
    all_goals simp [hne]
  | cons c text ih =>
    rw [List.mem_cons, not_or] at hquote hslash
    by_cases hline : c = '\n'
    · rw [List.cons_append, read, if_neg (Ne.symm hquote.1), if_pos hline]
      · simp [hline]
      all_goals simp [Ne.symm hslash.1]
    · rw [List.cons_append, read_char (Ne.symm hquote.1) (Ne.symm hslash.1) hline, List.mem_cons,
        not_or]
      constructor
      · intro hread
        obtain ⟨⟨found, k⟩, hfound, heq⟩ := exists_of_map_eq_ok hread
        obtain ⟨hno, rfl, rfl⟩ := (ih hquote.2 hslash.2).1 hfound
        cases heq
        exact ⟨⟨Ne.symm hline, hno⟩, rfl, rfl⟩
      · rintro ⟨⟨-, hno⟩, rfl, rfl⟩
        rw [(ih hquote.2 hslash.2).2 ⟨hno, rfl, rfl⟩]
        rfl

theorem read_hex_append {quote c : Char} (h : c ≠ '\x00') (rest : List Char) :
    read quote (Escape.hex c ++ rest) =
      (read quote rest).map fun (text, n) => (c :: text, (Escape.hex c).length + n) := by
  obtain ⟨d, text, k, heq, hd, hread, hdrop, hlen⟩ := Escape.hex_append h rest
  rw [heq, read_escape hd hread, hdrop, hlen]
  congr 1
  funext ⟨text, n⟩
  simp only [Prod.mk.injEq, true_and]
  omega

theorem read_writeChar_append {c : Char} (h : c ≠ '\x00') (rest : List Char) :
    read '"' (writeChar c ++ rest) =
      (read '"' rest).map fun (text, n) => (c :: text, (writeChar c).length + n) := by
  unfold writeChar
  rw [if_neg h]
  split
  · exact read_hex_append h rest
  · next hcontrol =>
    have hline : c ≠ '\n' := by
      rintro rfl
      exact hcontrol (by decide)
    split
    · next hspecial =>
      have hescape : Escape.read (c :: rest) = some (c, 1) := by
        simp only [Bool.or_eq_true, decide_eq_true_eq] at hspecial
        rcases hspecial with rfl | rfl <;> simp [Escape.read, isHexDigit]
      simp only [List.cons_append, List.nil_append]
      rw [read_escape hline hescape]
      congr 1
      funext pair
      obtain ⟨text, n⟩ := pair
      simp only [List.length_cons, List.length_nil, Prod.mk.injEq, true_and]
      omega
    · next hspecial =>
      simp only [Bool.or_eq_true, decide_eq_true_eq, not_or] at hspecial
      rw [List.singleton_append, read_char hspecial.1 hspecial.2 hline]
      congr 1
      funext pair
      obtain ⟨text, n⟩ := pair
      simp only [List.length_singleton, Nat.add_comm]

/-- A string is read back up to its closing quote. -/
theorem read_write_append {text : List Char} (h : '\x00' ∉ text) (rest : List Char) :
    read '"' (text.flatMap writeChar ++ '"' :: rest) =
      .ok (text, (text.flatMap writeChar).length + 1) := by
  induction text with
  | nil => simp [read]
  | cons c text ih =>
    rw [List.mem_cons, not_or] at h
    rw [List.flatMap_cons, List.append_assoc, read_writeChar_append (Ne.symm h.1), ih h.2]
    simp only [Except.map, List.length_append, Except.ok.injEq, Prod.mk.injEq, true_and]
    omega

end QuotedString

namespace Url

variable {start rest : List Char}

theorem isWhiteSpace_of_isBlank {c : Char} (h : isBlank c = true) : isWhiteSpace c = true := by
  simp only [isBlank, Bool.or_eq_true, decide_eq_true_eq] at h
  rcases h with (rfl | rfl) | rfl <;> decide

theorem isControl_of_isNonPrintable {c : Char} (h : isNonPrintable c = true) :
    isControl c = true := by
  simp only [isNonPrintable, isControl, Bool.or_eq_true, Bool.and_eq_true,
    decide_eq_true_eq] at h ⊢
  omega

theorem readAddress_escape {c : Char} {text : List Char} {k : Nat}
    (hfollows : Escape.follows text = true) (h : Escape.read text = some (c, k)) :
    readAddress start ('\\' :: text) =
      (readAddress start (text.drop k)).map fun (address, n) => (c :: address, k + n + 1) := by
  rw [readAddress, if_neg (by decide), if_neg (by decide), if_pos rfl, if_pos hfollows, h]
  dsimp only
  cases readAddress start (text.drop k) <;> rfl

theorem readAddress_char {c : Char} (hend : c ≠ ')') (hquote : QuotedString.isQuote c = false)
    (hopen : c ≠ '(') (hprint : isNonPrintable c = false) (hslash : c ≠ '\\')
    (hblank : isBlank c = false) :
    readAddress start (c :: rest) =
      (readAddress start rest).map fun (address, n) => (c :: address, n + 1) := by
  rw [readAddress, if_neg hend, if_neg (by simp [hquote, hopen, hprint]), if_neg hslash,
    if_neg (by simp [hblank])]
  cases readAddress start rest <;> rfl

theorem readAddress_writeChar_append {c : Char} (h : c ≠ '\x00') :
    readAddress start (writeChar c ++ rest) =
      (readAddress start rest).map fun (address, n) =>
        (c :: address, (writeChar c).length + n) := by
  unfold writeChar
  rw [if_neg h]
  split
  · obtain ⟨d, text, k, heq, hd, hread, hdrop, hlen⟩ := Escape.hex_append h rest
    rw [heq, readAddress_escape (by simp [Escape.follows, hd]) hread, hdrop, hlen]
    congr 1
    funext ⟨address, n⟩
    simp only [Prod.mk.injEq, true_and]
    omega
  · next hplain =>
    simp only [Bool.or_eq_true, not_or, Bool.not_eq_true] at hplain
    split
    · next hspecial =>
      have hread : Escape.follows (c :: rest) = true ∧ Escape.read (c :: rest) = some (c, 1) := by
        simp only [List.mem_cons, List.not_mem_nil, or_false] at hspecial
        rcases hspecial with rfl | rfl | rfl | rfl | rfl <;>
          simp [Escape.follows, Escape.read, isHexDigit]
      rw [List.cons_append, List.singleton_append, readAddress_escape hread.1 hread.2]
      congr 1
      funext ⟨address, n⟩
      simp only [List.length_cons, List.length_nil, Prod.mk.injEq, true_and]
      omega
    · next hspecial =>
      simp only [List.mem_cons, List.not_mem_nil, or_false, not_or] at hspecial
      obtain ⟨hdouble, hsingle, hopen, hend, hslash⟩ := hspecial
      have hprint : isNonPrintable c = false := by
        rw [Bool.eq_false_iff]
        intro hprint
        simp [isControl_of_isNonPrintable hprint] at hplain
      have hblank : isBlank c = false := by
        rw [Bool.eq_false_iff]
        intro hblank
        simp [isWhiteSpace_of_isBlank hblank] at hplain
      rw [List.singleton_append, readAddress_char hend
        (by simp [QuotedString.isQuote, hdouble, hsingle]) hopen hprint hslash hblank]
      congr 1
      funext ⟨address, n⟩
      simp only [List.length_singleton, Nat.add_comm]

/-- An address is read back up to its parenthesis. -/
theorem readAddress_write_append {address : List Char} (start rest : List Char)
    (h : '\x00' ∉ address) :
    readAddress start (write address ++ ')' :: rest) =
      .ok (address, (write address).length + 1) := by
  unfold write
  induction address with
  | nil => simp [readAddress]
  | cons c address ih =>
    rw [List.mem_cons, not_or] at h
    rw [List.flatMap_cons, List.append_assoc, readAddress_writeChar_append (Ne.symm h.1), ih h.2]
    simp only [Except.map, List.length_append, Except.ok.injEq, Prod.mk.injEq, true_and]
    omega

/-- What a written address begins with is no blank and no quote. -/
theorem head_write_append {address : List Char} (rest : List Char) (h : '\x00' ∉ address) :
    ∃ c text, write address ++ ')' :: rest = c :: text ∧ isBlank c = false ∧
      QuotedString.isQuote c = false := by
  cases address with
  | nil => exact ⟨')', rest, rfl, by decide, by decide⟩
  | cons c address =>
    rw [List.mem_cons, not_or] at h
    unfold write
    rw [List.flatMap_cons, List.append_assoc]
    generalize List.flatMap writeChar address ++ ')' :: rest = tail
    unfold writeChar
    rw [if_neg (Ne.symm h.1)]
    split
    · obtain ⟨d, text, k, heq, -⟩ := Escape.hex_append (Ne.symm h.1) tail
      exact ⟨'\\', d :: text, heq, by decide, by decide⟩
    · next hplain =>
      simp only [Bool.or_eq_true, not_or, Bool.not_eq_true] at hplain
      split
      · exact ⟨'\\', c :: tail, rfl, by decide, by decide⟩
      · next hspecial =>
        simp only [List.mem_cons, List.not_mem_nil, or_false, not_or] at hspecial
        refine ⟨c, tail, rfl, ?_, by simp [QuotedString.isQuote, hspecial]⟩
        rw [Bool.eq_false_iff]
        intro hblank
        simp [isWhiteSpace_of_isBlank hblank] at hplain

/-- An address is told from a quoted one, and read without the blanks in front
    of it, of which a written address has none. -/
theorem read_write_append {address : List Char} (start rest : List Char)
    (h : '\x00' ∉ address) :
    isQuoted (write address ++ ')' :: rest) = false ∧
      read start (write address ++ ')' :: rest) = .ok (address, (write address).length + 1) := by
  obtain ⟨c, text, heq, hblank, hquote⟩ := head_write_append rest h
  have hread := readAddress_write_append start rest h
  unfold isQuoted read leadingBlanks
  rw [heq] at hread ⊢
  simp [hblank, hquote, hread, bind, Except.bind, pure, Except.pure]

end Url

end DeepScope
