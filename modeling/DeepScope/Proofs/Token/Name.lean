import DeepScope.Proofs.Token.Escape
import DeepScope.Token.Name

namespace DeepScope

theorem isAlpha_iff {c : Char} :
    c.isAlpha = true ↔ 65 ≤ c.toNat ∧ c.toNat ≤ 90 ∨ 97 ≤ c.toNat ∧ c.toNat ≤ 122 := by
  have hclasses : c.isAlpha = (decide (c.val ≥ 'A'.val ∧ c.val ≤ 'Z'.val) ||
      decide (c.val ≥ 'a'.val) && decide (c.val ≤ 'z'.val)) := rfl
  simp only [hclasses, Bool.or_eq_true, Bool.and_eq_true, decide_eq_true_eq, ge_iff_le,
    UInt32.le_iff_toNat_le, Char.reduceVal, UInt32.reduceToNat]
  exact Iff.rfl

theorem isNameChar_of_isDigit {c : Char} (h : c.isDigit = true) : isNameChar c = true := by
  simp [isNameChar, h]

theorem isNameChar_of_isHexDigit {c : Char} (h : isHexDigit c = true) : isNameChar c = true := by
  by_cases hdigit : c.isDigit = true
  · exact isNameChar_of_isDigit hdigit
  · have halpha : c.isAlpha = true := by
      simp only [isHexDigit, hdigit, Bool.false_or, Bool.or_eq_true, Bool.and_eq_true,
        decide_eq_true_eq, Char.le_def, UInt32.le_iff_toNat_le, Char.reduceVal,
        UInt32.reduceToNat] at h
      rw [isAlpha_iff]
      unfold Char.toNat
      omega
    simp [isNameChar, isNameStart, halpha]

namespace Name

/-- A text that is read as part of a name, whatever stands behind it. -/
def Spells (text name : List Char) : Prop :=
  ∀ rest, read (text ++ rest) =
    (read rest).map fun (more, n) => (name ++ more, text.length + n)

theorem Spells.append {text text' name name' : List Char} (h : Spells text name)
    (h' : Spells text' name') : Spells (text ++ text') (name ++ name') := by
  intro rest
  rw [List.append_assoc, h, h', Option.map_map]
  congr 1
  funext ⟨more, n⟩
  simp only [Function.comp, List.append_assoc, List.length_append, Nat.add_assoc]

theorem spells_nil : Spells [] [] := by
  intro rest
  simp

theorem spells_char {c : Char} (h : isNameChar c = true) : Spells [c] [c] := by
  intro rest
  rw [List.singleton_append, read, if_pos h]
  cases read rest with
  | none => rfl
  | some pair => simp [Nat.add_comm]

/-- An escape is read as the character that it stands for. -/
theorem read_backslash {c : Char} {text : List Char} {k : Nat}
    (hfollows : Escape.follows text = true) (hread : Escape.read text = some (c, k)) :
    read ('\\' :: text) = (read (text.drop k)).map fun (more, n) => (c :: more, k + n + 1) := by
  rw [read, if_neg (by decide), if_pos (by simp [hfollows]), hread]
  simp only [Option.bind_eq_bind, Option.bind_some]
  cases read (text.drop k) <;> rfl

theorem spells_hex {c : Char} (h : c ≠ '\x00') : Spells (Escape.hex c) [c] := by
  intro rest
  obtain ⟨d, text, k, heq, hd, hread, hdrop, hlen⟩ := Escape.hex_append h rest
  rw [heq, read_backslash (by simp [Escape.follows, hd]) hread, hdrop, hlen]
  congr 1
  funext pair
  obtain ⟨more, n⟩ := pair
  simp only [List.singleton_append, Prod.mk.injEq, true_and]
  omega

theorem spells_backslash {c : Char} (hhex : isHexDigit c = false) (hline : c ≠ '\n') :
    Spells ['\\', c] [c] := by
  intro rest
  have hread : Escape.read (c :: rest) = some (c, 1) := by simp [Escape.read, hhex]
  rw [List.cons_append, List.singleton_append,
    read_backslash (by simp [Escape.follows, hline]) hread]
  congr 1
  funext pair
  obtain ⟨more, n⟩ := pair
  simp only [List.singleton_append, List.length_cons, List.length_nil, Prod.mk.injEq, true_and]
  omega

/-- What is no name character is no control character when it is escaped as it
    stands, so the backslash in front of it makes an escape. -/
theorem spells_writeChar {c : Char} (h : c ≠ '\x00') : Spells (writeChar c) [c] := by
  unfold writeChar
  rw [if_neg h]
  split
  · exact spells_hex h
  · next hcontrol =>
    split
    · next hchar => exact spells_char hchar
    · next hchar =>
      refine spells_backslash ?_ ?_
      · rw [Bool.eq_false_iff]
        exact fun hhex => hchar (isNameChar_of_isHexDigit hhex)
      · rintro rfl
        exact hcontrol (by decide)

theorem spells_writeLoose {name : List Char} (h : '\x00' ∉ name) :
    Spells (writeLoose name) name := by
  induction name with
  | nil => exact spells_nil
  | cons c rest ih =>
    rw [List.mem_cons, not_or] at h
    exact (spells_writeChar (Ne.symm h.1)).append (ih h.2)

theorem spells_write {name : List Char} (h : '\x00' ∉ name) : Spells (write name) name := by
  unfold write
  split
  · exact spells_backslash (by decide) (by decide)
  · next c rest _ =>
    simp only [List.mem_cons, not_or] at h
    have hdash : Spells ['-'] ['-'] := spells_char (by decide)
    split
    · exact hdash.append ((spells_hex (Ne.symm h.2.1)).append (spells_writeLoose h.2.2))
    · exact hdash.append ((spells_writeChar (Ne.symm h.2.1)).append (spells_writeLoose h.2.2))
  · next c rest _ _ =>
    simp only [List.mem_cons, not_or] at h
    split
    · exact (spells_hex (Ne.symm h.1)).append (spells_writeLoose h.2)
    · exact (spells_writeChar (Ne.symm h.1)).append (spells_writeLoose h.2)
  · exact spells_nil

theorem spells_writeUnit {unit : List Char} (h : '\x00' ∉ unit) :
    Spells (writeUnit unit) unit := by
  unfold writeUnit
  split
  · next e rest =>
    split
    · simp only [List.mem_cons, not_or] at h
      exact (spells_hex (Ne.symm h.1)).append (spells_writeLoose h.2)
    · exact spells_write h
  · exact spells_nil

theorem read_of_not_continues {rest : List Char} (h : continues rest = false) :
    read rest = some ([], 0) := by
  cases rest with
  | nil => rw [read]
  | cons c rest =>
    have hchar : ¬isNameChar c = true := by
      intro hchar
      unfold continues at h
      split at h
      · next heq =>
        cases heq
        exact absurd hchar (by decide)
      · next heq =>
        cases heq
        simp [hchar] at h
      · next heq => cases heq
    have hescape : ¬(decide (c = '\\') && Escape.follows rest) = true := by
      intro hescape
      simp only [Bool.and_eq_true, decide_eq_true_eq] at hescape
      obtain ⟨rfl, hfollows⟩ := hescape
      simp [continues, hfollows] at h
    rw [read, if_neg hchar, if_neg hescape]

theorem Spells.read_append {text name rest : List Char} (h : Spells text name)
    (hstop : continues rest = false) : read (text ++ rest) = some (name, text.length) := by
  rw [h, read_of_not_continues hstop]
  simp

/-- What a text that starts a name begins with. -/
theorem exists_cons_of_starts {text : List Char} (h : starts text = true) :
    ∃ c rest, text = c :: rest ∧ (isNameStart c = true ∨ c = '\\' ∨ c = '-') := by
  unfold starts at h
  split at h
  · exact ⟨_, _, rfl, .inr (.inr rfl)⟩
  · exact ⟨_, _, rfl, .inr (.inr rfl)⟩
  · exact ⟨_, _, rfl, .inr (.inr rfl)⟩
  · exact ⟨_, _, rfl, .inr (.inl rfl)⟩
  · exact ⟨_, _, rfl, .inl h⟩
  · simp at h

theorem starts_of_isNameStart {c : Char} (h : isNameStart c = true) (rest : List Char) :
    starts (c :: rest) = true := by
  unfold starts
  split <;> simp_all <;> exact absurd h (by decide)

theorem starts_backslash {c : Char} (h : c ≠ '\n') (rest : List Char) :
    starts ('\\' :: c :: rest) = true := by
  simp [starts, Escape.follows, h]

theorem starts_dash (rest : List Char) :
    starts ('-' :: rest) = (decide (rest.head? = some '-') || starts rest) := by
  cases rest with
  | nil => simp [starts, isNameStart]
  | cons c rest =>
    by_cases hdash : c = '-'
    · subst hdash
      simp [starts]
    · by_cases hslash : c = '\\'
      · subst hslash
        simp [starts]
      · have hleft : starts ('-' :: c :: rest) = isNameStart c := by
          unfold starts
          grind
        have hright : starts (c :: rest) = isNameStart c := by
          unfold starts
          grind
        simp [hleft, hright, hdash]

theorem starts_hex_append {c : Char} (h : c ≠ '\x00') (rest : List Char) :
    starts (Escape.hex c ++ rest) = true := by
  obtain ⟨d, text, k, heq, hd, -⟩ := Escape.hex_append h rest
  rw [heq]
  exact starts_backslash hd text

/-- A character that may stand at the beginning of a name starts one, as it is
    written. -/
theorem starts_writeChar_append {c : Char} (h : c ≠ '\x00') (hdigit : ¬c.isDigit = true)
    (hdash : c ≠ '-') (rest : List Char) : starts (writeChar c ++ rest) = true := by
  unfold writeChar
  rw [if_neg h]
  split
  · exact starts_hex_append h rest
  · next hcontrol =>
    split
    · next hchar =>
      simp only [isNameChar, hdigit, hdash, Bool.or_false, decide_false] at hchar
      exact starts_of_isNameStart hchar rest
    · refine starts_backslash ?_ rest
      rintro rfl
      exact hcontrol (by decide)

/-- A written name starts a name, and so can be told from other tokens. -/
theorem starts_write_append {name : List Char} (hne : name ≠ []) (h : '\x00' ∉ name)
    (rest : List Char) : starts (write name ++ rest) = true := by
  unfold write
  split
  · exact starts_backslash (by decide) rest
  · next c tail =>
    simp only [List.mem_cons, not_or] at h
    split
    · rw [List.cons_append, starts_dash, List.append_assoc, starts_hex_append (Ne.symm h.2.1),
        Bool.or_true]
    · next hdigit =>
      rw [List.cons_append, starts_dash, List.append_assoc]
      by_cases hdash : c = '-'
      · subst hdash
        simp [writeChar, isAsciiControl, isNameChar]
      · rw [starts_writeChar_append (Ne.symm h.2.1) hdigit hdash, Bool.or_true]
  · next c tail hlone hdash =>
    simp only [List.mem_cons, not_or] at h
    split
    · rw [List.append_assoc, starts_hex_append (Ne.symm h.1)]
    · next hdigit =>
      rw [List.append_assoc, starts_writeChar_append (Ne.symm h.1) hdigit]
      rintro rfl
      cases tail with
      | nil => exact hlone rfl rfl
      | cons d tail => exact hdash d tail rfl rfl
  · exact absurd rfl hne

theorem starts_writeUnit_append {unit : List Char} (hne : unit ≠ []) (h : '\x00' ∉ unit)
    (rest : List Char) : starts (writeUnit unit ++ rest) = true := by
  unfold writeUnit
  split
  · split
    · simp only [List.mem_cons, not_or] at h
      rw [List.append_assoc, starts_hex_append (Ne.symm h.1)]
    · exact starts_write_append hne h rest
  · exact absurd rfl hne

end Name

end DeepScope
