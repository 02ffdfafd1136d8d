import DeepScope.Proofs.Token.Adjoin

/-!
Text with more text behind it. The reader of tokens looks at most three characters ahead, and
never past a blank, a semicolon or a closing brace, so it reads on as before where so much is
left. A slash goes on with no token, so in front of one it reads as it does at the end.
-/

namespace DeepScope

/-- A character that no token but a string or an address goes past. -/
def isStop (c : Char) : Bool :=
  isBlank c || c = ';' || c = '}'

/-- Text that nothing behind it can change the beginning of. -/
def Settled (text : List Char) : Prop :=
  3 ≤ text.length ∨ text.any isStop = true

namespace Settled

variable {text front back : List Char}

theorem append (h : Settled back) : Settled (front ++ back) := by
  rcases h with h | h
  · left
    rw [List.length_append]
    omega
  · right
    rw [List.any_append, h, Bool.or_true]

theorem of_drop {n : Nat} (h : Settled (text.drop n)) : Settled text := by
  rw [← List.take_append_drop n text]
  exact h.append

theorem ne_nil (h : Settled text) : text ≠ [] := by
  rintro rfl
  rcases h with h | h <;> simp at h

/-- Behind a character that stops nothing there is another one. -/
theorem tail_ne_nil {c : Char} (h : Settled (c :: text)) (hc : isStop c = false) : text ≠ [] := by
  rintro rfl
  rcases h with h | h <;> simp [hc] at h

/-- Behind two characters that stop nothing there is a third one. -/
theorem tail_tail_ne_nil {c d : Char} (h : Settled (c :: d :: text)) (hc : isStop c = false)
    (hd : isStop d = false) : text ≠ [] := by
  rintro rfl
  rcases h with h | h <;> simp [hc, hd] at h

end Settled

/-- Text with something left of it, or with a slash behind it. -/
def Bounded (text more : List Char) : Prop :=
  text ≠ [] ∨ more.head? = some '/'

/-- Text that more text does not change the beginning of: it is settled, or a
    slash comes next. -/
def Firm (text more : List Char) : Prop :=
  Settled text ∨ more.head? = some '/'

namespace Bounded

variable {text more : List Char} {n : Nat}

theorem of_lt (h : n < text.length) (more : List Char) : Bounded (text.drop n) more := by
  left
  rw [← List.length_pos_iff, List.length_drop]
  omega

/-- Nothing but a slash comes behind what has no characters left. -/
theorem exists_slash (h : Bounded [] more) : ∃ rest, more = '/' :: rest :=
  List.head?_eq_some_iff.1 (h.resolve_left (absurd rfl))

theorem of_drop (h : Bounded (text.drop n) more) : Bounded text more := by
  refine h.imp_left fun hne hnil => hne ?_
  rw [hnil, List.drop_nil]

/-- What is looked for in front is none of the slashes behind. -/
theorem head?_eq_some_iff (h : Bounded text more) {c : Char} (hc : c ≠ '/') :
    (text ++ more).head? = some c ↔ text.head? = some c := by
  cases text with
  | nil =>
    rw [List.nil_append, h.resolve_left (absurd rfl)]
    simp [Ne.symm hc]
  | cons d rest => rfl

theorem any_head? (h : Bounded text more) {p : Char → Bool} (hp : p '/' = false) :
    (text ++ more).head?.any p = text.head?.any p := by
  cases text with
  | nil =>
    rw [List.nil_append, h.resolve_left (absurd rfl)]
    exact hp
  | cons d rest => rfl

theorem follows (h : Bounded text more) : Escape.follows (text ++ more) = Escape.follows text := by
  unfold Escape.follows
  simp only [ne_eq, h.head?_eq_some_iff (by decide : '\n' ≠ '/')]

end Bounded

namespace Firm

variable {text front back more : List Char}

theorem of_drop {n : Nat} (h : Firm (text.drop n) more) : Firm text more :=
  h.imp_left Settled.of_drop

theorem bounded (h : Firm text more) : Bounded text more :=
  h.imp_left Settled.ne_nil

theorem tail {c : Char} (h : Firm (c :: text) more) (hc : isStop c = false) : Bounded text more :=
  h.imp_left fun h => h.tail_ne_nil hc

theorem tail_tail {c d : Char} (h : Firm (c :: d :: text) more) (hc : isStop c = false)
    (hd : isStop d = false) : Bounded text more :=
  h.imp_left fun h => h.tail_tail_ne_nil hc hd

end Firm

theorem Name.continues_cons (c : Char) (rest : List Char) :
    continues (c :: rest) = if c = '\\' then Escape.follows rest else isNameChar c := by
  unfold continues
  split <;> simp_all

theorem Name.starts_cons_eq (c : Char) (rest : List Char) :
    starts (c :: rest) = if c = '-' then decide (rest.head? = some '-') || starts rest
      else if c = '\\' then Escape.follows rest else isNameStart c := by
  split
  · next hdash => rw [hdash, starts_dash]
  · next hdash =>
    split
    · next hslash =>
      rw [hslash]
      rfl
    · next hslash => exact starts_cons hdash hslash rest

theorem Numeral.startsUnsigned_cons_eq (c : Char) (rest : List Char) :
    startsUnsigned (c :: rest) =
      if c = '.' then rest.head?.any Char.isDigit else c.isDigit := by
  split
  · next hpoint =>
    subst hpoint
    cases rest <;> rfl
  · next hpoint =>
    unfold startsUnsigned
    split <;> simp_all

theorem Numeral.starts_cons_eq (c : Char) (rest : List Char) :
    starts (c :: rest) = if isSign c then startsUnsigned rest else startsUnsigned (c :: rest) := by
  unfold starts readSign
  dsimp only
  split <;> rfl

section Lookahead

variable {text more : List Char} (h : Firm text more)
include h

theorem Name.continues_append_of_firm : continues (text ++ more) = continues text := by
  cases text with
  | nil =>
    obtain ⟨rest, rfl⟩ := h.bounded.exists_slash
    rfl
  | cons c rest =>
    rw [List.cons_append, continues_cons, continues_cons]
    split
    · next hslash =>
      subst hslash
      exact (h.tail rfl).follows
    · rfl

theorem Name.starts_append_of_firm : starts (text ++ more) = starts text := by
  cases text with
  | nil =>
    obtain ⟨rest, rfl⟩ := h.bounded.exists_slash
    rfl
  | cons c rest =>
    rw [List.cons_append, starts_cons_eq, starts_cons_eq]
    split
    · next hdash =>
      subst hdash
      have hrest := h.tail rfl
      simp only [hrest.head?_eq_some_iff (by decide : '-' ≠ '/')]
      by_cases hsecond : rest.head? = some '-'
      · simp [hsecond]
      · congr 1
        cases rest with
        | nil =>
          obtain ⟨tail, rfl⟩ := hrest.exists_slash
          rfl
        | cons d rest =>
          have hd : d ≠ '-' := fun hd => hsecond (congrArg some hd)
          rw [List.cons_append, starts_cons_eq, starts_cons_eq, if_neg hd, if_neg hd]
          split
          · next hslash =>
            subst hslash
            exact (h.tail_tail rfl rfl).follows
          · rfl
    · split
      · next hslash =>
        subst hslash
        exact (h.tail rfl).follows
      · rfl

/-- Three characters are seen in full, or a character stops them. -/
theorem prefix_append_of_firm {pattern : List Char} (hlength : pattern.length ≤ 3)
    (hstop : pattern.any isStop = false) (hslash : '/' ∉ pattern.tail)
    (hhead : text ≠ [] ∨ pattern.head? ≠ some '/') :
    pattern <+: text ++ more ↔ pattern <+: text := by
  constructor
  · intro hbegins
    refine List.prefix_of_prefix_length_le hbegins (List.prefix_append text more) ?_
    refine Decidable.byContradiction fun hlt => ?_
    obtain ⟨rest, rfl⟩ : text <+: pattern :=
      List.prefix_of_prefix_length_le (List.prefix_append text more) hbegins (by omega)
    rcases h with (hlen | hany) | hmore
    · exact hlt (by rw [List.length_append] at hlength ⊢; omega)
    · rw [List.any_append, hany] at hstop
      cases hstop
    · have hrest : rest <+: more := (List.prefix_append_right_inj text).1 hbegins
      cases rest with
      | nil => simp at hlt
      | cons c rest =>
        obtain ⟨tail, rfl⟩ := hrest
        obtain rfl := Option.some.inj hmore
        cases text with
        | nil => exact hhead.elim (absurd rfl) (absurd rfl)
        | cons d text => simp at hslash
  · rintro ⟨rest, rfl⟩
    rw [List.append_assoc]
    exact List.prefix_append pattern _

end Lookahead

namespace Escape

theorem takeWhile_take_append {p : Char → Bool} (hp : p '/' = false) {m : Nat}
    {text more : List Char} (h : Bounded (text.drop ((text.take m).takeWhile p).length) more) :
    ((text ++ more).take m).takeWhile p = (text.take m).takeWhile p := by
  induction text generalizing m with
  | nil =>
    rw [List.drop_nil] at h
    obtain ⟨rest, rfl⟩ := h.exists_slash
    cases m <;> simp [hp]
  | cons c rest ih =>
    cases m with
    | zero => rfl
    | succ m =>
      rw [List.cons_append, List.take_succ_cons, List.take_succ_cons, List.takeWhile_cons,
        List.takeWhile_cons]
      split
      · next hc =>
        rw [List.take_succ_cons, List.takeWhile_cons, if_pos hc, List.length_cons,
          List.drop_succ_cons] at h
        rw [ih h]
      · rfl

/-- An escape with something left behind it is read as before. -/
theorem read_append {text more : List Char} {c : Char} {n : Nat} (h : read text = some (c, n))
    (hrest : Bounded (text.drop n) more) : read (text ++ more) = some (c, n) := by
  cases text with
  | nil => cases h
  | cons d rest =>
    rw [List.cons_append]
    unfold read at h ⊢
    dsimp only at h ⊢
    split at h
    · next hhex =>
      rw [if_pos hhex]
      simp only [Option.some.injEq, Prod.mk.injEq] at h
      obtain ⟨hchar, rfl⟩ := h
      rw [← List.drop_drop] at hrest
      have hrun : Bounded (rest.drop ((rest.take 5).takeWhile isHexDigit).length) more :=
        hrest.of_drop
      have hlength : ((rest.take 5).takeWhile isHexDigit).length ≤ rest.length :=
        Nat.le_trans (List.takeWhile_sublist isHexDigit).length_le
          (List.take_sublist 5 rest).length_le
      rw [takeWhile_take_append rfl hrun, hchar, List.length_cons, List.drop_succ_cons,
        List.drop_succ_cons, List.drop_append_of_le_length hlength, hrun.any_head? rfl]
    · next hhex =>
      rw [if_neg hhex]
      exact h

end Escape

/-- A name with something left behind it is read as before. -/
theorem Name.read_append {text more name : List Char} {n : Nat}
    (h : read text = some (name, n)) (hrest : Bounded (text.drop n) more) :
    read (text ++ more) = some (name, n) := by
  fun_induction read text generalizing name n with
  | case1 =>
    cases h
    obtain ⟨rest, rfl⟩ := hrest.exists_slash
    exact read_of_not_continues rfl
  | case2 c rest hchar ih =>
    obtain ⟨⟨found, m⟩, hread, hpure⟩ := Option.bind_eq_some_iff.1 h
    cases hpure
    rw [List.cons_append, read, if_pos hchar, ih hread hrest]
    rfl
  | case3 c rest hchar hescape ih =>
    obtain ⟨⟨d, k⟩, hd, hmore⟩ := Option.bind_eq_some_iff.1 h
    obtain ⟨⟨found, m⟩, hread, hpure⟩ := Option.bind_eq_some_iff.1 hmore
    cases hpure
    simp only [Bool.and_eq_true, decide_eq_true_eq] at hescape
    obtain ⟨rfl, hfollows⟩ := hescape
    rw [List.drop_succ_cons, ← List.drop_drop] at hrest
    have hbehind := hrest.of_drop
    rw [← hbehind.of_drop.follows] at hfollows
    rw [List.cons_append, read_backslash hfollows (Escape.read_append hd hbehind),
      List.drop_append_of_le_length (Escape.read_le hd), ih k hread hrest]
    rfl
  | case4 c rest hchar hescape =>
    cases h
    refine read_of_not_continues ?_
    rw [List.cons_append, continues_cons]
    split
    · next hslash =>
      subst hslash
      simp only [decide_true, Bool.true_and] at hescape
      have hline : rest.head? = some '\n' := by simpa [Escape.follows] using hescape
      obtain ⟨tail, rfl⟩ := List.head?_eq_some_iff.1 hline
      rfl
    · simpa using hchar

namespace Numeral

variable {text more : List Char}

/-- A point may be part of a number if a digit stands behind it. -/
theorem startsUnsigned_append_of_bounded (h : Bounded text more)
    (htail : ∀ rest, text = '.' :: rest → Bounded rest more) :
    startsUnsigned (text ++ more) = startsUnsigned text := by
  cases text with
  | nil =>
    obtain ⟨rest, rfl⟩ := h.exists_slash
    rfl
  | cons c rest =>
    rw [List.cons_append, startsUnsigned_cons_eq, startsUnsigned_cons_eq]
    split
    · next hpoint =>
      subst hpoint
      exact (htail rest rfl).any_head? rfl
    · rfl

theorem startsUnsigned_append_of_firm (h : Firm text more) :
    startsUnsigned (text ++ more) = startsUnsigned text := by
  refine startsUnsigned_append_of_bounded h.bounded ?_
  rintro rest rfl
  exact h.tail rfl

theorem isStop_of_isSign {c : Char} (h : isSign c = true) : isStop c = false := by
  simp only [isSign, Bool.or_eq_true, decide_eq_true_eq] at h
  rcases h with rfl | rfl <;> rfl

theorem starts_append_of_firm (h : Firm text more) : starts (text ++ more) = starts text := by
  cases text with
  | nil =>
    obtain ⟨rest, rfl⟩ := h.bounded.exists_slash
    rfl
  | cons c rest =>
    rw [List.cons_append, starts_cons_eq, starts_cons_eq]
    split
    · next hsign =>
      have hc := isStop_of_isSign hsign
      refine startsUnsigned_append_of_bounded (h.tail hc) ?_
      rintro tail rfl
      exact h.tail_tail hc rfl
    · exact startsUnsigned_append_of_firm h

theorem readFraction_append_eq_nil (h : Firm text more) (hnil : (readFraction text).1 = [])
    (hdigit : text.head?.any Char.isDigit = false) : (readFraction (text ++ more)).1 = [] := by
  have hhead : (text ++ more).head?.any Char.isDigit = false := by
    rwa [h.bounded.any_head? rfl]
  rw [readFraction_fst_eq_nil_iff hdigit] at hnil
  rwa [readFraction_fst_eq_nil_iff hhead, startsUnsigned_append_of_firm h]

theorem readExponent_append_eq_nil (h : Firm text more) (hnil : (readExponent text).1 = []) :
    (readExponent (text ++ more)).1 = [] := by
  cases text with
  | nil =>
    obtain ⟨rest, rfl⟩ := h.bounded.exists_slash
    exact readExponent_fst_eq_nil_iff.2 fun hletter => by simp at hletter
  | cons e rest =>
    refine readExponent_fst_eq_nil_iff.2 fun hletter => ?_
    have hdigit := readExponent_fst_eq_nil_iff.1 hnil hletter
    have he : isStop e = false := by rcases hletter with rfl | rfl <;> rfl
    cases rest with
    | nil =>
      obtain ⟨tail, rfl⟩ := (h.tail he).exists_slash
      rfl
    | cons s rest =>
      rw [readSign] at hdigit
      show (readSign (s :: (rest ++ more))).2.head?.any Char.isDigit = false
      rw [readSign]
      split
      · next hsign =>
        rw [if_pos hsign] at hdigit
        rwa [(h.tail_tail he (isStop_of_isSign hsign)).any_head? rfl]
      · next hsign =>
        rw [if_neg hsign] at hdigit
        exact hdigit

/-- What does not continue a number goes on not to. -/
theorem Ends.append_of_firm {value : Numeral} {rest : List Char} (h : value.Ends rest)
    (hrest : Firm rest more) : value.Ends (rest ++ more) := by
  obtain ⟨hdigit, hexponent, hfraction⟩ := h
  refine ⟨by rwa [hrest.bounded.any_head? rfl], ?_, ?_⟩
  · exact fun hno => readExponent_append_eq_nil hrest (hexponent hno)
  · exact fun hno hpoint => readFraction_append_eq_nil hrest (hfraction hno hpoint) hdigit

theorem read_append_of_firm (hstart : starts text = true) (h : Firm (read text).2 more) :
    read (text ++ more) = ((read text).1, (read text).2 ++ more) := by
  have hends := (ends_read hstart).append_of_firm h
  have hread := (proper_read hstart).read_append_iff.2 hends
  rwa [← List.append_assoc, read_append] at hread

end Numeral

namespace QuotedString

theorem read_quote {quote : Char} (h : quote ≠ '\\') (rest : List Char) :
    read quote (quote :: rest) = .ok ([], 1) := by
  rw [read, if_pos rfl]
  · exact fun hc => absurd hc h
  · exact fun _ hc => absurd hc h
  · exact fun _ _ hc => absurd hc h

/-- A string ends at its closing quote. -/
theorem read_append {quote : Char} {text chars : List Char} {n : Nat}
    (h : read quote text = .ok (chars, n)) (more : List Char) :
    read quote (text ++ more) = .ok (chars, n) := by
  fun_induction read quote text generalizing chars n with
  | case1 => cases h
  | case2 => cases h
  | case3 rest ih =>
    obtain ⟨⟨found, m⟩, hread, hpure⟩ := exists_of_bind_eq_ok h
    cases hpure
    rw [List.cons_append, List.cons_append, read, ih hread]
    rfl
  | case4 => cases h
  | case5 d rest hline c k hescape ih =>
    obtain ⟨⟨found, m⟩, hread, hpure⟩ := exists_of_bind_eq_ok h
    cases hpure
    have hk : k < (d :: rest).length := by
      refine Decidable.byContradiction fun hle => ?_
      rw [List.drop_eq_nil_of_le (Nat.le_of_not_lt hle), read] at hread
      cases hread
    have hescape' := Escape.read_append hescape (.of_lt hk more)
    rw [List.cons_append] at hescape'
    rw [List.cons_append, List.cons_append, read_escape hline hescape', ← List.cons_append,
      List.drop_append_of_le_length (Nat.le_of_lt hk), ih hread]
    rfl
  | case6 rest hlone _ hescape =>
    cases h
    refine read_quote ?_ _
    rintro rfl
    cases rest with
    | nil => exact hlone rfl rfl
    | cons d rest => exact hescape d rest rfl rfl
  | case7 => cases h
  | case8 c rest hlone _ hescape hquote hfeed ih =>
    obtain ⟨⟨found, m⟩, hread, hpure⟩ := exists_of_bind_eq_ok h
    cases hpure
    have hslash : c ≠ '\\' := by
      rintro rfl
      cases rest with
      | nil => exact hlone rfl rfl
      | cons d rest => exact hescape d rest rfl rfl
    rw [List.cons_append, read_char hquote hslash hfeed, ih hread]
    rfl

end QuotedString

namespace Url

theorem dropWhile_append_of_ne_nil {text : List Char} (h : text.dropWhile isBlank ≠ [])
    (more : List Char) :
    (text ++ more).dropWhile isBlank = text.dropWhile isBlank ++ more ∧
      leadingBlanks (text ++ more) = leadingBlanks text := by
  unfold leadingBlanks
  induction text with
  | nil => exact absurd rfl h
  | cons c rest ih =>
    by_cases hc : isBlank c = true
    · simp only [List.dropWhile_cons, List.cons_append, List.takeWhile_cons, if_pos hc] at h ⊢
      obtain ⟨hdrop, hlength⟩ := ih h
      exact ⟨hdrop, congrArg (· + 1) hlength⟩
    · simp [hc]

theorem isQuoted_append {text : List Char} (h : text.dropWhile isBlank ≠ []) (more : List Char) :
    isQuoted (text ++ more) = isQuoted text := by
  rw [isQuoted, (dropWhile_append_of_ne_nil h more).1, Bounded.any_head? (.inl h) rfl, isQuoted]

theorem readEnd_append {start start' text : List Char} {n : Nat} (h : readEnd start text = .ok n)
    (more : List Char) : readEnd start' (text ++ more) = .ok n := by
  unfold readEnd at h ⊢
  split at h
  · cases h
  · next rest heq =>
    have hne : text.dropWhile isBlank ≠ [] := by simp [heq]
    obtain ⟨hdrop, hlength⟩ := dropWhile_append_of_ne_nil hne more
    rw [hdrop, heq, hlength]
    exact h
  · cases h

/-- An address ends at its closing parenthesis. -/
theorem readAddress_append {start start' text chars : List Char} {n : Nat}
    (h : readAddress start text = .ok (chars, n)) (more : List Char) :
    readAddress start' (text ++ more) = .ok (chars, n) := by
  fun_induction readAddress start text generalizing chars n with
  | case1 => cases h
  | case2 => simp_all [readAddress]
  | case3 => cases h
  | case4 => cases h
  | case5 rest hfollows d k hescape _ _ ih =>
    obtain ⟨⟨found, m⟩, hread, hpure⟩ := exists_of_bind_eq_ok h
    cases hpure
    have hk : k < rest.length := by
      refine Decidable.byContradiction fun hle => ?_
      rw [List.drop_eq_nil_of_le (Nat.le_of_not_lt hle), readAddress] at hread
      cases hread
    have hbehind := Bounded.of_lt hk more
    rw [← hbehind.of_drop.follows] at hfollows
    rw [List.cons_append, readAddress_escape hfollows (Escape.read_append hescape hbehind),
      List.drop_append_of_le_length (Nat.le_of_lt hk), ih hread]
    rfl
  | case6 => cases h
  | case7 c rest hclose hother hslash hblank =>
    obtain ⟨m, hread, hpure⟩ := exists_of_bind_eq_ok h
    cases hpure
    rw [List.cons_append, readAddress, if_neg hclose, if_neg hother, if_neg hslash, if_pos hblank,
      readEnd_append hread]
    rfl
  | case8 c rest hclose hother hslash hblank ih =>
    obtain ⟨⟨found, m⟩, hread, hpure⟩ := exists_of_bind_eq_ok h
    cases hpure
    rw [List.cons_append, readAddress, if_neg hclose, if_neg hother, if_neg hslash, if_neg hblank,
      ih hread]
    rfl

theorem read_append {start start' text chars : List Char} {n : Nat}
    (h : read start text = .ok (chars, n)) (more : List Char) :
    read start' (text ++ more) = .ok (chars, n) := by
  obtain ⟨⟨found, m⟩, hread, hpure⟩ := exists_of_bind_eq_ok h
  cases hpure
  have hne : text.dropWhile isBlank ≠ [] := by
    intro hnil
    rw [hnil, readAddress] at hread
    cases hread
  obtain ⟨hdrop, hlength⟩ := dropWhile_append_of_ne_nil hne more
  rw [read, hdrop, readAddress_append hread, hlength]
  rfl

end Url

namespace Comment

theorem sizeToClose_append {text : List Char} {n : Nat} (h : sizeToClose text = some n)
    (more : List Char) : sizeToClose (text ++ more) = some n := by
  fun_induction sizeToClose text generalizing n with
  | case1 rest => exact h
  | case2 c rest hclose ih =>
    obtain ⟨m, hm, rfl⟩ := Option.map_eq_some_iff.1 h
    rw [List.cons_append, sizeToClose, ih hm]
    · rfl
    · rintro tail rfl htail
      cases rest with
      | nil => cases hm
      | cons d rest =>
        cases htail
        exact hclose rest rfl rfl
  | case3 => cases h

theorem drop_comment (rest : List Char) (n m : Nat) :
    ('/' :: '*' :: rest).drop (n + 2 + m) = (rest.drop n).drop m := by
  rw [List.drop_drop, show n + 2 + m = n + m + 2 by omega]
  rfl

theorem size_cons {rest : List Char} {n m : Nat} (hclose : sizeToClose rest = some n)
    (h : size (rest.drop n) = .ok m) : size ('/' :: '*' :: rest) = .ok (n + 2 + m) := by
  rw [size, hclose]
  simp only [h]
  rfl

theorem sizeWithBlanks_cons {rest : List Char} {n m : Nat} (hclose : sizeToClose rest = some n)
    (h : sizeWithBlanks (rest.drop n) = .ok m) :
    sizeWithBlanks ('/' :: '*' :: rest) = .ok (n + 2 + m) := by
  rw [sizeWithBlanks, hclose]
  simp only [h]
  rfl

theorem sizeWithBlanks_blank {c : Char} (h : isBlank c = true) (rest : List Char) :
    sizeWithBlanks (c :: rest) = (sizeWithBlanks rest).map (· + 1) := by
  have hslash : c ≠ '/' := by
    rintro rfl
    cases h
  rw [sizeWithBlanks, if_pos h]
  · cases sizeWithBlanks rest <;> rfl
  · exact fun _ hc => absurd hc hslash

/-- A comment may only begin where the text goes on. -/
theorem size_append {text more : List Char} {n : Nat} (h : size text = .ok n)
    (hrest : Firm (text.drop n) more) (hne : text.drop n ≠ []) : size (text ++ more) = .ok n := by
  fun_induction size text generalizing n with
  | case1 => cases h
  | case2 rest k hclose ih =>
    obtain ⟨m, hm, hpure⟩ := exists_of_bind_eq_ok h
    cases hpure
    have hk := sizeToClose_le hclose
    rw [drop_comment] at hrest hne
    show size ('/' :: '*' :: (rest ++ more)) = _
    refine size_cons (sizeToClose_append hclose more) ?_
    rw [List.drop_append_of_le_length hk]
    exact ih hm hrest hne
  | case3 text hno =>
    cases h
    rw [List.drop_zero] at hrest hne
    refine size_eq_zero ?_
    rw [prefix_append_of_firm hrest (by decide) rfl (by decide) (.inl hne)]
    rintro ⟨rest, rfl⟩
    exact hno rest rfl

theorem sizeWithBlanks_append {text more : List Char} {n : Nat} (h : sizeWithBlanks text = .ok n)
    (hrest : Firm (text.drop n) more) (hne : text.drop n ≠ []) :
    sizeWithBlanks (text ++ more) = .ok n := by
  fun_induction sizeWithBlanks text generalizing n with
  | case1 => cases h
  | case2 rest k hclose ih =>
    obtain ⟨m, hm, hpure⟩ := exists_of_bind_eq_ok h
    cases hpure
    have hk := sizeToClose_le hclose
    rw [drop_comment] at hrest hne
    show sizeWithBlanks ('/' :: '*' :: (rest ++ more)) = _
    refine sizeWithBlanks_cons (sizeToClose_append hclose more) ?_
    rw [List.drop_append_of_le_length hk]
    exact ih hm hrest hne
  | case3 c rest _ hblank ih =>
    obtain ⟨m, hm, hpure⟩ := exists_of_bind_eq_ok h
    cases hpure
    rw [List.cons_append, sizeWithBlanks_blank hblank, ih hm hrest hne]
    rfl
  | case4 c rest hno hblank =>
    cases h
    rw [List.drop_zero] at hrest hne
    rw [sizeWithBlanks_eq_zero_iff,
      prefix_append_of_firm hrest (by decide) rfl (by decide) (.inl hne)]
    refine ⟨by simpa using hblank, ?_⟩
    rintro ⟨tail, htail⟩
    cases htail
    exact hno tail rfl rfl
  | case5 => exact absurd List.drop_nil hne

end Comment

end DeepScope
