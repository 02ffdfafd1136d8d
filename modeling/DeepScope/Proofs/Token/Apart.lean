import DeepScope.Proofs.Token.Concat
import DeepScope.Proofs.Token.Text

namespace DeepScope.Token

variable {prev next : Token}

/-- The number that a token begins with, if it does. -/
def numeral? : Token → Option Numeral
  | number value | percentage value | dimension value _ => some value
  | _ => none

theorem prefix_of_scan {text : List Char} {token : Token} {n : Nat} {value : Numeral}
    (hvalue : token.numeral? = some value) (h : scan text = .ok (token, n)) :
    value.text.toList <+: text := by
  have hnumber : token.beginsNumber = true := by
    cases token <;> first | rfl | cases hvalue
  rcases scanNumeric_eq_ok (scanNumeric_of_scan hnumber h) with
    ⟨_, _, rfl, -⟩ | ⟨rfl, -⟩ | ⟨rfl, -⟩ <;>
    · cases hvalue
      exact ⟨_, Numeral.read_append text⟩

theorem not_lexes_nil {token : Token} {tokens : List Token} (hne : token ≠ .eof) :
    ¬Lexes [] (token :: tokens) := by
  intro h
  cases h.unique Lexes.nil
  exact hne rfl

/-- What is left of a number behind its first character does not begin like the
    number, unless it goes on as a name. -/
theorem not_lexes_tail {value : Numeral} {c : Char} {rest back : List Char}
    (hproper : value.Proper) (hvalue : next.numeral? = some value)
    (htext : value.text.toList ++ back = c :: rest) (hback : back = [] ∨ back = ['%'] ∨
      Name.starts back = true) (hc : isNameChar c = true) (hstop : Name.continues rest = false) :
    ¬Lexes rest [next, .eof] := by
  obtain ⟨digits, hdigits, rfl⟩ : ∃ digits, value.text.toList = c :: digits ∧
      rest = digits ++ back := by
    cases hcases : value.text.toList with
    | nil => exact absurd hcases (text_ne_nil hproper)
    | cons d digits =>
      rw [hcases] at htext
      obtain ⟨rfl, rfl⟩ := List.cons.inj htext
      exact ⟨digits, rfl, rfl⟩
  have hsize : Comment.size (digits ++ back) = .ok 0 := by
    cases digits with
    | nil =>
      rcases hback with rfl | rfl | hback
      · exact Comment.size_eq_zero (by simp)
      · exact Comment.size_cons_eq_zero (by decide) []
      · exact Comment.size_of_name hback
    | cons d digits =>
      refine Comment.size_cons_eq_zero ?_ _
      rintro rfl
      have hslash := hproper.cases_of_mem (c := '/') (by simp [hdigits])
      revert hslash
      decide
  intro h
  cases h with
  | step hread =>
    obtain ⟨n, k, hn, hscan, -⟩ := hread
    obtain rfl := Except.ok.inj (hsize.symm.trans hn)
    obtain ⟨more, hmore⟩ := prefix_of_scan hvalue hscan
    rw [List.drop_zero, hdigits, List.cons_append] at hmore
    rw [← hmore, Name.continues_of_isNameChar hc] at hstop
    cases hstop

/-- A name of one character is that character, if it stands for itself. -/
theorem read_eq_singleton {c x : Char} {rest : List Char} {m : Nat} (hslash : c ≠ '\\')
    (h : Name.read (c :: rest) = some ([x], m)) :
    isNameChar c = true ∧ m = 1 ∧ Name.continues rest = false := by
  rw [Name.read] at h
  split at h
  · next hchar =>
    obtain ⟨⟨more, k⟩, hread, hpure⟩ := Option.bind_eq_some_iff.1 h
    cases hpure
    have hstop : Name.continues rest = false := by
      rw [Bool.eq_false_iff]
      exact fun hcont => Name.ne_nil_of_read hcont hread rfl
    rw [Name.read_of_not_continues hstop] at hread
    cases hread
    exact ⟨hchar, rfl, hstop⟩
  · rw [if_neg (by simp [hslash])] at h
    cases h

/-- No number is left of what is written for it once a name of one character is
    taken off. -/
theorem not_lexes_drop_of_numeral {x : Char} {m : Nat} {value : Numeral} {back : List Char}
    (hproper : value.Proper) (hvalue : next.numeral? = some value)
    (hchars : next.chars = value.text.toList ++ back)
    (hback : back = [] ∨ back = ['%'] ∨ Name.starts back = true)
    (hname : Name.read next.chars = some ([x], m)) : ¬Lexes (next.chars.drop m) [next, .eof] := by
  cases hcases : next.chars with
  | nil =>
    rw [hcases] at hchars
    exact absurd (List.append_eq_nil_iff.1 hchars.symm).1 (text_ne_nil hproper)
  | cons c rest =>
    rw [hcases] at hname hchars
    have hslash : c ≠ '\\' := by
      rintro rfl
      exact text_append_ne_cons hproper (by decide) hchars.symm
    obtain ⟨hchar, rfl, hstop⟩ := read_eq_singleton hslash hname
    exact not_lexes_tail hproper hvalue hchars.symm hback hchar hstop

/-- No token is left of what is written for it once a name of one character is
    taken off. -/
theorem not_lexes_drop {x : Char} {m : Nat} (hlegible : next.Legible)
    (hname : Name.read next.chars = some ([x], m)) : ¬Lexes (next.chars.drop m) [next, .eof] := by
  have hother : Name.continues next.chars = false → False := by
    intro hstop
    rw [Name.read_of_not_continues hstop] at hname
    cases hname
  cases next with
  | ident name =>
    have hread : Name.read (Name.write name.toList ++ []) = _ :=
      (Name.spells_write hlegible.2).read_append rfl
    rw [List.append_nil] at hread
    obtain ⟨-, rfl⟩ := Prod.mk.inj (Option.some.inj (hread.symm.trans hname))
    rw [chars, List.drop_length]
    exact not_lexes_nil (by simp)
  | function name =>
    have hread : Name.read (Name.write name.toList ++ ['(']) = _ :=
      (Name.spells_write hlegible.2).read_append rfl
    obtain ⟨-, rfl⟩ := Prod.mk.inj (Option.some.inj (hread.symm.trans hname))
    rw [chars, List.drop_left]
    intro h
    have hparen : Lexes ['('] [.openParen, .eof] :=
      @Lexes.cons_chars [] [.eof] .openParen trivial (by simp) trivial Lexes.nil
    cases hparen.unique h
  | url address =>
    have hread : Name.read (Token.url address).chars = some (['u', 'r', 'l'], 3) := by
      have hspells : Name.Spells ['u', 'r', 'l'] ['u', 'r', 'l'] :=
        (Name.spells_char (by decide)).append
          ((Name.spells_char (by decide)).append (Name.spells_char (by decide)))
      exact hspells.read_append rfl
    rw [hread] at hname
    cases hname
  | number value =>
    exact not_lexes_drop_of_numeral hlegible rfl (List.append_nil _).symm (.inl rfl) hname
  | percentage value =>
    exact not_lexes_drop_of_numeral hlegible rfl rfl (.inr (.inl rfl)) hname
  | dimension value unit =>
    refine not_lexes_drop_of_numeral hlegible.1 rfl rfl (.inr (.inr ?_)) hname
    have hstart := Name.starts_writeUnit_append hlegible.2.1 hlegible.2.2 []
    rwa [List.append_nil] at hstart
  | delim c =>
    obtain ⟨-, rfl, -⟩ := read_eq_singleton (fun hslash => by simp_all [Legible, IsDelim]) hname
    exact not_lexes_nil (by simp)
  | commentClose =>
    obtain ⟨-, -, hstop⟩ := read_eq_singleton (by decide) hname
    cases hstop
  | hash name kind => cases kind <;> exact (hother rfl).elim
  | _ => exact (hother rfl).elim

/-- The name that an identifier is read from. -/
theorem read_of_scan_ident {text : List Char} {name : String} {n : Nat}
    (h : scan text = .ok (.ident name, n)) : Name.read text = some (name.toList, n) := by
  obtain ⟨found, k, hname, hcases⟩ := scanIdentLike_eq_ok (scanIdentLike_of_scan rfl h)
  obtain ⟨rfl, rfl⟩ : found = name ∧ k = n := by
    rcases hcases with ⟨_, _, -, -, hurl, -⟩ | ⟨_, -, -, heq, -⟩ | ⟨-, heq, rfl⟩
    · exact absurd hurl scanUrl_ne_ident
    · cases heq
    · exact ⟨(Token.ident.inj heq).symm, rfl⟩
  exact read_of_scanName hname

theorem size_writeLoose_append {tail : List Char} (hnull : '\x00' ∉ tail) (hnext : next.Legible) :
    Comment.size (Name.writeLoose tail ++ next.chars) = .ok 0 := by
  cases tail with
  | nil =>
    refine Comment.size_eq_zero fun ⟨more, hmore⟩ => ?_
    have hchars : next.chars = '/' :: '*' :: more := hmore.symm
    obtain rfl := eq_delim_of_head hnext (by simp) hchars
    cases hchars
  | cons c tail =>
    rw [List.mem_cons, not_or] at hnull
    rw [Name.writeLoose, List.flatMap_cons, List.append_assoc]
    rcases Name.writeChar_cases (Ne.symm hnull.1) with ⟨hchar, heq⟩ | ⟨more, heq⟩
    · rw [heq]
      refine Comment.size_cons_eq_zero ?_ _
      rintro rfl
      cases hchar
    · rw [heq]
      exact Comment.size_cons_eq_zero (by decide) _

/-- A name that begins with a byte order mark loses it when it stands first in
    a text, and so is never read back. -/
theorem readsBack_of_mark {name : String} {tail : List Char} (hprev : (ident name).Legible)
    (hname : name.toList = '\uFEFF' :: tail) (hnext : next.Legible) :
    readsBack (ident name) next = false := by
  rw [Bool.eq_false_iff, ne_eq, readsBack_iff_lexes]
  have hnull : '\x00' ∉ tail := fun hmem => hprev.2 (hname ▸ List.mem_cons_of_mem _ hmem)
  have hwrite : (ident name).chars = '\uFEFF' :: Name.writeLoose tail := by
    rw [chars, hname]
    rfl
  have htext : Source.ofText ((ident name).text ++ next.text) =
      Name.writeLoose tail ++ next.chars := by
    have hclean : ∀ c ∈ Name.writeLoose tail ++ next.chars, Source.IsClean c := by
      intro c hc
      rcases List.mem_append.1 hc with hc | hc
      · exact Name.isClean_of_mem_writeLoose hnull hc
      · exact isClean_of_mem_chars hnext hc
    rw [text, text, ← String.ofList_append, Source.ofText, String.toList_ofList, hwrite]
    have hnormal := Source.normalize_append_of_isClean hclean []
    rw [List.append_nil, Source.normalize, List.append_nil] at hnormal
    exact hnormal
  rw [htext]
  intro h
  cases h with
  | step hread _ hrest =>
    obtain ⟨n, k, hsize, hscan, rfl⟩ := hread
    obtain rfl := Except.ok.inj (hsize.symm.trans (size_writeLoose_append hnull hnext))
    rw [List.drop_zero] at hscan hrest
    have hread := read_of_scan_ident hscan
    rw [Name.spells_writeLoose hnull, hname, Option.map_eq_some_iff] at hread
    obtain ⟨⟨more, m⟩, hmore, heq⟩ := hread
    obtain ⟨hsplit, rfl⟩ := Prod.mk.inj heq
    have hlength := congrArg List.length hsplit
    rw [List.length_append, List.length_cons] at hlength
    obtain ⟨x, rfl⟩ := List.length_eq_one_iff.1 (by omega : more.length = 1)
    rw [← List.drop_drop, List.drop_left] at hrest
    exact not_lexes_drop hnext hmore hrest

/-- Tokens that need nothing between them end where they should. -/
theorem ends_of_not_needsSeparator (hprev : prev.Legible) (hprevEnd : prev ≠ .eof)
    (hprevUrl : prev.opensUrl = false) (hnext : next.Legible)
    (hblank : ¬(prev = .whitespace ∧ next = .whitespace)) (hhides : ¬HidesMerge prev next)
    (h : needsSeparator prev next = false) : prev.Ends next.chars := by
  by_cases hmay : mayMerge prev next = true
  · have hback : readsBack prev next = true := by simpa [needsSeparator, hmay] using h
    refine ends_of_readsBack hprev hprevEnd hprevUrl hnext hblank ?_ hback
    intro hhead
    rw [text, String.toList_ofList] at hhead
    have hmarked := beginsMarked_of_head hprev hhead
    cases prev with
    | ident name =>
      obtain ⟨tail, htail⟩ := List.head?_eq_some_iff.1 (of_decide_eq_true hmarked)
      rw [readsBack_of_mark hprev htail hnext] at hback
      cases hback
    | function name => cases hmay
    | _ => cases hmarked
  · exact ends_of_not_mayMerge hprev hnext hprevEnd hprevUrl hblank (by simpa using hmay) hhides

end DeepScope.Token
