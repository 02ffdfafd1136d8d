import DeepScope.Proofs.Token.Clean
import DeepScope.Proofs.Token.EndsOfScan
import DeepScope.Proofs.Token.Stream
import DeepScope.Token.Adjacent

namespace DeepScope.Token

/-- A token that some text yields. -/
def Emitted (token : Token) : Prop :=
  ∃ text item, .ok item ∈ (Cursor.ofChars (Source.ofText text)).items ∧ item.token = token

/-- The pairs that the quick test lets pass although they merge. -/
def HidesMerge : Token → Token → Prop
  | .ident name, .delim c => name = "--" ∧ c = '>'
  | .number _, .commentClose => True
  | .delim c, .commentClose => c ∈ ['#', '-', '@']
  | _, _ => False

theorem legible_of_mem_items {cursor : Cursor} {item : Located}
    (hclean : ∀ c ∈ cursor.rest, Source.IsClean c) (h : .ok item ∈ cursor.items) :
    item.token.Legible := by
  have hnext : ∀ {cursor after : Cursor} {item : Located},
      (∀ c ∈ cursor.rest, Source.IsClean c) → cursor.next = .ok (item, after) →
      item.token.Legible ∧ ∀ c ∈ after.rest, Source.IsClean c := by
    intro cursor after item hclean hnext
    obtain ⟨n, k, -, hscan, hrest⟩ := Cursor.reads_of_next hnext
    have hdrop : ∀ c ∈ cursor.rest.drop n, Source.IsClean c :=
      fun c hc => hclean c (List.mem_of_mem_drop hc)
    refine ⟨legible_of_scan hdrop hscan, fun c hc => hdrop c ?_⟩
    rw [hrest] at hc
    exact List.mem_of_mem_drop hc
  fun_induction Cursor.items cursor with
  | case1 => simp at h
  | case2 cursor item' after hread hend =>
    obtain rfl : item = item' := by simpa using h
    exact (hnext hclean hread).1
  | case3 cursor item' after hread hend _ ih =>
    obtain ⟨hlegible, hafter⟩ := hnext hclean hread
    rcases List.mem_cons.1 h with heq | hmem
    · cases heq
      exact hlegible
    · exact ih hafter hmem

theorem Emitted.legible {token : Token} (h : token.Emitted) : token.Legible := by
  obtain ⟨text, item, hmem, rfl⟩ := h
  exact legible_of_mem_items Source.isClean_of_mem_normalize hmem

/-- The text of a legible token is read as the token alone. -/
theorem lexes_text {token : Token} (h : token.Legible) (hend : token ≠ .eof)
    (hurl : token.opensUrl = false) (hmark : token.text.toList.head? ≠ some '\uFEFF') :
    Lexes (Source.ofText token.text) [token, .eof] := by
  have hlexes := Lexes.cons_chars h hend (ends_nil h hurl) Lexes.nil
  have htext : Source.ofText token.text = token.chars := by
    refine Source.ofText_ofList (fun c => isClean_of_mem_chars h) ?_
    rwa [text, String.toList_ofList] at hmark
  rwa [List.append_nil, ← htext] at hlexes

/-- Whatever is legible is yielded by the text that it is written as. -/
theorem emitted_of_legible {token : Token} (h : token.Legible) (hend : token ≠ .eof)
    (hurl : token.opensUrl = false) (hmark : token.text.toList.head? ≠ some '\uFEFF') :
    token.Emitted := by
  cases lexes_text h hend hurl hmark with
  | step hread =>
    obtain ⟨item, after, hnext, hitem, -⟩ :=
      Cursor.next_of_reads (Cursor.ofChars (Source.ofText token.text)) hread
    refine ⟨token.text, item, ?_, hitem⟩
    rw [Cursor.items_eq hnext]
    split <;> simp

section

variable {prev next : Token}

theorem ofText_append (hprev : prev.Legible) (hnext : next.Legible) (hend : prev ≠ .eof)
    (hmark : prev.text.toList.head? ≠ some '\uFEFF') :
    Source.ofText (prev.text ++ next.text) = prev.chars ++ next.chars := by
  rw [text, text, ← String.ofList_append]
  refine Source.ofText_ofList (fun c hc => ?_) ?_
  · rcases List.mem_append.1 hc with hc | hc
    · exact isClean_of_mem_chars hprev hc
    · exact isClean_of_mem_chars hnext hc
  · rw [List.head?_append, Option.or_of_isSome (List.isSome_head?.2 (chars_ne_nil hprev hend))]
    rwa [text, String.toList_ofList] at hmark

theorem readsBack_iff_lexes :
    readsBack prev next = true ↔
      Lexes (Source.ofText (prev.text ++ next.text)) [prev, next, .eof] := by
  rw [← tokenize_iff]
  unfold readsBack
  cases tokenize (prev.text ++ next.text) with
  | error fault => simp
  | ok items => simp

/-- No comment begins where two written tokens meet, and goes on. -/
theorem size_append_eq_zero (hprev : prev.Legible) (hend : prev ≠ .eof) (hnext : next.Legible)
    {n : Nat} (h : Comment.size (prev.chars ++ next.chars) = .ok n) :
    Comment.size (prev.chars ++ next.chars) = .ok 0 := by
  refine Comment.size_eq_zero fun ⟨tail, htail⟩ => ?_
  cases hfront : prev.chars with
  | nil => exact chars_ne_nil hprev hend hfront
  | cons c front =>
    rw [hfront, List.cons_append] at htail
    obtain ⟨rfl, hrest⟩ := List.cons.inj htail
    obtain rfl := eq_delim_of_head hprev (by simp) hfront
    obtain rfl : [] = front := (List.cons.inj hfront).2
    have hback : next.chars = '*' :: tail := hrest.symm
    obtain rfl := eq_delim_of_head hnext (by simp) hback
    rw [show (delim '/').chars ++ (delim '*').chars = ['/', '*'] from rfl, Comment.size] at h
    cases h

/-- Tokens that are read back as they are written end where they should. -/
theorem ends_of_readsBack (hprev : prev.Legible) (hprevEnd : prev ≠ .eof)
    (hprevUrl : prev.opensUrl = false) (hnext : next.Legible)
    (hblank : ¬(prev = .whitespace ∧ next = .whitespace))
    (hmark : prev.text.toList.head? ≠ some '\uFEFF') (h : readsBack prev next = true) :
    prev.Ends next.chars := by
  rw [readsBack_iff_lexes, ofText_append hprev hnext hprevEnd hmark] at h
  by_cases hprevBlank : prev = .whitespace
  · rw [hprevBlank]
    exact ends_whitespace hnext fun hnextBlank => hblank ⟨hprevBlank, hnextBlank⟩
  · cases h with
    | step hread =>
      obtain ⟨n, k, hsize, hscan, -⟩ := hread
      have hzero := size_append_eq_zero hprev hprevEnd hnext hsize
      obtain rfl := Except.ok.inj (hsize.symm.trans hzero)
      exact ends_of_scan hprev hprevBlank hprevEnd hprevUrl hzero hscan

/-- Tokens are read back just as they are if the first one can end where the
    second one begins. -/
theorem readsBack_iff (hprev : prev.Legible) (hprevEnd : prev ≠ .eof)
    (hprevUrl : prev.opensUrl = false) (hnext : next.Legible) (hnextEnd : next ≠ .eof)
    (hnextUrl : next.opensUrl = false) (hblank : ¬(prev = .whitespace ∧ next = .whitespace))
    (hmark : prev.text.toList.head? ≠ some '\uFEFF') :
    readsBack prev next = true ↔ prev.Ends next.chars := by
  refine ⟨ends_of_readsBack hprev hprevEnd hprevUrl hnext hblank hmark, fun h => ?_⟩
  rw [readsBack_iff_lexes, ofText_append hprev hnext hprevEnd hmark]
  refine Lexes.cons_chars hprev hprevEnd h ?_
  have hlexes := Lexes.cons_chars hnext hnextEnd (ends_nil hnext hnextUrl) Lexes.nil
  rwa [List.append_nil] at hlexes

/-- What begins with neither a name nor a number continues no name. -/
theorem continues_chars_eq_false (h : next.Legible) (hname : next.beginsName = false)
    (hnumber : next.beginsNumber = false) (hdash : next ≠ .delim '-')
    (hclose : next ≠ .commentClose) : Name.continues next.chars = false := by
  cases next with
  | delim c =>
    obtain ⟨-, -, hstart, hdigit, -, hno⟩ := h
    simp only [List.mem_cons, List.not_mem_nil, or_false, not_or] at hno
    rw [ne_eq, Token.delim.injEq] at hdash
    show Name.continues [c] = false
    unfold Name.continues
    split
    · next heq => exact absurd (List.cons.inj heq).1 hno.1
    · next heq =>
      rw [← (List.cons.inj heq).1]
      simp [isNameChar, hstart, hdigit, hdash]
    · rfl
  | hash name kind => cases kind <;> rfl
  | commentClose => exact absurd rfl hclose
  | ident _ | function _ | url _ => cases hname
  | number _ | percentage _ => cases hnumber
  | dimension _ _ => cases hnumber
  | _ => rfl

theorem starts_chars_eq_false (h : next.Legible) (hname : next.beginsName = false)
    (hclose : next ≠ .commentClose) : Name.starts next.chars = false := by
  by_cases hnumber : next.beginsNumber = true
  · rw [Bool.eq_false_iff]
    intro hstart
    have hno := Numeral.starts_of_name hstart
    rw [numeral_starts_chars h hnumber] at hno
    cases hno
  cases next with
  | delim c => exact (ends_nil h rfl).2.1
  | hash name kind => cases kind <;> rfl
  | commentClose => exact absurd rfl hclose
  | ident _ | function _ | url _ => cases hname
  | number _ | percentage _ => exact absurd rfl hnumber
  | dimension _ _ => exact absurd rfl hnumber
  | _ => rfl

theorem numeral_starts_chars_eq_false (h : next.Legible) (hnumber : next.beginsNumber = false) :
    Numeral.starts next.chars = false := by
  by_cases hname : next.beginsName = true
  · exact Numeral.starts_of_name (starts_chars h hname)
  cases next with
  | ident _ | function _ | url _ => exact absurd rfl hname
  | delim c => exact (ends_nil h rfl).1
  | hash name kind => cases kind <;> rfl
  | number _ | percentage _ => cases hnumber
  | dimension _ _ => cases hnumber
  | _ => rfl

/-- A delimiter ends in front of what it does not begin a longer token with. -/
theorem ends_delim_of_not_mayMerge {c : Char} (hprev : (delim c).Legible) (hnext : next.Legible)
    (h : mayMerge (.delim c) next = false) (hhides : ¬HidesMerge (.delim c) next) :
    (delim c).Ends next.chars := by
  have hclose : c ∈ ['#', '-', '@'] → next ≠ .commentClose := by
    rintro hc rfl
    exact hhides hc
  have hname : c = '#' ∨ c = '-' → Name.continues next.chars = false := by
    rintro (rfl | rfl) <;>
      · simp only [mayMerge, Bool.or_eq_false_iff, decide_eq_false_iff_not] at h
        exact continues_chars_eq_false hnext h.1.1 h.1.2 h.2 (hclose (by simp))
  have hnumber : c = '-' ∨ c = '+' ∨ c = '.' → Numeral.startsUnsigned next.chars = false := by
    intro hc
    refine Numeral.startsUnsigned_of_not_starts (numeral_starts_chars_eq_false hnext ?_)
    rcases hc with rfl | rfl | rfl
    · simp only [mayMerge, Bool.or_eq_false_iff] at h
      exact h.1.2
    · exact h
    · exact h
  refine ends_delim hprev hname hnumber ?_ ?_ ?_
  · rintro rfl
    simp only [mayMerge, Bool.or_eq_false_iff] at h
    exact starts_chars_eq_false hnext h.1 (hclose (by simp))
  · rintro rfl hhead
    obtain ⟨rest, hrest⟩ := List.head?_eq_some_iff.1 hhead
    simp [mayMerge, eq_delim_of_head hnext (by simp) hrest] at h
  · rintro rfl ⟨rest, hrest⟩
    obtain rfl := eq_delim_of_head hnext (by simp) hrest.symm
    cases hrest

/-- Where the quick test lets a pair pass, the first token can end in front of
    the second one, with the known exceptions. -/
theorem ends_of_not_mayMerge (hprev : prev.Legible) (hnext : next.Legible) (hprevEnd : prev ≠ .eof)
    (hurl : prev.opensUrl = false) (hblank : ¬(prev = .whitespace ∧ next = .whitespace))
    (h : mayMerge prev next = false) (hhides : ¬HidesMerge prev next) : prev.Ends next.chars := by
  have hhead : ∀ c ∈ ['/', '!', '*', '%', '>'], next ≠ .delim c → next.chars.head? ≠ some c := by
    intro c hc hne hhead
    obtain ⟨rest, hrest⟩ := List.head?_eq_some_iff.1 hhead
    exact hne (eq_delim_of_head hnext hc hrest)
  cases prev with
  | ident name =>
    simp only [mayMerge, Bool.or_eq_false_iff, decide_eq_false_iff_not] at h
    obtain ⟨⟨⟨⟨hname, hnumber⟩, hdash⟩, hclose⟩, hparen⟩ := h
    refine ⟨continues_chars_eq_false hnext hname hnumber hdash hclose, ?_, fun hdashes => ?_⟩
    · intro hopen
      obtain ⟨rest, hrest⟩ := List.head?_eq_some_iff.1 hopen
      exact hparen (eq_openParen_of_head hnext hrest)
    · exact hhead '>' (by simp) fun heq => hhides (by rw [heq]; exact ⟨hdashes, rfl⟩)
  | function name => exact fun hname => by simp [opensUrl, hname] at hurl
  | atKeyword name | hash name kind =>
    simp only [mayMerge, Bool.or_eq_false_iff, decide_eq_false_iff_not] at h
    obtain ⟨⟨⟨hname, hnumber⟩, hdash⟩, hclose⟩ := h
    exact continues_chars_eq_false hnext hname hnumber hdash hclose
  | dimension value unit =>
    simp only [mayMerge, Bool.or_eq_false_iff, decide_eq_false_iff_not] at h
    obtain ⟨⟨⟨hname, hnumber⟩, hdash⟩, hclose⟩ := h
    have hstop := continues_chars_eq_false hnext hname hnumber hdash hclose
    refine ⟨Numeral.ends_writeUnit_append hprev.2 hstop ?_, hstop⟩
    intro _ _ d more heq
    rw [Bool.eq_false_iff]
    intro hd
    have hstart := numeral_starts_chars_eq_false hnext hnumber
    rw [heq] at hstart
    exact Bool.false_ne_true (hstart.symm.trans (Numeral.startsUnsigned_of_isDigit hd more))
  | number value =>
    simp only [mayMerge, Bool.or_eq_false_iff, decide_eq_false_iff_not] at h
    obtain ⟨⟨hname, hnumber⟩, hpercent⟩ := h
    have hclose : next ≠ .commentClose := fun heq => hhides (by rw [heq]; trivial)
    have hstart := starts_chars_eq_false hnext hname hclose
    exact ⟨Numeral.ends_of_not_starts hstart
      (Numeral.startsUnsigned_of_not_starts (numeral_starts_chars_eq_false hnext hnumber)), hstart,
      hhead '%' (by simp) hpercent⟩
  | delim c => exact ends_delim_of_not_mayMerge hprev hnext h hhides
  | whitespace => exact ends_whitespace hnext fun heq => hblank ⟨rfl, heq⟩
  | eof => exact absurd rfl hprevEnd
  | _ => trivial

theorem mayMerge_of_hidesMerge (h : HidesMerge prev next) : mayMerge prev next = false := by
  unfold HidesMerge at h
  split at h
  · obtain ⟨rfl, rfl⟩ := h
    rfl
  · rfl
  · simp only [List.mem_cons, List.not_mem_nil, or_false] at h
    rcases h with rfl | rfl | rfl <;> rfl
  · exact absurd h id

theorem not_ends_of_hidesMerge (h : HidesMerge prev next) : ¬prev.Ends next.chars := by
  intro hends
  unfold HidesMerge at h
  split at h
  · obtain ⟨rfl, rfl⟩ := h
    exact hends.2.2 rfl rfl
  · exact Bool.false_ne_true (hends.2.1.symm.trans rfl)
  · simp only [List.mem_cons, List.not_mem_nil, or_false] at h
    rcases h with rfl | rfl | rfl
    · exact Bool.false_ne_true ((hends.2.2.1 rfl).symm.trans rfl)
    · exact Bool.false_ne_true (hends.2.1.symm.trans rfl)
    · exact Bool.false_ne_true ((hends.2.2.2.1 rfl).symm.trans rfl)
  · exact h

/-- Among the pairs that the quick test lets pass exactly the known ones merge,
    so these alone are answered differently without the test. -/
theorem needsSeparator_eq_iff (hprev : prev.Emitted) (hnext : next.Emitted)
    (hprevEnd : prev ≠ .eof) (hnextEnd : next ≠ .eof) (hprevUrl : prev.opensUrl = false)
    (hnextUrl : next.opensUrl = false) (hblank : ¬(prev = .whitespace ∧ next = .whitespace))
    (hmark : prev.text.toList.head? ≠ some '\uFEFF') :
    (mayMerge prev next = false → (readsBack prev next = true ↔ ¬HidesMerge prev next)) ∧
      (needsSeparator prev next = !readsBack prev next ↔ ¬HidesMerge prev next) := by
  have hback := readsBack_iff hprev.legible hprevEnd hprevUrl hnext.legible hnextEnd hnextUrl
    hblank hmark
  have hpass : mayMerge prev next = false →
      (readsBack prev next = true ↔ ¬HidesMerge prev next) := by
    intro hmay
    rw [hback]
    refine ⟨fun hends hhides => not_ends_of_hidesMerge hhides hends, fun hhides => ?_⟩
    exact ends_of_not_mayMerge hprev.legible hnext.legible hprevEnd hprevUrl hblank hmay hhides
  refine ⟨hpass, ?_⟩
  unfold needsSeparator
  cases hmay : mayMerge prev next with
  | true =>
    refine iff_of_true (Bool.true_and _) fun hhides => ?_
    rw [mayMerge_of_hidesMerge hhides] at hmay
    cases hmay
  | false =>
    rw [Bool.false_and, ← hpass hmay]
    cases readsBack prev next <;> simp

/-- A number and the end of a comment pass the quick test, and are read back as
    a number with a unit. -/
theorem number_commentClose_merge :
    (number ⟨"1", .integer⟩).Emitted ∧ commentClose.Emitted ∧
      mayMerge (number ⟨"1", .integer⟩) commentClose = false ∧
      readsBack (number ⟨"1", .integer⟩) commentClose = false ∧
      needsSeparator (number ⟨"1", .integer⟩) commentClose = false := by
  have hproper : (number ⟨"1", .integer⟩).Legible :=
    Numeral.proper_read (show Numeral.starts ['1'] = true from rfl)
  have hnumber := emitted_of_legible hproper (by decide) rfl (by decide)
  have hclose := emitted_of_legible (show commentClose.Legible from trivial) (by decide) rfl
    (by decide)
  have hexact := needsSeparator_eq_iff hnumber hclose (by decide) (by decide) rfl rfl (by decide)
    (by decide)
  refine ⟨hnumber, hclose, rfl, ?_, rfl⟩
  rw [Bool.eq_false_iff]
  exact fun hback => (hexact.1 rfl).1 hback trivial

end

end DeepScope.Token
