import DeepScope.Proofs.Token.Separation

namespace DeepScope

namespace Token

/-- Whether the text of the token gives the token and the end when it is read. -/
def ReadsAlone (token : Token) : Prop :=
  (tokenize token.text).map (List.map Located.token) = .ok [token, .eof]

/-- Whether the token is a name that begins with a byte order mark. A text that
    begins with the name loses the mark. -/
def beginsMarked : Token → Bool
  | ident name | function name => name.toList.head? = some '\uFEFF'
  | _ => false

/-- Only a name that begins with a character is written with it up front, but for
    backslashes and hyphens. -/
theorem head_of_write {name tail : List Char} {c : Char} (hnull : '\x00' ∉ name)
    (hslash : c ≠ '\\') (hdash : c ≠ '-') (h : Name.write name = c :: tail) :
    ∃ more, name = c :: more := by
  unfold Name.write at h
  split at h
  · exact absurd (List.cons.inj h).1.symm hslash
  · split at h <;> exact absurd (List.cons.inj h).1.symm hdash
  · next d more _ _ =>
    split at h
    · exact absurd (List.cons.inj h).1.symm hslash
    · rw [List.mem_cons, not_or] at hnull
      rcases Name.writeChar_cases (Ne.symm hnull.1) with ⟨-, heq⟩ | ⟨text, heq⟩
      · rw [heq] at h
        exact ⟨more, by rw [(List.cons.inj h).1]⟩
      · rw [heq] at h
        exact absurd (List.cons.inj h).1.symm hslash
  · cases h

theorem beginsMarked_of_head {token : Token} (h : token.Legible)
    (hhead : token.chars.head? = some '\uFEFF') : token.beginsMarked = true := by
  obtain ⟨tail, htail⟩ := List.head?_eq_some_iff.1 hhead
  have hname : ∀ {name : String} {more back : List Char}, IsName name →
      Name.write name.toList ++ back = '\uFEFF' :: more → name.toList.head? = some '\uFEFF' := by
    intro name more back hname heq
    cases hwrite : Name.write name.toList with
    | nil => exact absurd hwrite (write_ne_nil hname)
    | cons c written =>
      rw [hwrite, List.cons_append] at heq
      rw [(List.cons.inj heq).1] at hwrite
      obtain ⟨others, hothers⟩ := head_of_write hname.2 (by decide) (by decide) hwrite
      rw [hothers]
      rfl
  have hvalue : ∀ {value : Numeral} {more back : List Char}, value.Proper →
      value.text.toList ++ back ≠ '\uFEFF' :: more :=
    fun hproper => text_append_ne_cons hproper (by decide)
  cases token with
  | ident name => exact decide_eq_true (hname h ((List.append_nil _).trans htail))
  | function name => exact decide_eq_true (hname h htail)
  | hash name kind => cases kind <;> cases htail
  | delim c =>
    obtain ⟨rfl, -⟩ := List.cons.inj htail
    exact absurd (show IsDelim '\uFEFF' from h) (by decide)
  | number value => exact absurd ((List.append_nil _).trans htail) (hvalue h)
  | percentage value => exact absurd htail (hvalue h)
  | dimension value unit => exact absurd htail (hvalue h.1)
  | _ => cases htail

theorem readsAlone_of_legible {token : Token} (h : token.Legible) (hend : token ≠ .eof)
    (hurl : token.opensUrl = false) (hmark : token.beginsMarked = false) : token.ReadsAlone := by
  have hhead : token.text.toList.head? ≠ some '\uFEFF' := by
    intro hhead
    rw [text, String.toList_ofList] at hhead
    rw [beginsMarked_of_head h hhead] at hmark
    cases hmark
  obtain ⟨items, hread, htokens⟩ := tokenize_iff.2 (lexes_text h hend hurl hhead)
  rw [ReadsAlone, hread, ← htokens]
  rfl

end Token

/-- A number that some text yields, alone, as a percentage or with a unit. -/
def Numeral.Emitted (value : Numeral) : Prop :=
  (Token.number value).Emitted ∨ (Token.percentage value).Emitted ∨
    ∃ unit, (Token.dimension value unit).Emitted

theorem Numeral.Emitted.proper {value : Numeral} (h : value.Emitted) : value.Proper := by
  rcases h with h | h | ⟨unit, h⟩
  · exact h.legible
  · exact h.legible
  · exact h.legible.1

namespace Token

/-- The text of a token is read as the token alone. This holds for every token
    that some text yields, and for all names, texts and units that a token can
    hold without a null character. The beginning of an address alone is none, and
    a byte order mark does not stand up front. -/
theorem tokenize_text :
    (∀ token : Token, token.Emitted → token ≠ .eof → token.opensUrl = false →
      token.beginsMarked = false → token.ReadsAlone) ∧
    (∀ name : String, IsName name →
      (atKeyword name).ReadsAlone ∧ (hash name .id).ReadsAlone ∧
      (name.toList.head? ≠ some '\uFEFF' → (ident name).ReadsAlone ∧
        (asciiLower name ≠ "url" → (function name).ReadsAlone))) ∧
    (∀ text : String, '\x00' ∉ text.toList → (string text).ReadsAlone ∧ (url text).ReadsAlone) ∧
    ∀ (value : Numeral) (unit : String), value.Emitted → IsName unit →
      (dimension value unit).ReadsAlone := by
  refine ⟨?_, ?_, ?_, ?_⟩
  · intro token h hend hurl hmark
    exact readsAlone_of_legible h.legible hend hurl hmark
  · intro name hname
    refine ⟨readsAlone_of_legible hname (by simp) rfl rfl,
      readsAlone_of_legible hname (by simp) rfl rfl, fun hmark => ⟨?_, fun hurl => ?_⟩⟩
    · exact readsAlone_of_legible hname (by simp) rfl (decide_eq_false hmark)
    · exact readsAlone_of_legible hname (by simp) (decide_eq_false hurl) (decide_eq_false hmark)
  · intro text hnull
    exact ⟨readsAlone_of_legible hnull (by simp) rfl rfl,
      readsAlone_of_legible hnull (by simp) rfl rfl⟩
  · intro value unit hvalue hunit
    exact readsAlone_of_legible ⟨hvalue.proper, hunit⟩ (by simp) rfl rfl

/-- A unit that looks like an exponent, a lone hyphen, a bracket in a name, and
    line ends in a string and in an address. -/
theorem tokenize_text_escapes :
    (dimension ⟨"1", .integer⟩ "e3").ReadsAlone ∧ (hash "0" .unrestricted).ReadsAlone ∧
      (ident "-").ReadsAlone ∧ (function "a(").ReadsAlone ∧ (atKeyword "1").ReadsAlone ∧
      (string "\"\n").ReadsAlone ∧ (url " \n)").ReadsAlone := by
  obtain ⟨hemitted, hnames, htexts, hunits⟩ := tokenize_text
  have hnumber : (number ⟨"1", .integer⟩).Emitted :=
    emitted_of_legible (Numeral.proper_read (show Numeral.starts ['1'] = true from rfl))
      (by decide) rfl (by decide)
  have hloose : (hash "0" .unrestricted).Emitted :=
    emitted_of_legible ⟨by decide, .inr ⟨'0', [], rfl, .inl rfl⟩⟩ (by decide) rfl (by decide)
  obtain ⟨-, -, hdash⟩ := hnames "-" (by decide)
  obtain ⟨-, -, hparen⟩ := hnames "a(" (by decide)
  refine ⟨hunits _ "e3" (.inl hnumber) (by decide), hemitted _ hloose (by decide) rfl rfl,
    (hdash (by decide)).1, (hparen (by decide)).2 (by decide), (hnames "1" (by decide)).1,
    (htexts _ (by decide)).1, (htexts _ (by decide)).2⟩

end Token

end DeepScope
