import DeepScope.Proofs.StyleSheet.Forms

namespace DeepScope

/-- Whether a text has no tokens but its end. -/
def isBare (text : String) : Bool :=
  match tokenize text with
  | .ok items => items.map Located.token = [.eof]
  | .error _ => false

theorem isBare_eq_true_iff {text : String} :
    isBare text = true ↔ Lexes (Source.ofText text) [.eof] := by
  rw [← tokenize_iff]
  unfold isBare
  split <;> simp_all

namespace Source

/-- Only a line end that two texts share makes a difference when they are put
    together. -/
theorem ofText_append {a b : String} (hmark : b.toList.head? ≠ some '\uFEFF') :
    ofText (a ++ b) = ofText a ++ ofText b ∨
      ∃ more, (ofText a).getLast? = some '\n' ∧ ofText b = '\n' :: more ∧
        ofText (a ++ b) = ofText a ++ more := by
  have hdrop : dropMark (a ++ b).toList = dropMark a.toList ++ b.toList := by
    rw [String.toList_append]
    cases a.toList with
    | nil => exact dropMark_of_head hmark
    | cons c rest =>
      by_cases hc : c = '\uFEFF'
      · subst hc
        rfl
      · rw [List.cons_append, dropMark_of_head (by simpa using hc), dropMark_of_head (by simpa using hc)]
        rfl
  unfold ofText
  rw [hdrop, dropMark_of_head hmark]
  by_cases hseam : (dropMark a.toList).getLast? = some '\r' ∧ b.toList.head? = some '\n'
  · right
    obtain ⟨hlast, hhead⟩ := hseam
    obtain ⟨before, hbefore⟩ := List.getLast?_eq_some_iff.1 hlast
    obtain ⟨more, hmore⟩ := List.head?_eq_some_iff.1 hhead
    have hfront : normalize (before ++ ['\r']) = normalize before ++ ['\n'] :=
      normalize_append (.inr (by simp))
    refine ⟨normalize more, ?_, ?_, ?_⟩
    · rw [hbefore, hfront, List.getLast?_concat]
    · rw [hmore]
      rfl
    · rw [hbefore, hmore, hfront, List.append_assoc, List.append_assoc, normalize_append (.inr (by simp))]
      rfl
  · left
    refine normalize_append ?_
    by_cases hlast : (dropMark a.toList).getLast? = some '\r'
    · exact .inr fun hhead => hseam ⟨hlast, hhead⟩
    · exact .inl hlast

end Source

namespace StyleSheet

theorem Forms.append {limit : Option Nat} {front back : List Token} {sheet : StyleSheet}
    {rules : List Rule} (h : Forms limit front sheet) (hne : front ≠ [])
    (h' : Rule.Forms limit 0 back rules) :
    Forms limit (front ++ back) ⟨sheet.rules ++ rules, sheet.charset⟩ := by
  cases h with
  | plain hhead hrules =>
    refine .plain ?_ (hrules.append h')
    cases front with
    | nil => exact absurd rfl hne
    | cons t front => exact hhead
  | charset hfront hrules =>
    rw [List.cons_append, List.append_assoc]
    exact .charset hfront (hrules.append h')

/-- A text without tokens is a stylesheet without rules. -/
theorem Forms.eq_empty {limit : Option Nat} {sheet : StyleSheet} (h : Forms limit [] sheet) :
    sheet = .empty := by
  cases h with
  | plain _ hrules =>
    generalize htokens : ([] : List Token) = tokens at hrules
    cases hrules with
    | nil => rfl
    | @style _ front back _ _ hstyle _ _ =>
      obtain ⟨t, rest, rfl, -⟩ := hstyle.head
      cases htokens
    | _ => cases htokens

/-- The tokens of two accepted texts put together, if the first one has any. -/
theorem lexes_append {a b : String} {front back : List Token} {token : Token}
    {rules : List Rule} (hmark : b.toList.head? ≠ some '\uFEFF') (hends : token.endsRule = true)
    (ha : Lexes (Source.ofText a) (front ++ [token, .eof]))
    (hb : Lexes (Source.ofText b) (back ++ [.eof])) {limit : Option Nat}
    (hrules : Rule.Forms limit 0 back rules) :
    ∃ back', Lexes (Source.ofText (a ++ b)) (front ++ token :: (back' ++ [.eof])) ∧
      Rule.Forms limit 0 back' rules := by
  have hdrop : ∀ tokens', back ++ [.eof] = .whitespace :: tokens' →
      ∃ back', tokens' = back' ++ [.eof] ∧ Rule.Forms limit 0 back' rules := by
    intro tokens' htokens
    cases back with
    | nil => cases htokens
    | cons t back =>
      obtain ⟨rfl, rfl⟩ := List.cons.inj htokens
      exact ⟨back, rfl, hrules.of_blank⟩
  rcases Source.ofText_append hmark with htext | ⟨more, hlast, hmore, htext⟩
  · rw [htext]
    obtain ⟨tokens', hlexes, rfl | htokens⟩ := ha.append hends hb
    · exact ⟨back, hlexes, hrules⟩
    · obtain ⟨back', rfl, hback'⟩ := hdrop tokens' htokens
      exact ⟨back', hlexes, hback'⟩
  · rw [htext]
    rw [hmore] at hb
    obtain ⟨tokens', hlexes, htokens⟩ := ha.append_of_lineFeed hends hlast hb
    obtain ⟨back', rfl, hback'⟩ := hdrop tokens' htokens
    exact ⟨back', hlexes, hback'⟩

/-- Reading two accepted texts as one gives the rules of both. The charset is
    that of the first text, unless that has no tokens at all. -/
theorem parse_append {a b : String} {x y : StyleSheet} (hmark : b.toList.head? ≠ some '\uFEFF')
    (ha : parse a = .ok x) (hb : parse b = .ok y) :
    parse (a ++ b) =
      .ok ⟨x.rules ++ y.rules, if isBare a then y.charset else x.charset⟩ := by
  obtain ⟨front, hfront, hx⟩ := parse_eq_ok_iff.1 ha
  obtain ⟨back, hback, hy⟩ := parse_eq_ok_iff.1 hb
  rw [parse_eq_ok_iff]
  rcases List.eq_nil_or_concat front with rfl | ⟨before, token, rfl⟩
  · have hbare : isBare a = true := isBare_eq_true_iff.2 hfront
    rw [if_pos hbare, hx.eq_empty]
    refine ⟨back, ?_, hy⟩
    rcases Source.ofText_append hmark with htext | ⟨more, hlast, -, -⟩
    · rw [htext]
      exact hfront.comments_append hback
    · by_cases hnil : Source.ofText a = []
      · rw [hnil] at hlast
        cases hlast
      · have hslash := Comment.getLast?_of_size hfront.size_of_eof hnil
        rw [hslash] at hlast
        cases hlast
  · rw [List.concat_eq_append] at hfront hx
    have hends : token.endsRule = true := hx.toRules.endsRules token (by simp)
    rw [List.append_assoc, List.singleton_append] at hfront
    obtain ⟨back', hlexes, hrules⟩ := lexes_append hmark hends hfront hback hy.toRules
    have hbare : ¬isBare a = true := by
      rw [isBare_eq_true_iff]
      intro hend
      have hlength := congrArg List.length (hend.unique hfront)
      simp at hlength
    rw [if_neg hbare]
    refine ⟨before ++ [token] ++ back', ?_, hx.append (by simp) hrules⟩
    simpa using hlexes

/-- The charset rule that begins the second text is dropped from the whole. -/
theorem parse_append_charset :
    parse ("@charset \"x\";" ++ "@charset \"y\";a\x7b\x7d") =
      .ok ⟨[.style ⟨[⟨[.simple (.type none "a")]⟩], []⟩], some "x"⟩ := by
  have hx : parse "@charset \"x\";" = .ok ⟨[], some "x"⟩ :=
    eq_ok_of_toOption (by decide +kernel)
  have hy : parse "@charset \"y\";a\x7b\x7d" =
      .ok ⟨[.style ⟨[⟨[.simple (.type none "a")]⟩], []⟩], some "y"⟩ :=
    eq_ok_of_toOption (by decide +kernel)
  have hboth := parse_append (by decide) hx hy
  rwa [if_neg (by decide +kernel)] at hboth

end StyleSheet

end DeepScope
