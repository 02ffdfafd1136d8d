import DeepScope.Proofs.StyleSheet.Scope
import DeepScope.Proofs.StyleSheet.Written

namespace DeepScope

variable {limit : Option Nat} {depth : Nat}

/-- A text that begins with a character other than a byte order mark. -/
def BeginsUnmarked (text : List Char) : Prop :=
  ∃ c rest, text = c :: rest ∧ c ≠ '\uFEFF'

namespace BeginsUnmarked

variable {text : List Char}

theorem cons {c : Char} (hc : c ≠ '\uFEFF') (rest : List Char) : BeginsUnmarked (c :: rest) :=
  ⟨c, rest, rfl, hc⟩

theorem append (h : BeginsUnmarked text) (more : List Char) : BeginsUnmarked (text ++ more) := by
  obtain ⟨c, rest, rfl, hc⟩ := h
  exact .cons hc (rest ++ more)

theorem head?_ne (h : BeginsUnmarked text) : text.head? ≠ some '\uFEFF' := by
  obtain ⟨c, rest, rfl, hc⟩ := h
  simpa using hc

end BeginsUnmarked

/-- Trimming keeps what begins with no white space. -/
theorem head?_trimWhiteSpace {name : String} {c : Char} {rest : List Char}
    (hname : name.toList = c :: rest) (hc : isWhiteSpace c = false) :
    (trimWhiteSpace name).toList.head? = some c := by
  have hfront : (c :: rest).dropWhile isWhiteSpace = c :: rest :=
    List.dropWhile_cons_of_neg (by simp [hc])
  have hback : ∃ more, (rest.reverse ++ [c]).dropWhile isWhiteSpace = more ++ [c] := by
    rw [List.dropWhile_append]
    split
    · exact ⟨[], List.dropWhile_cons_of_neg (by simp [hc])⟩
    · exact ⟨_, rfl⟩
  obtain ⟨more, hmore⟩ := hback
  rw [trimWhiteSpace, hname, hfront, List.reverse_cons, hmore, String.toList_ofList]
  simp

/-- The name of a root element does not begin with a byte order mark. -/
theorem beginsUnmarked_of_isRootElement {name : String}
    (h : asciiLower (trimWhiteSpace name) = "body" ∨ asciiLower (trimWhiteSpace name) = "html") :
    BeginsUnmarked name.toList := by
  cases hname : name.toList with
  | nil =>
    rw [asciiLower, trimWhiteSpace, hname] at h
    exact absurd h (by decide)
  | cons c rest =>
    refine .cons ?_ rest
    rintro rfl
    have hhead : (asciiLower (trimWhiteSpace name)).toList.head? = some '\uFEFF' := by
      rw [asciiLower, String.toList_ofList, List.head?_map, head?_trimWhiteSpace hname (by decide)]
      decide
    rcases h with h | h <;> exact absurd hhead (by rw [h]; decide)

/-- A name that does not begin with a byte order mark is not written with one. -/
theorem BeginsUnmarked.write {name : List Char} (h : BeginsUnmarked name) :
    BeginsUnmarked (Name.write name) := by
  obtain ⟨c, rest, rfl, hc⟩ := h
  have hchar : BeginsUnmarked (Name.writeChar c) := by
    unfold Name.writeChar
    split
    · exact .cons (by decide) _
    · split
      · exact .cons (by decide) _
      · split
        · exact .cons hc _
        · exact .cons (by decide) _
  unfold Name.write
  split
  · exact .cons (by decide) _
  · split <;> exact .cons (by decide) _
  · next heq =>
    cases heq
    split
    · exact .cons (by decide) _
    · exact hchar.append _
  · next heq => cases heq

namespace Selector

theorem SoundMembers.ne_nil {members : List Member} (h : SoundMembers limit depth members) :
    members ≠ [] := by
  cases h with
  | compound hcompound => simpa using hcompound.ne_nil
  | combined => simp

/-- What takes a selector below the body can be written. -/
theorem SoundMembers.belowBody {selector : Selector} (h : SoundMembers limit depth selector.members) :
    SoundMembers limit depth selector.belowBody.members := by
  unfold Selector.belowBody
  split
  · exact h
  · have hbody : SoundCompound limit depth [.type none "body"] :=
      ⟨by simp, List.forall_mem_singleton.2 ⟨trivial, by decide⟩, List.forall_mem_nil _⟩
    exact .combined hbody h

/-- A selector that is kept is not written with a byte order mark in front. -/
theorem beginsUnmarked_pieces {layout : Layout} {selector : Selector}
    (hkept : selector.isKept = true) (hsound : SoundMembers limit depth selector.members) :
    BeginsUnmarked (Piece.charsAll (selector.pieces layout)) := by
  unfold isKept at hkept
  split at hkept
  · next hnil =>
    rw [hnil] at hsound
    exact absurd rfl hsound.ne_nil
  · next name rest hmembers =>
    rw [Bool.or_eq_true, decide_eq_true_eq, decide_eq_true_eq] at hkept
    have hname : BeginsUnmarked (Token.ident name).chars :=
      (beginsUnmarked_of_isRootElement hkept).write
    rw [pieces, hmembers, List.flatMap_cons, Piece.charsAll_append, Member.pieces,
      SimpleSelector.pieces, namespacePieces, List.nil_append, Piece.charsAll_token]
    exact (hname.append _).append _
  · cases hkept

end Selector

namespace Rule

theorem mem_mapSelectorsAll {change : Selector → Selector} {rules : List Rule} {r : Rule}
    (h : r ∈ mapSelectorsAll change rules) : ∃ found ∈ rules, r = mapSelectors change found := by
  induction rules with
  | nil =>
    rw [mapSelectorsAll] at h
    cases h
  | cons rule rest ih =>
    rw [mapSelectorsAll] at h
    rcases List.mem_cons.1 h with rfl | h
    · exact ⟨rule, List.mem_cons_self, rfl⟩
    · obtain ⟨found, hfound, rfl⟩ := ih h
      exact ⟨found, List.mem_cons_of_mem rule hfound, rfl⟩

/-- Rules stay sound below the body. -/
theorem Sound.belowBody {rule : Rule} (h : rule.Sound limit depth) :
    (mapSelectors Selector.belowBody rule).Sound limit depth := by
  induction h with
  | @style depth rule hrule =>
    rw [mapSelectors]
    refine .style ⟨by simpa using hrule.ne_nil, fun s hs => ?_, hrule.declarations⟩
    obtain ⟨found, hfound, rfl⟩ := List.mem_map.1 hs
    exact (hrule.selectors found hfound).belowBody
  | group hnest hstretch hconditioned _ ih =>
    rw [mapSelectors]
    refine .group hnest hstretch hconditioned fun r hr => ?_
    obtain ⟨found, hfound, rfl⟩ := mem_mapSelectorsAll hr
    exact ih found hfound
  | page h => simpa [mapSelectors] using Sound.page h
  | keyframes h => simpa [mapSelectors] using Sound.keyframes h
  | descriptors hname hkind hstretch hdeclarations =>
    simpa [mapSelectors] using Sound.descriptors hname hkind hstretch hdeclarations
  | statement hname hkind hstretch =>
    simpa [mapSelectors] using Sound.statement hname hkind hstretch
  | verbatim hname hkind hstretch hblock htidy =>
    simpa [mapSelectors] using Sound.verbatim hname hkind hstretch hblock htidy

/-- A rule that is scoped is not written with a byte order mark in front. -/
theorem Sound.beginsUnmarked_pieces {layout : Layout} {rule : Rule} (h : rule.Sound limit depth)
    (hkept : ∀ s ∈ selectors [rule], s.isKept = true) :
    BeginsUnmarked (Piece.charsAll (rule.pieces layout 0)) := by
  have hindent : Piece.charsAll (layout.indent 0) = [] := by cases layout <;> rfl
  have hat : ∀ name values, BeginsUnmarked (Piece.charsAll (preludePieces layout name values)) := by
    intro name values
    rw [preludePieces, Piece.charsAll_token]
    exact (BeginsUnmarked.cons (by decide) _).append _
  cases h with
  | @style _ rule hrule =>
    obtain ⟨selector, rest, hselectors⟩ := List.exists_cons_of_ne_nil hrule.ne_nil
    have hmem : selector ∈ rule.selectors := by simp [hselectors]
    have hfirst := @Selector.beginsUnmarked_pieces _ _ layout _
      (hkept selector (by simpa [selectors, styleRules] using hmem)) (hrule.selectors selector hmem)
    have hlines : BeginsUnmarked (Piece.charsAll (selectorLines layout 0 rule.selectors)) := by
      rw [hselectors]
      cases rest with
      | nil => simpa [selectorLines, hindent] using hfirst
      | cons second others => simpa [selectorLines, hindent] using hfirst.append _
    rw [pieces, StyleRule.pieces, Piece.charsAll_append]
    exact hlines.append _
  | group | page | keyframes | descriptors | statement | verbatim =>
    simp only [pieces, PageRule.pieces, KeyframesRule.pieces, Piece.charsAll_append, hindent,
      List.nil_append]
    exact (hat _ _).append _

end Rule

namespace StyleSheet

/-- What is scoped after it was read from a text is sound. -/
theorem Sound.scope {sheet : StyleSheet} (h : sheet.Sound) : sheet.scope.1.Sound := by
  intro r hr
  obtain ⟨hscope, -, -⟩ := Rule.scopeAll_eq sheet.rules
  change r ∈ (Rule.scopeAll sheet.rules).1 at hr
  rw [hscope] at hr
  obtain ⟨found, hfound, rfl⟩ := Rule.mem_mapSelectorsAll hr
  exact (h found hfound).belowBody

/-- What stands in front of the rules begins with no byte order mark. -/
theorem head?_pieces {sheet : StyleSheet} {options : WriteOptions}
    (h : (Piece.charsAll (Rule.piecesAll options.layout 0 sheet.rules)).head? ≠ some '\uFEFF') :
    (Piece.charsAll (sheet.pieces options)).head? ≠ some '\uFEFF' := by
  unfold pieces
  cases options.emitCharset with
  | true => simp [Token.chars]
  | false =>
    cases options.header with
    | none => exact h
    | some header =>
      obtain ⟨comment, -, hheader⟩ := charsAll_headerPieces options.layout header
      simp [hheader]

/-- A scoped stylesheet is not written with a byte order mark in front. -/
theorem Sound.head?_serialize_scope {sheet : StyleSheet} (h : sheet.Sound) (options : WriteOptions) :
    (sheet.scope.1.serialize options).toList.head? ≠ some '\uFEFF' := by
  rw [serialize, Piece.toList_textAll]
  refine head?_pieces ?_
  have hkept : ∀ s ∈ Rule.selectors sheet.scope.1.rules, s.isKept = true :=
    fun s => Rule.isKept_of_mem_scopeAll
  have hsound := h.scope
  unfold Sound at hsound
  cases hrules : sheet.scope.1.rules with
  | nil => simp [Rule.piecesAll]
  | cons rule rest =>
    rw [hrules] at hkept hsound
    rw [Rule.selectors_cons] at hkept
    have hfirst := @Rule.Sound.beginsUnmarked_pieces _ _ options.layout _
      (hsound rule List.mem_cons_self) fun s hs => hkept s (List.mem_append_left _ hs)
    rw [Rule.piecesAll, Piece.charsAll_append]
    exact (hfirst.append _).head?_ne

/-- What is written of a scoped stylesheet is read back as the same rules, and
    scoping these changes nothing. -/
theorem parse_serialize_scope {text : String} {sheet : StyleSheet} (h : parse text = .ok sheet)
    (hunmarked : sheet.scope.1.isUnmarked = true) (options : WriteOptions) :
    ∃ read, parse (sheet.scope.1.serialize options) = .ok read ∧ read.rules = sheet.scope.1.rules ∧
      read.scope.1 = read ∧ read.scope.2.changed = 0 := by
  have hsound := sound_of_parse h
  have hread := hsound.scope.parse_serialize hunmarked options (hsound.head?_serialize_scope options)
  obtain ⟨hagain, hchanged, -⟩ := Rule.scopeAll_scopeAll sheet.rules
  refine ⟨_, hread, rfl, ?_, hchanged⟩
  exact congrArg (StyleSheet.mk · _) hagain

/-- One selector goes below the body, and one that starts at the root stays. -/
theorem parse_serialize_scope_twice :
    ∃ sheet, parse ".a>b,Html p\x7bc:d\x7d" = .ok sheet ∧ sheet.scope.2.changed = 1 ∧
      sheet.scope.1.isUnmarked = true ∧
      ∃ read, parse (sheet.scope.1.serialize ⟨.pretty, false, none⟩) = .ok read ∧
        read.rules = sheet.scope.1.rules ∧ read.scope.1 = read ∧ read.scope.2.changed = 0 := by
  let sheet : StyleSheet :=
    ⟨[.style ⟨[⟨[.simple (.className "a"), .combinator .child, .simple (.type none "b")]⟩,
      ⟨[.simple (.type none "Html"), .combinator .descendant, .simple (.type none "p")]⟩],
      [⟨"c", [.token (.ident "d")], false⟩]⟩], none⟩
  have hread : parse ".a>b,Html p\x7bc:d\x7d" = .ok sheet :=
    eq_ok_of_toOption (by decide +kernel)
  have hchanged : sheet.scope.2.changed = 1 := by decide +kernel
  have hscope : sheet.scope.1 = ⟨[.style ⟨[
      ⟨[.simple (.type none "body"), .combinator .deep, .simple (.className "a"), .combinator .child,
        .simple (.type none "b")]⟩,
      ⟨[.simple (.type none "Html"), .combinator .descendant, .simple (.type none "p")]⟩],
      [⟨"c", [.token (.ident "d")], false⟩]⟩], none⟩ := by decide +kernel
  have hunmarked : sheet.scope.1.isUnmarked = true := by
    rw [hscope]
    simp [isUnmarked, Rule.areUnmarked, Rule.isUnmarked, StyleRule.isUnmarked,
      Declaration.isUnmarked, Selector.isUnmarked, Member.isUnmarked, SimpleSelector.isUnmarked,
      Value.isUnmarked]
  exact ⟨sheet, hread, hchanged, hunmarked, parse_serialize_scope hread hunmarked _⟩

end StyleSheet

end DeepScope
