import DeepScope.Proofs.Layout.Spells
import DeepScope.Proofs.Pieces
import DeepScope.Proofs.Rule.Sound
import DeepScope.Rule.Writer

namespace DeepScope

open Value (ReadsAs Gathers Alike Stretch)

variable {limit : Option Nat} {depth : Nat} {more blanks : List Char} {tokens : List Token}

/-- White space at the ends of values has no meaning. -/
theorem IsGap.gathers {gap : List Token} (h : IsGap gap) (limit : Option Nat) (depth : Nat) :
    ∃ white, Gathers limit depth gap white ∧ (∀ v ∈ white, v = .token .whitespace) ∧
      ∀ values, Value.normalize (white ++ values) = Value.normalize values ∧
        Value.normalize (values ++ white) = Value.normalize values := by
  cases h with
  | none => exact ⟨[], .nil, List.forall_mem_nil _, fun values => ⟨rfl, by rw [List.append_nil]⟩⟩
  | blank =>
    refine ⟨[.token .whitespace], .token rfl rfl (by simp) .nil, by simp, fun values => ⟨?_, ?_⟩⟩
    · exact Value.normalize_cons_blank values
    · exact Value.normalizeFrom_append_blank false false values

/-- Tokens that gather into nearly the same values make up the same prelude, with
    white space around them or without. -/
theorem Prelude.Forms.of_alike {front spread behind : List Token} {others read : List Value}
    (hfront : IsGap front) (hbehind : IsGap behind) (hgathers : Gathers limit depth spread others)
    (halike : Alike others read) (hmem : ∀ v ∈ others, v = .token .whitespace ∨ v ∈ read)
    (hheads : ∀ v ∈ read, endsPrelude v.head = false) (hasBlock : Bool) :
    Forms limit depth (front ++ (spread ++ (behind ++ [ender hasBlock])))
      ⟨Value.normalize read, hasBlock⟩ := by
  obtain ⟨before, hbefore, hbeforeMem, hbeforeEq⟩ := hfront.gathers limit depth
  obtain ⟨after, hafter, hafterMem, hafterEq⟩ := hbehind.gathers limit depth
  have hvalues : Value.normalize (before ++ (others ++ after)) = Value.normalize read := by
    rw [(hbeforeEq _).1, (hafterEq _).2, halike.normalize_eq]
  have hends : ∀ v ∈ before ++ (others ++ after), endsPrelude v.head = false := by
    refine Value.heads_of_mem rfl (fun v hv => ?_) hheads
    simp only [List.mem_append] at hv
    rcases hv with hv | hv | hv
    · exact .inl (hbeforeMem v hv)
    · exact hmem v hv
    · exact .inl (hafterMem v hv)
  have hform := @Forms.intro limit depth _ _ hasBlock
    (hbefore.append (hgathers.append hafter)) hends
  rw [← hvalues]
  simpa only [List.append_assoc] using hform

namespace Spells

/-- An opening brace or a semicolon with blanks in front ends what stands there. -/
theorem ender_append (h : Spells more tokens) (hblanks : ∀ c ∈ blanks, isBlank c = true)
    (hasBlock : Bool) :
    Separated (blanks ++ ((Prelude.ender hasBlock).chars ++ more)) ∧
      ∃ gap, IsGap gap ∧ Spells (blanks ++ ((Prelude.ender hasBlock).chars ++ more))
        (gap ++ Prelude.ender hasBlock :: tokens) := by
  have hender : Separated ((Prelude.ender hasBlock).chars ++ more) := by
    cases hasBlock <;> exact separated_cons rfl (by decide)
  have hspells : Spells ((Prelude.ender hasBlock).chars ++ more)
      (Prelude.ender hasBlock :: tokens) := by
    cases hasBlock <;> exact h.cons_chars trivial (by simp [Prelude.ender]) trivial
  exact ⟨hender.blanks_append hblanks, hspells.gap_append hblanks⟩

/-- An at-keyword ends where a blank is put behind it, and where none is needed. -/
theorem atKeyword_append (h : Spells more tokens) (layout : Layout) {name : String}
    (hname : IsName name) {written read : List Value} (hreads : ReadsAs limit depth written read)
    (hends : Separated more) :
    ∃ gap spread others, IsGap gap ∧
      Spells (Piece.charsAll (preludePieces layout name written) ++ more)
        (.atKeyword name :: (gap ++ (spread ++ tokens))) ∧
      Gathers limit depth spread others ∧ Alike others read ∧
      ∀ v ∈ others, v = .token .whitespace ∨ v ∈ read := by
  obtain ⟨spread, others, hspells, hothers⟩ := h.values_append layout hreads hends
  have hkeyword : ∀ {text : List Char} {behind : List Token}, Spells text behind →
      (Token.atKeyword name).Ends text →
      Spells ((Token.atKeyword name).chars ++ text) (.atKeyword name :: behind) :=
    fun hbehind => hbehind.cons_chars hname (by simp)
  have hseparated : ∀ {text}, Separated text → (Token.atKeyword name).Ends text :=
    Token.ends_of_separated hname (by simp) (by simp) rfl
  rw [Layout.values] at hspells
  rw [preludePieces, Piece.charsAll_token, Piece.charsAll_append, List.append_assoc,
    List.append_assoc]
  cases hflat : Value.flatten written with
  | nil =>
    rw [hflat] at hspells
    exact ⟨[], spread, others, .none, hkeyword hspells (hseparated hends), hothers⟩
  | cons first rest =>
    rw [hflat] at hspells
    dsimp only
    split
    · obtain ⟨gap, hgap, hblank⟩ := @gap_append _ _ hspells [' '] (by simp [isBlank])
      exact ⟨gap, spread, others, hgap,
        hkeyword hblank (hseparated (separated_cons rfl (by decide))), hothers⟩
    · next hsep =>
      simp only [Bool.or_eq_true, not_or, Bool.not_eq_true] at hsep
      obtain ⟨hfirst, hfirstEnd, text, -, htext, hfirstEnds, -⟩ :=
        layout.lexes_first hreads hflat hends h.lexes
      have hjoins : (Token.atKeyword name).Joins first :=
        ⟨fun h => absurd h Bool.false_ne_true, by simp, by simp [Token.HidesMerge], by simp⟩
      refine ⟨[], spread, others, .none, hkeyword hspells ?_, hothers⟩
      rw [htext]
      exact hjoins.ends hname (by simp) hfirst hfirstEnd hsep.2 hfirstEnds

/-- A prelude is read back up to the brace or the semicolon that ends it. -/
theorem prelude_append (h : Spells more tokens) (layout : Layout) {name : String}
    (hname : IsName name) {written read : List Value} (hreads : ReadsAs limit depth written read)
    (hheads : ∀ v ∈ read, endsPrelude v.head = false) (hblanks : ∀ c ∈ blanks, isBlank c = true)
    (hasBlock : Bool) :
    ∃ front, Spells (Piece.charsAll (preludePieces layout name written) ++
        (blanks ++ ((Prelude.ender hasBlock).chars ++ more))) (.atKeyword name :: (front ++ tokens)) ∧
      Prelude.Forms limit depth front ⟨Value.normalize read, hasBlock⟩ := by
  obtain ⟨hends, behind, hbehind, hender⟩ := h.ender_append hblanks hasBlock
  obtain ⟨gap, spread, others, hgap, hspells, hgathers, halike, hmem⟩ :=
    hender.atKeyword_append layout hname hreads hends
  refine ⟨_, ?_, .of_alike hgap hbehind hgathers halike hmem hheads hasBlock⟩
  simpa only [List.append_assoc, List.singleton_append] using hspells

/-- A prelude that has been read is read back. -/
theorem stretch_append (h : Spells more tokens) (layout : Layout) {name : String}
    (hname : IsName name) {values : List Value} (hstretch : Stretch endsPrelude limit depth values)
    (hunmarked : Value.isUnmarked values = true) (hblanks : ∀ c ∈ blanks, isBlank c = true)
    (hasBlock : Bool) :
    ∃ front, Spells (Piece.charsAll (preludePieces layout name values) ++
        (blanks ++ ((Prelude.ender hasBlock).chars ++ more))) (.atKeyword name :: (front ++ tokens)) ∧
      Prelude.Forms limit depth front ⟨values, hasBlock⟩ := by
  have hreads := hstretch.sound.readsAs hstretch.tidy hunmarked
  have hfront := h.prelude_append layout hname hreads hstretch.heads hblanks hasBlock
  rwa [hstretch.tidy.normalize_eq] at hfront

end Spells

namespace Selector

/-- Nothing that selectors are written with ends a prelude. -/
theorem heads_listValues (layout : Layout) (selectors : List Selector) :
    ∀ v ∈ listValues layout selectors, endsPrelude v.head = false := by
  have hns : ∀ ns, ∀ v ∈ namespaceValues ns, endsPrelude v.head = false := by
    intro ns v hv
    unfold namespaceValues at hv
    (repeat' split at hv) <;>
      simp only [List.mem_cons, List.not_mem_nil, or_false] at hv
    · rcases hv with rfl | rfl <;> rfl
    · subst hv
      rfl
    · rcases hv with rfl | rfl <;> rfl
  have hfixed : ∀ {values : List Value}, values.all (fun v => !endsPrelude v.head) = true →
      ∀ v ∈ values, endsPrelude v.head = false := by
    intro values hall v hv
    simpa using List.all_eq_true.1 hall v hv
  have hsimple : ∀ s : SimpleSelector, ∀ v ∈ s.values layout, endsPrelude v.head = false := by
    intro s v hv
    cases s with
    | type ns name | universal ns =>
      rcases List.mem_append.1 hv with hv | hv
      · exact hns _ v hv
      · rw [List.mem_singleton.1 hv]
        rfl
    | pseudo kind name | functionalPseudo kind name arguments =>
      rcases List.mem_append.1 hv with hv | hv
      · exact hfixed (by cases kind <;> rfl) v hv
      · rw [List.mem_singleton.1 hv]
        rfl
    | _ => exact hfixed rfl v hv
  have hmembers : ∀ members, ∀ v ∈ membersValues layout members, endsPrelude v.head = false := by
    intro members v hv
    obtain ⟨m, -, hv⟩ := List.mem_flatMap.1 hv
    cases m with
    | simple s => exact hsimple s v hv
    | combinator c => exact hfixed (by cases c <;> cases layout <;> rfl) v hv
  fun_induction listValues layout selectors with
  | case1 => simp
  | case2 selector => exact hmembers _
  | case3 selector rest _ ih =>
    intro v hv
    rcases List.mem_append.1 hv with hv | hv
    · exact hmembers _ v hv
    · rcases List.mem_cons.1 hv with rfl | hv
      · rfl
      · exact ih v hv

theorem beginsStyle_of_beginsCompound (depth : Nat) {v : Value} {rest : List Value}
    (h : beginsCompound (v :: rest) = true) : v.head.beginsStyle depth = true := by
  unfold beginsCompound at h
  split at h
  case h_6 => cases h
  all_goals
    next heq =>
      cases heq
      rfl

end Selector

namespace Spells

/-- Selectors are read back as they are written, each on a line of its own. -/
theorem selectorLines_append (h : Spells more tokens) (layout : Layout) (indent : Nat)
    {selectors : List Selector} (hne : selectors ≠ [])
    (hsound : ∀ s ∈ selectors, Selector.SoundMembers limit depth s.members)
    (hunmarked : ∀ s ∈ selectors, s.isUnmarked = true) (hends : Separated more)
    (hblanks : ∀ c ∈ blanks, isBlank c = true) :
    ∃ gap spread, IsGap gap ∧
      Spells (blanks ++ (Piece.charsAll (selectorLines layout indent selectors) ++ more))
        (gap ++ (spread ++ tokens)) ∧
      Spread (Value.flatten (Selector.listValues layout selectors)) spread := by
  have hline : ∀ {blanks : List Char}, (∀ c ∈ blanks, isBlank c = true) →
      ∀ c ∈ blanks ++ Piece.charsAll (layout.indent indent), isBlank c = true := by
    intro blanks hblanks c hc
    exact (List.mem_append.1 hc).elim (hblanks c) (layout.isBlank_of_mem_indent indent)
  fun_induction selectorLines layout indent selectors generalizing blanks with
  | case1 => exact absurd rfl hne
  | case2 selector =>
    obtain ⟨spread, hspells, hspread⟩ := h.selector_append layout
      (hsound selector List.mem_cons_self) (hunmarked selector List.mem_cons_self) hends
    obtain ⟨gap, hgap, hall⟩ := hspells.gap_append (hline hblanks)
    refine ⟨gap, spread, hgap, ?_, hspread⟩
    simpa only [Piece.charsAll_append, List.append_assoc] using hall
  | case3 selector rest hrest ih =>
    obtain ⟨gap', spread', hgap', hbelow, hspread'⟩ := ih hrest
      (fun s hs => hsound s (List.mem_cons_of_mem selector hs))
      (fun s hs => hunmarked s (List.mem_cons_of_mem selector hs))
      (fun c => layout.isBlank_of_mem_newline)
    have hcomma := @cons_chars _ _ hbelow .comma trivial (by simp) trivial
    obtain ⟨spread, hspells, hspread⟩ := hcomma.selector_append layout
      (hsound selector List.mem_cons_self) (hunmarked selector List.mem_cons_self)
      (separated_cons rfl (by decide))
    obtain ⟨gap, hgap, hall⟩ := hspells.gap_append (hline hblanks)
    refine ⟨gap, spread ++ .comma :: (gap' ++ spread'), hgap, ?_, ?_⟩
    · simpa only [Piece.charsAll_append, Piece.charsAll_token, List.append_assoc,
        List.cons_append] using hall
    · have hlist : Value.flatten (Selector.listValues layout (selector :: rest)) =
          Value.flatten (Selector.membersValues layout selector.members) ++
            .comma :: Value.flatten (Selector.listValues layout rest) := by
        rw [Selector.listValues, Value.flatten_append, Value.flatten]
        exact hrest
      rw [hlist]
      refine hspread.append ?_
      cases hgap' with
      | none => exact .token .comma hspread'
      | blank => exact .comma hspread'

/-- The front of a style rule is read back as its selectors. -/
theorem selectors_append (h : Spells more tokens) (layout : Layout) (indent : Nat)
    {selectors : List Selector} (hne : selectors ≠ [])
    (hsound : ∀ s ∈ selectors, Selector.SoundMembers limit depth s.members)
    (hunmarked : ∀ s ∈ selectors, s.isUnmarked = true) (hblanks : ∀ c ∈ blanks, isBlank c = true) :
    ∃ gap front, IsGap gap ∧
      Spells (Piece.charsAll (selectorLines layout indent selectors) ++
        (blanks ++ ((Prelude.ender true).chars ++ more))) (gap ++ (front ++ tokens)) ∧
      Prelude.Forms limit depth front ⟨Selector.listValues layout selectors, true⟩ ∧
      ∀ t ∈ front.head?, t.beginsStyle depth = true := by
  obtain ⟨hends, behind, hbehind, hender⟩ := h.ender_append hblanks true
  obtain ⟨gap, spread, hgap, hspells, hspread⟩ :=
    hender.selectorLines_append layout indent hne hsound hunmarked hends (List.forall_mem_nil _)
  obtain ⟨hneat, htidy⟩ := Selector.neat_listValues layout hsound hunmarked
  obtain ⟨others, hgathers, halike, hmem⟩ := hneat.sound.gathers.spread hspread
  have hform := Prelude.Forms.of_alike .none hbehind hgathers halike hmem
    (Selector.heads_listValues layout selectors) true
  rw [htidy.normalize_eq] at hform
  refine ⟨gap, _, hgap, ?_, hform, ?_⟩
  · simpa only [List.append_assoc, List.nil_append, List.singleton_append] using hspells
  · intro t ht
    have hbegins := Selector.beginsCompound_listValues layout hne hsound
    cases hvalues : Selector.listValues layout selectors with
    | nil =>
      rw [hvalues] at hbegins
      cases hbegins
    | cons v rest =>
      rw [hvalues] at hbegins hspread
      have hhead := hspread.head?_eq.trans (Value.head_flatten v rest)
      rw [List.nil_append, List.head?_append, hhead] at ht
      cases ht
      exact Selector.beginsStyle_of_beginsCompound depth hbegins

end Spells

/-- A comma between values is followed by a blank in the pretty layout. -/
theorem Layout.values_append_comma (layout : Layout) {front back : List Value} {v : Value}
    (hfront : ∀ u ∈ front.getLast?, u.isComma = false) (hv : v.head.closes = false) :
    layout.values (front ++ .token .comma :: v :: back) =
      layout.values front ++ .token .comma :: (layout.space ++ layout.values (v :: back)) := by
  obtain ⟨rest, hflat⟩ := List.head?_eq_some_iff.1 (Value.head_flatten v back)
  have hbetween : layout.between .comma v.head = layout.space := by
    have hparen : v.head ≠ .closeParen ∧ v.head ≠ .closeSquare := by
      constructor <;> (intro hclose; rw [hclose] at hv; cases hv)
    cases layout with
    | pretty => simp [between, hparen, space, onlyPretty]
    | minified => simp [between, space, onlyPretty, Token.needsSeparator, Token.mayMerge]
  rw [Layout.values, Value.flatten_append, Value.flatten, tokens_append, hflat, Layout.tokens,
    hbetween, Layout.values, Layout.values, hflat]
  intro a ha b hb
  rw [hflat] at hb
  cases hb
  refine between_eq_nil ?_ ?_
  · rcases List.eq_nil_or_concat' front with rfl | ⟨others, u, rfl⟩
    · rw [Value.flatten] at ha
      cases ha
    · rw [Value.getLast_flatten_concat] at ha
      cases ha
      exact Value.last_ne_comma (hfront u (by simp))
  · unfold Token.mayMerge
    split <;> rfl

/-- The selectors of a keyframe block are written like the values they are pieces of. -/
theorem keyframeSelectors_eq (layout : Layout) {pieces : List (List Value)}
    (hfilled : ∀ piece ∈ pieces, piece ≠ [])
    (hplain : ∀ piece ∈ pieces, ∀ v ∈ piece, v.isComma = false ∧ v.head.closes = false) :
    keyframeSelectors layout pieces = layout.values ([Value.token .comma].intercalate pieces) := by
  fun_induction keyframeSelectors layout pieces with
  | case1 => simp [Layout.values, Value.flatten, Layout.tokens]
  | case2 selector => rw [List.intercalate_singleton]
  | case3 selector rest hrest ih =>
    obtain ⟨second, others, rfl⟩ := List.exists_cons_of_ne_nil hrest
    rw [ih (fun piece hpiece => hfilled piece (List.mem_cons_of_mem selector hpiece))
      fun piece hpiece => hplain piece (List.mem_cons_of_mem selector hpiece)]
    obtain ⟨v, tail, rfl⟩ := List.exists_cons_of_ne_nil (hfilled second (by simp))
    have hv := (hplain (v :: tail) (by simp) v List.mem_cons_self).2
    have hsplit : ∃ back, [Value.token .comma].intercalate ((v :: tail) :: others) = v :: back := by
      cases others <;> simp [List.intercalate_cons_cons]
    obtain ⟨back, hback⟩ := hsplit
    rw [List.intercalate_cons_cons, hback, List.append_assoc, List.singleton_append,
      layout.values_append_comma (fun u hu => ?_) hv]
    exact (hplain selector List.mem_cons_self u (List.mem_of_mem_getLast? hu)).1

namespace Value

theorem isUnmarked_cons_of_head {v : Value} {first rest : List Value}
    (hfirst : isUnmarked (v :: first) = true) (hrest : isUnmarked rest = true)
    (hhead : rest.head? = some (.token (.delim '!')) → first.head? = some (.token (.delim '!'))) :
    isUnmarked (v :: rest) = true := by
  cases v with
  | token t =>
    simp only [isUnmarked, Bool.and_eq_true, Bool.not_eq_true', Bool.and_eq_false_iff,
      decide_eq_false_iff_not] at hfirst ⊢
    exact ⟨⟨hfirst.1.1, hfirst.1.2.imp_right fun h hrest => h (hhead hrest)⟩, hrest⟩
  | function name arguments =>
    simp only [isUnmarked, Bool.and_eq_true] at hfirst ⊢
    exact ⟨hfirst.1, hrest⟩
  | block opener contents =>
    simp only [isUnmarked, Bool.and_eq_true] at hfirst ⊢
    exact ⟨hfirst.1, hrest⟩

/-- No mark stands across a comma. -/
theorem isUnmarked_of_splitOn {values : List Value}
    (h : ∀ piece ∈ splitOn isComma values, isUnmarked piece = true) : isUnmarked values = true := by
  induction values with
  | nil => rw [isUnmarked]
  | cons v rest ih =>
    cases hv : v.isComma with
    | true =>
      rw [splitOn_cons_of_pos hv] at h
      rw [eq_of_isComma hv]
      simpa [isUnmarked] using ih fun piece hpiece => h piece (List.mem_cons_of_mem [] hpiece)
    | false =>
      obtain ⟨first, others, hsplit, hcons⟩ := splitOn_cons_of_neg hv rest
      rw [hcons, List.forall_mem_cons] at h
      have hfirst := (isUnmarked_cons h.1).1
      have hrest := ih (by rw [hsplit]; exact List.forall_mem_cons.2 ⟨hfirst, h.2⟩)
      refine isUnmarked_cons_of_head h.1 hrest fun hbang => ?_
      obtain ⟨more, rfl⟩ := List.head?_eq_some_iff.1 hbang
      obtain ⟨first', others', -, hcons'⟩ :=
        @splitOn_cons_of_neg _ isComma (.token (.delim '!')) rfl more
      rw [hsplit] at hcons'
      rw [(List.cons.inj hcons').1]
      rfl

end Value

end DeepScope
