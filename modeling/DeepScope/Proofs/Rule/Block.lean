import DeepScope.Proofs.Rule.Renders

namespace DeepScope

variable {limit : Option Nat} {depth : Nat} {more : List Char} {tokens : List Token}

namespace Spells

/-- The mark of importance is read back. -/
theorem mark_append (h : Spells more tokens) (hends : Separated more) :
    Separated ((Token.delim '!').chars ++ ((Token.ident "important").chars ++ more)) ∧
      Spells ((Token.delim '!').chars ++ ((Token.ident "important").chars ++ more))
        (.delim '!' :: .ident "important" :: tokens) := by
  have hword : (Token.ident "important").Legible := by
    show IsName "important"
    decide
  have hbang : (Token.delim '!').Legible := by
    show IsDelim '!'
    decide
  have himportant := h.cons_chars hword (by simp)
    (Token.ends_of_separated hword (by simp) (by simp) rfl hends)
  refine ⟨⟨rfl, fun hbegins => ?_⟩, himportant.cons_chars hbang (by simp)
    ⟨?_, ?_, by simp, by simp, by simp, by simp⟩⟩
  · have hchars : (Token.ident "important").chars = "important".toList := by decide
    rw [hchars] at hbegins
    simp [Token.chars] at hbegins
  · rfl
  · exact Name.starts_of_not_isNameChar _ rfl (by decide)

/-- The mark behind the value of a declaration is read back, if there is one. -/
theorem importance_append (h : Spells more tokens) (layout : Layout) (important : Bool)
    (hends : Separated more) :
    ∃ text found,
      Piece.charsAll (if important then
        layout.space ++ [.token (.delim '!'), .token (.ident "important")] else []) = text ∧
      Separated (text ++ more) ∧ Spells (text ++ more) (found ++ tokens) ∧
      Declaration.Marks important found := by
  cases important with
  | false => exact ⟨[], [], rfl, hends, h, .plain⟩
  | true =>
    obtain ⟨hbang, hspells⟩ := h.mark_append hends
    have hspace : ∀ c ∈ Piece.charsAll layout.space, isBlank c = true :=
      fun c => layout.isBlank_of_mem_space
    obtain ⟨gap, hgap, hall⟩ := hspells.gap_append hspace
    have htext : ∀ behind, Piece.charsAll (layout.space ++
        [.token (.delim '!'), .token (.ident "important")]) ++ behind =
        Piece.charsAll layout.space ++ ((Token.delim '!').chars ++
          ((Token.ident "important").chars ++ behind)) := by simp
    refine ⟨_, gap ++ [.delim '!', .ident "important"], rfl, ?_, ?_, .important hgap⟩
    · rw [if_pos rfl, htext]
      exact hbang.blanks_append hspace
    · rw [if_pos rfl, htext, List.append_assoc]
      exact hall

/-- A declaration is read back up to what ends it. -/
theorem declaration_append (h : Spells more tokens) (layout : Layout) {declaration : Declaration}
    (hsound : declaration.Sound limit depth) (hunmarked : Value.isUnmarked declaration.value = true)
    (hends : Separated more) :
    ∃ front, Spells (Piece.charsAll (declaration.pieces layout) ++ more) (front ++ tokens) ∧
      Declaration.Forms limit depth front declaration := by
  -- From the end: the mark, the value, the blank behind the colon, the colon and the name.
  obtain ⟨text, found, htext, hmarkEnds, hmarkSpells, hmarks⟩ :=
    h.importance_append layout declaration.important hends
  have hreads := hsound.value.sound.readsAs hsound.value.tidy hunmarked
  obtain ⟨spread, hvalues, hspread⟩ := hmarkSpells.spread_append layout hreads hmarkEnds
  have hspace : ∀ c ∈ Piece.charsAll (if declaration.value.isEmpty then [] else layout.space),
      isBlank c = true := by
    intro c hc
    split at hc
    · cases hc
    · exact layout.isBlank_of_mem_space hc
  obtain ⟨gap, hgap, hbehind⟩ := hvalues.gap_append hspace
  have hcolon := @cons_chars _ _ hbehind .colon trivial (by simp) trivial
  have hname := @cons_chars _ _ hcolon (.ident declaration.name) hsound.name (by simp)
    (Token.ident_ends_cons rfl (by decide) (by decide) fun _ => by decide)
  refine ⟨_, ?_, (Declaration.Renders.intro hgap hspread hmarks).forms hsound.kept⟩
  rw [Declaration.pieces]
  simpa [htext] using hname

end Spells

/-- A page without margin boxes is a block of declarations. -/
theorem PageRule.BlockForms.declarations {declarations : List Declaration}
    (h : BlockForms limit depth tokens declarations []) :
    Declaration.BlockForms limit depth tokens declarations := by
  generalize hmargins : ([] : List MarginRule) = margins at h
  induction h with
  | nil => exact .nil
  | skip hskip _ ih => exact .skip hskip (ih hmargins)
  | declaration hform hhead _ ih => exact .declaration hform hhead (ih hmargins)
  | margin => cases hmargins

theorem PageRule.BlockForms.of_gap {gap : List Token} (hgap : IsGap gap)
    {declarations : List Declaration} {margins : List MarginRule}
    (h : BlockForms limit depth tokens declarations margins) :
    BlockForms limit depth (gap ++ tokens) declarations margins := by
  cases hgap with
  | none => exact h
  | blank => exact .skip (.inl rfl) h

namespace Spells

/-- Declarations are read back in front of what else stands in their block. The last of them
    may lack its semicolon where the block ends behind it. -/
theorem lines_append {back : List Token} {margins : List MarginRule}
    (h : Spells more (back ++ tokens)) (hback : PageRule.BlockForms limit depth back [] margins)
    (layout : Layout) (indent : Nat) (goesOn : Bool)
    (hends : layout = .pretty ∨ goesOn = true ∨ back = [] ∧ Separated more)
    {declarations : List Declaration} (hsound : ∀ d ∈ declarations, d.Sound limit depth)
    (hunmarked : ∀ d ∈ declarations, Value.isUnmarked d.value = true) :
    ∃ front, Spells (Piece.charsAll (Declaration.lines layout indent goesOn declarations) ++ more)
        (front ++ tokens) ∧
      PageRule.BlockForms limit depth front declarations margins := by
  induction declarations with
  | nil => exact ⟨back, h, hback⟩
  | cons declaration rest ih =>
    obtain ⟨below, hbelow, hforms⟩ := ih (fun d hd => hsound d (List.mem_cons_of_mem _ hd))
      fun d hd => hunmarked d (List.mem_cons_of_mem _ hd)
    obtain ⟨gap, hgap, hline⟩ := hbelow.gap_append (fun c => layout.isBlank_of_mem_newline)
    have hd := hsound declaration List.mem_cons_self
    have hmarks := hunmarked declaration List.mem_cons_self
    have hindent : ∀ c ∈ Piece.charsAll (layout.indent indent), isBlank c = true :=
      fun c => layout.isBlank_of_mem_indent indent
    rw [Declaration.lines]
    by_cases hsemicolon : (layout = .pretty || goesOn || !rest.isEmpty) = true
    · have hend := @cons_chars _ _ hline .semicolon trivial (by simp) trivial
      obtain ⟨front, hfront, hform⟩ := hend.declaration_append layout hd hmarks
        (separated_cons rfl (by decide))
      obtain ⟨lead, hlead, hall⟩ := hfront.gap_append hindent
      refine ⟨lead ++ (front ++ .semicolon :: (gap ++ below)), ?_,
        .of_gap hlead (.declaration hform (by simp) (.skip (.inr rfl) (.of_gap hgap hforms)))⟩
      rw [if_pos hsemicolon]
      simpa using hall
    · simp only [Bool.or_eq_true, decide_eq_true_eq, Bool.not_eq_true', List.isEmpty_eq_false_iff,
        not_or, ne_eq, Decidable.not_not] at hsemicolon
      obtain ⟨⟨hlayout, hgoesOn⟩, rfl⟩ := hsemicolon
      obtain ⟨rfl, hmore⟩ := (hends.resolve_left hlayout).resolve_left hgoesOn
      obtain ⟨front, hfront, hform⟩ := h.declaration_append layout hd hmarks hmore
      obtain ⟨lead, hlead, hall⟩ := hfront.gap_append hindent
      refine ⟨lead ++ (front ++ []), ?_, .of_gap hlead (.declaration hform (by simp) hback)⟩
      obtain rfl : layout = .minified := by cases layout <;> simp_all
      rw [if_neg (by simp [hgoesOn]), Declaration.lines]
      simpa [Layout.newline, Layout.onlyPretty] using hall

/-- The brace that closes a block is read back, with white space around it. -/
theorem closeBlock_append (h : Spells more tokens) (layout : Layout) (indent : Nat) :
    ∃ before behind, IsGap before ∧ IsGap behind ∧
      Spells (Piece.charsAll (layout.closeBlock indent) ++ more)
        (before ++ .closeBrace :: (behind ++ tokens)) ∧
      (layout = .pretty ∨
        before = [] ∧ Separated (Piece.charsAll (layout.closeBlock indent) ++ more)) := by
  obtain ⟨behind, hbehind, hline⟩ := h.gap_append (fun c => layout.isBlank_of_mem_newline)
  have hbrace := @cons_chars _ _ hline .closeBrace trivial (by simp) trivial
  cases layout with
  | pretty =>
    obtain ⟨before, hbefore, hall⟩ :=
      hbrace.gap_append (fun c => Layout.pretty.isBlank_of_mem_indent indent)
    exact ⟨before, behind, hbefore, hbehind, by simpa [Layout.closeBlock] using hall, .inl rfl⟩
  | minified =>
    refine ⟨[], behind, .none, hbehind, ?_, .inr ⟨rfl, separated_cons rfl (by decide)⟩⟩
    simpa [Layout.closeBlock, Layout.indent, Layout.onlyPretty] using hbrace

/-- A block of declarations is read back behind its opening brace. -/
theorem block_append (h : Spells more tokens) (layout : Layout) (indent : Nat)
    {declarations : List Declaration} (hsound : ∀ d ∈ declarations, d.Sound limit depth)
    (hunmarked : ∀ d ∈ declarations, Value.isUnmarked d.value = true) :
    ∃ body behind, IsGap behind ∧
      Spells (Piece.charsAll layout.newline ++
        (Piece.charsAll (Declaration.lines layout (indent + 1) false declarations) ++
          (Piece.charsAll (layout.closeBlock indent) ++ more)))
        (body ++ .closeBrace :: (behind ++ tokens)) ∧
      Declaration.BlockForms limit depth body declarations := by
  obtain ⟨before, behind, hbefore, hbehind, hclose, hends⟩ := h.closeBlock_append layout indent
  have hback : PageRule.BlockForms limit depth before [] [] := by
    simpa using PageRule.BlockForms.of_gap hbefore .nil
  obtain ⟨front, hlines, hforms⟩ := hclose.lines_append hback layout (indent + 1) false
    (hends.imp_right .inr) hsound hunmarked
  obtain ⟨gap, hgap, hall⟩ := hlines.gap_append (fun c => layout.isBlank_of_mem_newline)
  refine ⟨gap ++ front, behind, hbehind, ?_, (PageRule.BlockForms.of_gap hgap hforms).declarations⟩
  rwa [List.append_assoc]

end Spells

theorem Declaration.charsAll_blockPieces (layout : Layout) (indent : Nat)
    (declarations : List Declaration) :
    Piece.charsAll (blockPieces layout indent declarations) =
      Piece.charsAll layout.space ++ ((Prelude.ender true).chars ++ (Piece.charsAll layout.newline ++
        (Piece.charsAll (lines layout (indent + 1) false declarations) ++
          Piece.charsAll (layout.closeBlock indent)))) := by
  simp [blockPieces, Layout.openBlock, Prelude.ender]

theorem KeyframesRule.BlockForms.of_gap {gap : List Token} (hgap : IsGap gap)
    {blocks : List KeyframeBlock} (h : BlockForms limit depth tokens blocks) :
    BlockForms limit depth (gap ++ tokens) blocks := by
  cases hgap with
  | none => exact h
  | blank => exact .skip h

theorem Value.Stretch.nil {ends : Token → Bool} : Stretch ends limit depth [] :=
  ⟨.nil, tidy_nil, List.forall_mem_nil _⟩

namespace Spells

/-- Margin boxes are read back behind the declarations of their page. -/
theorem margins_append {back : List Token} (h : Spells more (back ++ tokens))
    (hback : PageRule.BlockForms limit depth back [] []) (layout : Layout) (indent : Nat)
    {margins : List MarginRule} (hsound : ∀ margin ∈ margins, margin.Sound limit depth)
    (hunmarked : ∀ margin ∈ margins, ∀ d ∈ margin.declarations, Value.isUnmarked d.value = true) :
    ∃ front, Spells (Piece.charsAll (margins.flatMap (MarginRule.pieces layout indent)) ++ more)
        (front ++ tokens) ∧
      PageRule.BlockForms limit depth front [] margins := by
  induction margins with
  | nil => exact ⟨back, h, hback⟩
  | cons margin rest ih =>
    obtain ⟨below, hbelow, hforms⟩ := ih (fun m hm => hsound m (List.mem_cons_of_mem _ hm))
      fun m hm => hunmarked m (List.mem_cons_of_mem _ hm)
    have hmargin := hsound margin List.mem_cons_self
    obtain ⟨body, behind, hbehind, hblock, hbody⟩ := hbelow.block_append layout indent
      hmargin.declarations (hunmarked margin List.mem_cons_self)
    obtain ⟨front, hopen, hfront⟩ := hblock.stretch_append layout hmargin.name
      (.nil : Value.Stretch endsPrelude limit depth []) (by rw [Value.isUnmarked])
      (fun c => layout.isBlank_of_mem_space) true
    obtain ⟨lead, hlead, hall⟩ := hopen.gap_append (fun c => layout.isBlank_of_mem_indent indent)
    refine ⟨lead ++ .atKeyword margin.name :: (front ++ (body ++ .closeBrace :: (behind ++ below))),
      ?_, .of_gap hlead (.margin hfront hbody (.of_gap hbehind hforms))⟩
    simpa [MarginRule.pieces, Declaration.charsAll_blockPieces, preludePieces, Value.flatten,
      Layout.tokens] using hall

/-- The block of a page is read back behind its opening brace. -/
theorem page_append (h : Spells more tokens) (layout : Layout) (indent : Nat) {rule : PageRule}
    (hsound : rule.Sound limit depth)
    (hunmarked : ∀ d ∈ rule.declarations, Value.isUnmarked d.value = true)
    (hmargins : ∀ margin ∈ rule.margins, ∀ d ∈ margin.declarations,
      Value.isUnmarked d.value = true) :
    ∃ body behind, IsGap behind ∧
      Spells (Piece.charsAll layout.newline ++
        (Piece.charsAll (Declaration.lines layout (indent + 1) (!rule.margins.isEmpty)
            rule.declarations) ++
          (Piece.charsAll (rule.margins.flatMap (MarginRule.pieces layout (indent + 1))) ++
            (Piece.charsAll (layout.closeBlock indent) ++ more))))
        (body ++ .closeBrace :: (behind ++ tokens)) ∧
      PageRule.BlockForms limit depth body rule.declarations rule.margins := by
  obtain ⟨before, behind, hbefore, hbehind, hclose, hends⟩ := h.closeBlock_append layout indent
  have hback : PageRule.BlockForms limit depth before [] [] := by
    simpa using PageRule.BlockForms.of_gap hbefore .nil
  -- Without margin boxes the last declaration may stand right in front of the brace.
  have hlines : ∃ front, Spells (Piece.charsAll (Declaration.lines layout (indent + 1)
        (!rule.margins.isEmpty) rule.declarations) ++
      (Piece.charsAll (rule.margins.flatMap (MarginRule.pieces layout (indent + 1))) ++
        (Piece.charsAll (layout.closeBlock indent) ++ more)))
        (front ++ .closeBrace :: (behind ++ tokens)) ∧
      PageRule.BlockForms limit depth front rule.declarations rule.margins := by
    cases hcases : rule.margins with
    | nil =>
      exact hclose.lines_append hback layout (indent + 1) false (hends.imp_right .inr)
        hsound.declarations hunmarked
    | cons margin rest =>
      obtain ⟨front, hboxes, hforms⟩ := hclose.margins_append hback layout (indent + 1)
        hsound.margins hmargins
      rw [hcases] at hboxes hforms
      exact hboxes.lines_append hforms layout (indent + 1) true (.inr (.inl rfl))
        hsound.declarations hunmarked
  obtain ⟨front, hspells, hforms⟩ := hlines
  obtain ⟨gap, hgap, hall⟩ := hspells.gap_append (fun c => layout.isBlank_of_mem_newline)
  refine ⟨gap ++ front, behind, hbehind, ?_, .of_gap hgap hforms⟩
  rwa [List.append_assoc]

/-- Values in front of a block are read back. -/
theorem opening_append (h : Spells more tokens) (layout : Layout) {values : List Value}
    (hstretch : Value.Stretch endsPrelude limit depth values)
    (hunmarked : Value.isUnmarked values = true) {blanks : List Char}
    (hblanks : ∀ c ∈ blanks, isBlank c = true) :
    ∃ front, Spells (Piece.charsAll (layout.values values) ++
        (blanks ++ ((Prelude.ender true).chars ++ more))) (front ++ tokens) ∧
      Prelude.Forms limit depth front ⟨values, true⟩ ∧
      (values ≠ [] → front.head? ≠ some .whitespace) := by
  obtain ⟨hends, behind, hbehind, hender⟩ := h.ender_append hblanks true
  have hreads := hstretch.sound.readsAs hstretch.tidy hunmarked
  obtain ⟨spread, hspells, hspread⟩ := hender.spread_append layout hreads hends
  obtain ⟨others, hgathers, halike, hmem⟩ := hreads.gathers.spread hspread
  have hform := Prelude.Forms.of_alike .none hbehind hgathers halike hmem hstretch.heads true
  rw [hstretch.tidy.normalize_eq] at hform
  refine ⟨_, ?_, hform, fun hne hhead => ?_⟩
  · simpa only [List.append_assoc, List.nil_append, List.singleton_append] using hspells
  · obtain ⟨v, rest, rfl⟩ := List.exists_cons_of_ne_nil hne
    rw [List.nil_append, List.head?_append, hspread.head?_eq, Value.head_flatten] at hhead
    have hv : v.head = .whitespace := Option.some.inj hhead
    have hblank := (Value.tidy_iff.1 hstretch.tidy).2.1 v rfl
    rw [hstretch.sound.eq_of_head (by rw [hv]; rfl), hv] at hblank
    cases hblank

/-- The blocks of an animation are read back. -/
theorem keyframes_append {back : List Token} (h : Spells more (back ++ tokens))
    (hback : KeyframesRule.BlockForms limit depth back []) (layout : Layout) (indent : Nat)
    {blocks : List KeyframeBlock} (hsound : ∀ b ∈ blocks, b.Sound limit depth)
    (hunmarked : ∀ b ∈ blocks, (∀ s ∈ b.selectors, Value.isUnmarked s = true) ∧
      ∀ d ∈ b.declarations, Value.isUnmarked d.value = true) :
    ∃ front, Spells (Piece.charsAll (blocks.flatMap (KeyframesRule.blockPieces layout indent)) ++
        more) (front ++ tokens) ∧
      KeyframesRule.BlockForms limit depth front blocks := by
  induction blocks with
  | nil => exact ⟨back, h, hback⟩
  | cons block rest ih =>
    obtain ⟨below, hbelow, hforms⟩ := ih (fun b hb => hsound b (List.mem_cons_of_mem _ hb))
      fun b hb => hunmarked b (List.mem_cons_of_mem _ hb)
    obtain ⟨hmarks, hdeclarations⟩ := hunmarked block List.mem_cons_self
    obtain ⟨⟨values, hstretch, hselectors⟩, hfilled, hblock⟩ := hsound block List.mem_cons_self
    obtain ⟨selectors, declarations⟩ := block
    obtain rfl : selectors = splitOn Value.isComma values := hselectors
    obtain ⟨body, behind, hbehind, hinside, hbody⟩ := hbelow.block_append layout indent
      hblock hdeclarations
    obtain ⟨front, hopen, hfront, hhead⟩ := hinside.opening_append layout hstretch
      (Value.isUnmarked_of_splitOn hmarks) (fun c => layout.isBlank_of_mem_space)
    obtain ⟨lead, hlead, hall⟩ := hopen.gap_append (fun c => layout.isBlank_of_mem_indent indent)
    have hne : values ≠ [] := by
      rintro rfl
      exact hfilled [] (by simp [splitOn]) rfl
    have hbelow : KeyframesRule.BlockForms limit depth (behind ++ below) rest := .of_gap hbehind hforms
    refine ⟨lead ++ (front ++ (body ++ .closeBrace :: (behind ++ below))), ?_,
      .of_gap hlead (.block hfront (hhead hne) hfilled hbody hbelow)⟩
    have hpieces : keyframeSelectors layout (splitOn Value.isComma values) = layout.values values := by
      rw [keyframeSelectors_eq layout hfilled fun piece hpiece v hv =>
        ⟨not_separates_of_mem_splitOn hpiece hv,
          (hstretch.sound.gathers.head_ne v (mem_of_mem_splitOn hpiece hv)).1⟩,
        intercalate_splitOn fun v _ hv => Value.eq_of_isComma hv]
    simpa [KeyframesRule.blockPieces, Declaration.charsAll_blockPieces, hpieces] using hall

/-- The block of an animation is read back behind its opening brace. -/
theorem animation_append (h : Spells more tokens) (layout : Layout) (indent : Nat)
    {blocks : List KeyframeBlock} (hsound : ∀ b ∈ blocks, b.Sound limit depth)
    (hunmarked : ∀ b ∈ blocks, (∀ s ∈ b.selectors, Value.isUnmarked s = true) ∧
      ∀ d ∈ b.declarations, Value.isUnmarked d.value = true) :
    ∃ body behind, IsGap behind ∧
      Spells (Piece.charsAll layout.newline ++
        (Piece.charsAll (blocks.flatMap (KeyframesRule.blockPieces layout (indent + 1))) ++
          (Piece.charsAll (layout.closeBlock indent) ++ more)))
        (body ++ .closeBrace :: (behind ++ tokens)) ∧
      KeyframesRule.BlockForms limit depth body blocks := by
  obtain ⟨before, behind, hbefore, hbehind, hclose, -⟩ := h.closeBlock_append layout indent
  have hback : KeyframesRule.BlockForms limit depth before [] := by
    simpa using KeyframesRule.BlockForms.of_gap hbefore .nil
  obtain ⟨front, hspells, hforms⟩ :=
    hclose.keyframes_append hback layout (indent + 1) hsound hunmarked
  obtain ⟨gap, hgap, hall⟩ := hspells.gap_append (fun c => layout.isBlank_of_mem_newline)
  refine ⟨gap ++ front, behind, hbehind, ?_, .of_gap hgap hforms⟩
  rwa [List.append_assoc]

end Spells

end DeepScope
