import DeepScope.Proofs.Layout.Written
import DeepScope.Proofs.Token.Apart
import DeepScope.Proofs.Token.Separator
import DeepScope.Proofs.Value.Sound

namespace DeepScope

namespace Token

/-- A legible token other than the mark that closes an old comment. -/
def Plain (t : Token) : Prop :=
  t.Legible ∧ t ≠ .commentClose

/-- Two tokens of a row that are read back whatever is put between them. -/
structure Joins (prev next : Token) : Prop where
  url : prev.opensUrl = true → ∃ text, next = .string text
  blank : prev = .whitespace → next ≠ .whitespace
  hides : ¬HidesMerge prev next
  mark : ¬(prev = .delim '<' ∧ next = .delim '!')

theorem opensUrl_of_opens {t : Token} (h : t.opens = false) : t.opensUrl = false := by
  cases t with
  | function name => cases h
  | _ => rfl

theorem ends_string {prev : Token} (hurl : prev.opensUrl = true) (text : String)
    (rest : List Char) : prev.Ends ((string text).chars ++ rest) := by
  cases prev with
  | function name => exact fun _ => ⟨rfl, Nat.zero_le 1⟩
  | _ => cases hurl

/-- Tokens that need nothing between them leave each other as they are. -/
theorem Joins.ends {prev next : Token} {rest : List Char} (h : prev.Joins next)
    (hprev : prev.Legible) (hprevEnd : prev ≠ .eof) (hnext : next.Legible) (hnextEnd : next ≠ .eof)
    (hsep : prev.needsSeparator next = false) (hends : next.Ends rest) :
    prev.Ends (next.chars ++ rest) := by
  by_cases hurl : prev.opensUrl = true
  · obtain ⟨text, rfl⟩ := h.url hurl
    exact ends_string hurl text rest
  · rw [Bool.not_eq_true] at hurl
    have hblank : ¬(prev = .whitespace ∧ next = .whitespace) :=
      fun hboth => h.blank hboth.1 hboth.2
    exact (ends_of_not_needsSeparator hprev hprevEnd hurl hnext hblank h.hides hsep).append hprev
      hnext hnextEnd hurl h.mark hends

theorem ends_comment {prev next : Token} {rest : List Char} (hprev : prev.Legible)
    (hprevEnd : prev ≠ .eof) (hsep : prev.needsSeparator next = true) :
    prev.Ends ('/' :: rest) := by
  refine ends_of_separated hprev ?_ hprevEnd ?_ (separated_cons rfl (by decide))
  · rintro rfl
    cases hsep
  · cases prev with
    | function name => cases hsep
    | _ => rfl

end Token

/-- Tokens with white space behind some of the commas. -/
inductive Spread : List Token → List Token → Prop where
  | nil : Spread [] []
  | token {tokens spread : List Token} (token : Token) :
    Spread tokens spread → Spread (token :: tokens) (token :: spread)
  | comma {tokens spread : List Token} :
    Spread tokens spread → Spread (.comma :: tokens) (.comma :: .whitespace :: spread)

theorem Spread.append_inv {front back spread : List Token} (h : Spread (front ++ back) spread) :
    ∃ first second, spread = first ++ second ∧ Spread front first ∧ Spread back second := by
  induction front generalizing spread with
  | nil => exact ⟨[], spread, rfl, .nil, h⟩
  | cons t front ih =>
    cases h with
    | token _ h =>
      obtain ⟨first, second, rfl, hfirst, hsecond⟩ := ih h
      exact ⟨t :: first, second, rfl, .token t hfirst, hsecond⟩
    | comma h =>
      obtain ⟨first, second, rfl, hfirst, hsecond⟩ := ih h
      exact ⟨.comma :: .whitespace :: first, second, rfl, .comma hfirst, hsecond⟩

theorem Spread.append {front back first second : List Token} (h : Spread front first)
    (h' : Spread back second) : Spread (front ++ back) (first ++ second) := by
  induction h with
  | nil => exact h'
  | token t _ ih => exact .token t ih
  | comma _ ih => exact .comma ih

theorem Spread.head?_eq {tokens spread : List Token} (h : Spread tokens spread) :
    spread.head? = tokens.head? := by
  cases h <;> rfl

namespace Value

variable {limit : Option Nat} {depth : Nat} {values : List Value} {tokens : List Token}

/-- White space behind commas changes nothing but the white space between the
    values. -/
theorem Gathers.spread (h : Gathers limit depth tokens values) {spread : List Token}
    (hspread : Spread tokens spread) :
    ∃ others, Gathers limit depth spread others ∧ Alike others values ∧
      ∀ v ∈ others, v = .token .whitespace ∨ v ∈ values := by
  induction h generalizing spread with
  | nil =>
    cases hspread
    exact ⟨[], .nil, .refl [], by simp⟩
  | @token _ t tokens values hopens hcloses hend _ ih =>
    have hmem : ∀ {others : List Value}, (∀ v ∈ others, v = .token .whitespace ∨ v ∈ values) →
        ∀ v ∈ .token t :: others, v = .token .whitespace ∨ v ∈ .token t :: values := by
      intro others hothers v hv
      rcases List.mem_cons.1 hv with rfl | hv
      · exact .inr List.mem_cons_self
      · exact (hothers v hv).imp_right (List.mem_cons_of_mem _)
    cases hspread with
    | token _ hspread =>
      obtain ⟨others, hothers, halike, hothersMem⟩ := ih hspread
      exact ⟨.token t :: others, .token hopens hcloses hend hothers, halike.cons _, hmem hothersMem⟩
    | comma hspread =>
      obtain ⟨others, hothers, halike, hothersMem⟩ := ih hspread
      refine ⟨.token .comma :: .token .whitespace :: others,
        .token rfl rfl hend (.token rfl rfl (by simp) hothers), ?_, ?_⟩
      · exact (alike_comma_blank others).trans (halike.cons _)
      · refine hmem fun v hv => ?_
        rcases List.mem_cons.1 hv with rfl | hv
        · exact .inl rfl
        · exact hothersMem v hv
  | @nested _ opener inner tokens contents values hopens hnest _ _ ihinner ih =>
    cases hspread with
    | comma => cases hopens
    | token _ hspread =>
      obtain ⟨first, second, rfl, hfirst, hsecond⟩ := hspread.append_inv
      have hclose : ∃ rest, second = OpenValue.closer ⟨opener, []⟩ :: rest ∧ Spread tokens rest := by
        generalize hcloser : OpenValue.closer ⟨opener, []⟩ = closer at hsecond
        cases hsecond with
        | token _ hrest => exact ⟨_, rfl, hrest⟩
        | comma =>
          rcases OpenValue.closer_cases ⟨opener, []⟩ with h | h | h <;>
            · rw [h] at hcloser
              cases hcloser
      obtain ⟨rest, rfl, hrest⟩ := hclose
      obtain ⟨contents', hcontents', halike, -⟩ := ihinner hfirst
      obtain ⟨others, hothers, halike', hothersMem⟩ := ih hrest
      refine ⟨_, .nested hopens hnest hcontents' hothers, ?_, ?_⟩
      · rw [close_extend, close_extend, halike.normalize_eq]
        exact halike'.cons _
      · rw [close_extend, close_extend, halike.normalize_eq]
        intro v hv
        rcases List.mem_cons.1 hv with rfl | hv
        · exact .inr List.mem_cons_self
        · exact (hothersMem v hv).imp_right (List.mem_cons_of_mem _)

theorem joins_closer (open_ : OpenValue) (next : Token) : open_.closer.Joins next := by
  rcases open_.closer_cases with h | h | h <;>
    · rw [h]
      exact ⟨by simp [Token.opensUrl], by simp, by simp [Token.HidesMerge], by simp⟩

theorem joins_before_closer {prev : Token} (hopens : prev.opens = false) (open_ : OpenValue) :
    prev.Joins open_.closer := by
  refine ⟨fun hurl => ?_, fun _ => ?_, ?_, ?_⟩
  · rw [Token.opensUrl_of_opens hopens] at hurl
    cases hurl
  all_goals
    rcases open_.closer_cases with h | h | h <;> rw [h] <;> cases prev <;> simp [Token.HidesMerge]

theorem joins_of_opens {prev next : Token} (hopens : prev.opens = true)
    (hurl : prev.opensUrl = true → ∃ text, next = .string text) : prev.Joins next := by
  refine ⟨hurl, ?_, ?_, ?_⟩
  · rintro rfl
    cases hopens
  · cases prev <;> simp [Token.HidesMerge] <;> cases hopens
  · rintro ⟨rfl, -⟩
    cases hopens

/-- Whether no mark of an old comment stands among the values at any depth:
    neither the mark that closes one, nor what would be written like one. -/
def isUnmarked : List Value → Bool
  | [] => true
  | .token t :: rest =>
    t ≠ .commentClose && t ≠ .ident "--" &&
      !(t = .delim '<' && rest.head? = some (.token (.delim '!'))) && isUnmarked rest
  | .function _ arguments :: rest => isUnmarked arguments && isUnmarked rest
  | .block _ contents :: rest => isUnmarked contents && isUnmarked rest

theorem isUnmarked_nest {opener : Token} {contents rest : List Value}
    (h : isUnmarked (nest opener contents :: rest) = true) :
    isUnmarked contents = true ∧ isUnmarked rest = true := by
  cases opener <;> simpa [nest, isUnmarked] using h

theorem isUnmarked_cons {v : Value} {rest : List Value} (h : isUnmarked (v :: rest) = true) :
    isUnmarked rest = true ∧ v ≠ .token (.ident "--") ∧
      ¬(v = .token (.delim '<') ∧ rest.head? = some (.token (.delim '!'))) := by
  cases v with
  | token t =>
    simp only [isUnmarked, Bool.and_eq_true, Bool.not_eq_true', Bool.and_eq_false_iff,
      decide_eq_false_iff_not, decide_eq_true_eq] at h
    exact ⟨h.2, by simpa using h.1.1.2, fun hboth => by simp_all⟩
  | function name arguments =>
    simp only [isUnmarked, Bool.and_eq_true] at h
    exact ⟨h.2, by simp, by simp⟩
  | block opener contents =>
    simp only [isUnmarked, Bool.and_eq_true] at h
    exact ⟨h.2, by simp, by simp⟩

/-- Two values that can be written side by side. -/
structure Beside (a b : Value) : Prop where
  blank : a.isBlank = true ∨ a.isComma = true → b.isBlank = false
  mark : ¬(a = .token (.delim '<') ∧ b = .token (.delim '!'))
  hides : ¬(a = .token (.ident "--") ∧ b = .token (.delim '>'))

/-- Values that can be written in a row. -/
def Spaced (values : List Value) : Prop :=
  List.IsChain Beside values

theorem spaced_of_chain (hchain : List.IsChain Neighbors values)
    (hunmarked : isUnmarked values = true) : Spaced values := by
  induction values with
  | nil => exact .nil
  | cons v rest ih =>
    rw [List.isChain_cons] at hchain
    obtain ⟨hrest, hdashes, hmark⟩ := isUnmarked_cons hunmarked
    refine (ih hchain.2 hrest).cons fun w hw => ⟨fun hv => ?_, fun hboth => ?_, fun hboth => ?_⟩
    · rcases hv with hv | hv
      · exact ((hchain.1 w hw).1 hv).1
      · exact (hchain.1 w hw).2 hv
    · rw [hboth.2] at hw
      exact hmark ⟨hboth.1, hw⟩
    · exact hdashes hboth.1

/-- Values that can be written and read back. -/
abbrev Writable : Option Nat → Nat → List Value → Prop :=
  Consists Token.Plain Spaced

/-- Values that can be written and are read back as they are. -/
abbrev Neat : Option Nat → Nat → List Value → Prop :=
  Consists Token.Plain fun values => Tidy values ∧ Spaced values

theorem Neat.writable (h : Neat limit depth values) : Writable limit depth values :=
  h.mono (fun _ ht => ht) fun _ hboth => hboth.2

theorem Neat.sound (h : Neat limit depth values) : Sound limit depth values :=
  h.mono (fun _ ht => ht.1) fun _ hboth => hboth.1

theorem Sound.neat (h : Sound limit depth values) (hunmarked : isUnmarked values = true) :
    Neat limit depth values := by
  induction h with
  | nil => exact .nil
  | token hlegible hopens hcloses hend _ ih =>
    have hrest := (isUnmarked_cons hunmarked).1
    simp only [isUnmarked, Bool.and_eq_true, decide_eq_true_eq] at hunmarked
    exact .token ⟨hlegible, hunmarked.1.1.1⟩ hopens hcloses hend (ih hrest)
  | nested hlegible hopens hurl hnest htidy _ _ ihinner ih =>
    obtain ⟨hcontents, hrest⟩ := isUnmarked_nest hunmarked
    refine .nested ⟨hlegible, ?_⟩ hopens hurl hnest
      ⟨htidy, spaced_of_chain (tidy_iff.1 htidy).1 hcontents⟩ (ihinner hcontents) (ih hrest)
    rintro rfl
    cases hopens

theorem Sound.writable (h : Sound limit depth values) (hunmarked : isUnmarked values = true) :
    Writable limit depth values :=
  (h.neat hunmarked).writable

theorem Writable.plain (h : Writable limit depth values) :
    ∀ t ∈ flatten values, t.Plain ∧ t ≠ .eof :=
  h.forall_flatten fun t ht => by
    cases t <;> simp_all [Token.closes, Token.Plain, Token.Legible]

theorem Writable.ends_getLast (h : Writable limit depth values)
    (hlast : ∀ v ∈ values.getLast?, v.isBlank = false) {more : List Char} (hmore : Separated more) :
    ∀ t ∈ (flatten values).getLast?, t.Ends more := by
  intro t ht
  obtain ⟨hplain, hend⟩ := h.plain t (List.mem_of_getLast? ht)
  exact Token.ends_of_separated hplain.1 (h.getLast_ne_whitespace hlast t ht) hend
    (Token.opensUrl_of_opens (h.opens_getLast t ht)) hmore

/-- Neighboring tokens of such values can be kept apart. -/
theorem Writable.joins (h : Writable limit depth values) (hspaced : Spaced values) :
    List.IsChain Token.Joins (flatten values) := by
  induction h with
  | nil =>
    rw [flatten]
    exact .nil
  | @token _ t rest hplain hopens _ _ hrest ih =>
    rw [flatten]
    unfold Spaced at hspaced
    rw [List.isChain_cons] at hspaced
    refine (ih hspaced.2).cons fun u hu => ?_
    obtain ⟨hnext, -⟩ := Writable.plain hrest u (List.mem_of_mem_head? hu)
    cases rest with
    | nil => simp [flatten] at hu
    | cons v rest =>
      rw [head_flatten] at hu
      cases hu
      obtain ⟨hblank, hmark, hdashes⟩ := hspaced.1 v rfl
      refine ⟨fun hurl => ?_, fun ht hv => ?_, fun hhides => ?_, fun hboth => ?_⟩
      · rw [Token.opensUrl_of_opens hopens] at hurl
        cases hurl
      · rw [hrest.eq_of_head (by rw [hv]; rfl), hv] at hblank
        refine absurd (hblank (.inl ?_)) (by simp [isBlank])
        rw [ht]
        rfl
      · unfold Token.HidesMerge at hhides
        split at hhides
        · next hv _ _ =>
          refine hdashes ⟨by rw [hhides.1], ?_⟩
          rw [hrest.eq_of_head (by rw [hv]; rfl), hv, hhides.2]
        · exact hnext.2 ‹_›
        · exact hnext.2 ‹_›
        · exact hhides
      · refine hmark ⟨by rw [hboth.1], ?_⟩
        rw [hrest.eq_of_head (by rw [hboth.2]; rfl), hboth.2]
  | @nested _ opener contents rest _ hopens hurl _ hcontents hinner _ ihinner ih =>
    rw [flatten_nest]
    unfold Spaced at hspaced
    rw [List.isChain_cons] at hspaced
    have hclose := (ih hspaced.2).cons fun u _ => joins_closer ⟨opener, []⟩ u
    refine ((ihinner hcontents).append hclose fun t ht u hu => ?_).cons fun u hu => ?_
    · cases hu
      exact joins_before_closer (hinner.opens_getLast t ht) ⟨opener, []⟩
    · refine joins_of_opens hopens fun hisUrl => ?_
      obtain ⟨text, htext⟩ := hurl hisUrl
      obtain ⟨others, rfl⟩ := List.head?_eq_some_iff.1 htext
      rw [flatten] at hu
      cases hu
      exact ⟨text, rfl⟩

/-- Values that can be written, and what their tokens gather into. -/
structure ReadsAs (limit : Option Nat) (depth : Nat) (written read : List Value) : Prop where
  writable : Writable limit depth written
  spaced : Spaced written
  last : ∀ v ∈ written.getLast?, v.isBlank = false
  gathers : Gathers limit depth (flatten written) read

/-- Neat values are read back as themselves. -/
theorem Neat.readsAs (h : Neat limit depth values) (hspaced : Spaced values)
    (hlast : ∀ v ∈ values.getLast?, v.isBlank = false) : ReadsAs limit depth values values :=
  ⟨h.writable, hspaced, hlast, h.sound.gathers⟩

theorem Sound.readsAs (h : Sound limit depth values) (htidy : Tidy values)
    (hunmarked : isUnmarked values = true) : ReadsAs limit depth values values := by
  obtain ⟨hchain, -, hlast⟩ := tidy_iff.1 htidy
  exact (h.neat hunmarked).readsAs (spaced_of_chain hchain hunmarked) hlast

end Value

namespace Layout

/-- A row is written with its tokens, and white space behind commas alone. -/
theorem spread_tokensAll (layout : Layout) (tokens : List Token) :
    Spread tokens (Piece.tokensAll (layout.tokens tokens)) := by
  fun_induction Layout.tokens layout tokens with
  | case1 => exact .nil
  | case2 t => exact .token t .nil
  | case3 prev next rest ih =>
    rw [Piece.tokensAll_token, Piece.tokensAll_append]
    unfold between
    split
    · next hcomma =>
      simp only [Bool.and_eq_true, decide_eq_true_eq] at hcomma
      obtain ⟨⟨⟨rfl, -⟩, -⟩, -⟩ := hcomma
      exact .comma ih
    · split
      · exact .token prev ih
      · exact .token prev ih

/-- Tokens in a row are read one after the other. Only the pretty layout puts
    white space behind commas. -/
theorem lexes_tokens (layout : Layout) {more : List Char} {tokens : List Token} {first : Token}
    {rest : List Token} (hlegible : ∀ t ∈ first :: rest, t.Legible ∧ t ≠ .eof)
    (hjoins : List.IsChain Token.Joins (first :: rest))
    (hends : ∀ t ∈ (first :: rest).getLast?, t.Ends more) (hmore : Lexes more tokens) :
    ∃ text spread, Piece.charsAll (layout.tokens (first :: rest)) ++ more = first.chars ++ text ∧
      first.Ends text ∧ Lexes text (spread ++ tokens) ∧ Spread (first :: rest) (first :: spread) ∧
      (layout = .minified → spread = rest) := by
  induction rest generalizing first with
  | nil =>
    refine ⟨more, [], ?_, hends first rfl, hmore, .token first .nil, fun _ => rfl⟩
    simp [Layout.tokens]
  | cons next rest ih =>
    rw [List.isChain_cons_cons] at hjoins
    obtain ⟨hjoin, hjoins⟩ := hjoins
    obtain ⟨hfirst, hfirstEnd⟩ := hlegible first List.mem_cons_self
    obtain ⟨hnext, hnextEnd⟩ := hlegible next (by simp)
    obtain ⟨text, spread, htext, hnextEnds, hlexes, hspread, hminified⟩ :=
      ih (fun t ht => hlegible t (List.mem_cons_of_mem first ht)) hjoins
        (fun t ht => hends t (by rwa [List.getLast?_cons_cons]))
    have hrest : Lexes (next.chars ++ text) (next :: (spread ++ tokens)) :=
      .cons_chars hnext hnextEnd hnextEnds hlexes
    rw [Layout.tokens, Piece.charsAll_token, Piece.charsAll_append, List.append_assoc,
      List.append_assoc, htext]
    unfold between
    split
    · next hcomma =>
      simp only [Bool.and_eq_true, decide_eq_true_eq] at hcomma
      obtain ⟨⟨⟨rfl, rfl⟩, -⟩, -⟩ := hcomma
      have hlexes' := @Lexes.blanks_append _ _ [' '] (by simp [isBlank]) (by simp) hrest
      -- white space that is there already takes in the blank of the layout
      by_cases hblank : next = .whitespace
      · subst hblank
        exact ⟨_, .whitespace :: spread, rfl, trivial, hlexes', .token .comma hspread, by simp⟩
      · rw [dropBlank_of_ne fun others heq => hblank (List.cons.inj heq).1] at hlexes'
        exact ⟨_, .whitespace :: next :: spread, rfl, trivial, hlexes', .comma hspread, by simp⟩
    · have hminified' : layout = .minified → next :: spread = next :: rest := fun h => by
        rw [hminified h]
      split
      · next hsep =>
        refine ⟨_, next :: spread, rfl, Token.ends_comment hfirst hfirstEnd hsep, ?_,
          .token first hspread, hminified'⟩
        exact (@Lexes.comment_append_iff _ _ [] rfl).2 hrest
      · next hsep =>
        rw [Bool.not_eq_true] at hsep
        exact ⟨_, next :: spread, rfl, hjoin.ends hfirst hfirstEnd hnext hnextEnd hsep hnextEnds,
          hrest, .token first hspread, hminified'⟩

/-- The first token of values in a row, and what is read behind it. -/
theorem lexes_first (layout : Layout) {limit : Option Nat} {depth : Nat}
    {written read : List Value} {more : List Char} {tokens rest : List Token} {first : Token}
    (h : Value.ReadsAs limit depth written read) (hflat : Value.flatten written = first :: rest)
    (hends : Separated more) (hmore : Lexes more tokens) :
    first.Legible ∧ first ≠ .eof ∧
      ∃ text spread, Piece.charsAll (layout.tokens (first :: rest)) ++ more = first.chars ++ text ∧
        first.Ends text ∧ Lexes text (spread ++ tokens) ∧
          Spread (first :: rest) (first :: spread) := by
  have hjoins := h.writable.joins h.spaced
  have hlast := h.writable.ends_getLast h.last hends
  have hplain := h.writable.plain
  rw [hflat] at hjoins hlast hplain
  have hlegible : ∀ t ∈ first :: rest, t.Legible ∧ t ≠ .eof := fun t ht =>
    (hplain t ht).imp_left And.left
  obtain ⟨hfirst, hfirstEnd⟩ := hlegible first List.mem_cons_self
  obtain ⟨text, spread, htext, hends', hlexes, hspread, -⟩ :=
    lexes_tokens layout hlegible hjoins hlast hmore
  exact ⟨hfirst, hfirstEnd, text, spread, htext, hends', hlexes, hspread⟩

/-- Values in a row are read as their tokens, but for white space behind commas. -/
theorem lexes_spread (layout : Layout) {limit : Option Nat} {depth : Nat}
    {written read : List Value} {more : List Char} {tokens : List Token}
    (h : Value.ReadsAs limit depth written read) (hends : Separated more)
    (hmore : Lexes more tokens) :
    ∃ spread, Lexes (Piece.charsAll (layout.values written) ++ more) (spread ++ tokens) ∧
      Spread (Value.flatten written) spread := by
  unfold Layout.values
  cases hflat : Value.flatten written with
  | nil => exact ⟨[], hmore, .nil⟩
  | cons first rest =>
    obtain ⟨hfirst, hfirstEnd, text, spread, htext, hends, hlexes, hspread⟩ :=
      layout.lexes_first h hflat hends hmore
    refine ⟨first :: spread, ?_, hspread⟩
    rw [htext]
    exact .cons_chars hfirst hfirstEnd hends hlexes

end Layout

end DeepScope
