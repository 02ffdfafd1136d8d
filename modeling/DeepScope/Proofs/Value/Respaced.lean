import DeepScope.Proofs.Value.Sound

namespace DeepScope

/-- White space behind such a token has no meaning. -/
def Token.frees (token : Token) : Bool :=
  token = .comma || token.opens

/-- White space in front of such a token has no meaning. -/
def Token.bounds (token : Token) : Bool :=
  token = .comma || token.closes

namespace Token

variable {t : Token}

theorem frees_of_opens (h : t.opens = true) : t.frees = true := by
  rw [frees, h, Bool.or_true]

theorem bounds_of_opens (h : t.opens = true) : t.bounds = false := by
  cases t <;> first | rfl | cases h

theorem frees_of_closes (h : t.closes = true) : t.frees = false := by
  cases t <;> first | rfl | cases h

theorem bounds_of_closes (h : t.closes = true) : t.bounds = true := by
  rw [bounds, h, Bool.or_true]

theorem ne_whitespace_of_opens (h : t.opens = true) : t ≠ .whitespace := by
  rintro rfl
  cases h

theorem ne_whitespace_of_closes (h : t.closes = true) : t ≠ .whitespace := by
  rintro rfl
  cases h

end Token

/-- Nothing but white space. -/
def AllBlank (tokens : List Token) : Prop :=
  ∀ t ∈ tokens, t = .whitespace

theorem AllBlank.nil : AllBlank [] := nofun

theorem AllBlank.cons {tokens : List Token} (h : AllBlank tokens) :
    AllBlank (.whitespace :: tokens) :=
  List.forall_mem_cons.2 ⟨rfl, h⟩

theorem AllBlank.tail {t : Token} {tokens : List Token} (h : AllBlank (t :: tokens)) :
    t = .whitespace ∧ AllBlank tokens :=
  List.forall_mem_cons.1 h

/-- Two lists of tokens that differ in white space without a meaning alone.
    `free` tells whether it has none in front, `bound` whether it has none at the
    end. -/
inductive Respaced (bound : Bool) : Bool → List Token → List Token → Prop where
  | blanks {free : Bool} {first second : List Token} :
    AllBlank first → AllBlank second → free = true ∨ bound = true ∨ first = second →
    Respaced bound free first second
  | token {free : Bool} {first second tokens others : List Token} {t : Token} :
    AllBlank first → AllBlank second → free = true ∨ t.bounds = true ∨ first = second →
    t ≠ .whitespace → Respaced bound t.frees tokens others →
    Respaced bound free (first ++ t :: tokens) (second ++ t :: others)

namespace Respaced

variable {free bound : Bool} {tokens others front back : List Token} {t : Token}

theorem symm (h : Respaced bound free tokens others) : Respaced bound free others tokens := by
  induction h with
  | blanks hfirst hsecond heq => exact .blanks hsecond hfirst (heq.imp_right (.imp_right .symm))
  | token hfirst hsecond heq ht _ ih =>
    exact .token hsecond hfirst (heq.imp_right (.imp_right .symm)) ht ih

theorem cons (ht : t ≠ .whitespace) (h : Respaced bound t.frees tokens others) :
    Respaced bound free (t :: tokens) (t :: others) :=
  .token .nil .nil (.inr (.inr rfl)) ht h

theorem cons_blank (h : Respaced bound free tokens others) :
    Respaced bound free (.whitespace :: tokens) (.whitespace :: others) := by
  cases h with
  | blanks hfirst hsecond heq =>
    exact .blanks hfirst.cons hsecond.cons (heq.imp_right (.imp_right (congrArg _)))
  | token hfirst hsecond heq ht hrest =>
    exact .token hfirst.cons hsecond.cons (heq.imp_right (.imp_right (congrArg _))) ht hrest

theorem refl (bound free : Bool) (tokens : List Token) : Respaced bound free tokens tokens := by
  induction tokens generalizing free with
  | nil => exact .blanks .nil .nil (.inr (.inr rfl))
  | cons t rest ih =>
    by_cases ht : t = .whitespace
    · rw [ht]
      exact (ih free).cons_blank
    · exact .cons ht (ih _)

/-- White space may be put in front where it is free. -/
theorem cons_free (h : Respaced bound true tokens others) :
    Respaced bound true tokens (.whitespace :: others) := by
  cases h with
  | blanks hfirst hsecond _ => exact .blanks hfirst hsecond.cons (.inl rfl)
  | token hfirst hsecond _ ht hrest => exact .token hfirst hsecond.cons (.inl rfl) ht hrest

/-- White space may be put behind where the end is bound. -/
theorem concat_bound (h : Respaced true free tokens others) :
    Respaced true free tokens (others ++ [.whitespace]) := by
  induction h with
  | blanks hfirst hsecond _ =>
    refine .blanks hfirst (fun t ht => ?_) (.inr (.inl rfl))
    rcases List.mem_append.1 ht with ht | ht
    · exact hsecond t ht
    · exact List.mem_singleton.1 ht
  | token hfirst hsecond heq ht _ ih =>
    rw [List.append_assoc, List.cons_append]
    exact .token hfirst hsecond heq ht ih

theorem append {front' back' : List Token} (ht : t ≠ .whitespace)
    (h : Respaced t.bounds free front front') (h' : Respaced bound t.frees back back') :
    Respaced bound free (front ++ t :: back) (front' ++ t :: back') := by
  induction h with
  | blanks hfirst hsecond heq => exact .token hfirst hsecond heq ht h'
  | token hfirst hsecond heq hne _ ih =>
    rw [List.append_assoc, List.append_assoc, List.cons_append, List.cons_append]
    exact .token hfirst hsecond heq hne ih

/-- What is respaced can be cut at any token that is no white space. -/
theorem split (ht : t ≠ .whitespace) (h : Respaced bound free (front ++ t :: back) others) :
    ∃ front' back', others = front' ++ t :: back' ∧ Respaced t.bounds free front front' ∧
      Respaced bound t.frees back back' := by
  generalize hall : front ++ t :: back = all at h
  induction h generalizing front with
  | blanks hfirst _ _ => exact absurd (hfirst t (by simp [← hall])) ht
  | @token free first second tokens others u hfirst hsecond heq hne hrest ih =>
    rcases List.append_eq_append_iff.1 hall with ⟨mid, rfl, hmid⟩ | ⟨mid, rfl, hmid⟩
    · cases mid with
      | nil =>
        obtain ⟨rfl, rfl⟩ := List.cons.inj hmid
        exact ⟨second, others, rfl, .blanks (by simpa using hfirst) hsecond (by simpa using heq), hrest⟩
      | cons v mid =>
        obtain ⟨rfl, -⟩ := List.cons.inj hmid
        exact absurd (hfirst t (by simp)) ht
    · cases mid with
      | nil =>
        obtain ⟨rfl, rfl⟩ := List.cons.inj hmid
        exact ⟨second, others, rfl, .blanks (by simpa using hfirst) hsecond (by simpa using heq), hrest⟩
      | cons v mid =>
        obtain ⟨rfl, rfl⟩ := List.cons.inj hmid
        obtain ⟨front', back', rfl, hfront, hback⟩ := ih rfl
        exact ⟨second ++ u :: front', back', by simp, .token hfirst hsecond heq hne hfront, hback⟩

theorem allBlank (h : Respaced bound free tokens others) (htokens : AllBlank tokens) :
    AllBlank others := by
  cases h with
  | blanks _ hsecond _ => exact hsecond
  | token _ _ _ ht _ => exact absurd (htokens _ (by simp)) ht

theorem nil_inv (h : Respaced bound free [] others) :
    AllBlank others ∧ (free = true ∨ bound = true ∨ others = []) := by
  generalize hall : ([] : List Token) = all at h
  cases h with
  | blanks _ hsecond heq =>
    subst hall
    exact ⟨hsecond, heq.imp_right (.imp_right .symm)⟩
  | token => simp at hall

/-- In front of the first token there may come white space, but only where it has
    no meaning. -/
theorem cons_inv (ht : t ≠ .whitespace) (h : Respaced bound free (t :: tokens) others) :
    ∃ blanks rest, others = blanks ++ t :: rest ∧ AllBlank blanks ∧
      (free = true ∨ t.bounds = true ∨ blanks = []) ∧ Respaced bound t.frees tokens rest := by
  have hfront : Respaced bound free ([] ++ t :: tokens) others := h
  obtain ⟨blanks, rest, rfl, hblanks, hrest⟩ := hfront.split ht
  exact ⟨blanks, rest, rfl, hblanks.nil_inv.1, hblanks.nil_inv.2, hrest⟩

/-- White space in front is either there on both sides, or has no meaning. -/
theorem blank_inv (h : Respaced bound free (.whitespace :: tokens) others) :
    Respaced bound free tokens others ∨
      ∃ rest, others = .whitespace :: rest ∧ Respaced bound free tokens rest := by
  generalize hall : Token.whitespace :: tokens = all at h
  cases h with
  | @blanks _ first second hfirst hsecond heq =>
    subst hall
    have htokens : AllBlank tokens := fun t ht => hfirst t (List.mem_cons_of_mem _ ht)
    rcases heq with hfree | hbound | rfl
    · exact .inl (.blanks htokens hsecond (.inl hfree))
    · exact .inl (.blanks htokens hsecond (.inr (.inl hbound)))
    · exact .inr ⟨tokens, rfl, .refl _ _ _⟩
  | @token _ first second rest others t hfirst hsecond heq ht hrest =>
    cases first with
    | nil => exact absurd (List.cons.inj hall).1.symm ht
    | cons u first =>
      obtain ⟨rfl, rfl⟩ := List.cons.inj hall
      have hblanks : AllBlank first := fun t ht => hfirst t (List.mem_cons_of_mem _ ht)
      rcases heq with hfree | hbound | rfl
      · exact .inl (.token hblanks hsecond (.inl hfree) ht hrest)
      · exact .inl (.token hblanks hsecond (.inr (.inl hbound)) ht hrest)
      · exact .inr ⟨first ++ t :: others, rfl, .token hblanks hblanks (.inr (.inr rfl)) ht hrest⟩

end Respaced

namespace Value

variable {limit : Option Nat} {depth : Nat} {blanks tokens : List Token} {values others : List Value}
  {v : Value}

theorem isBlank_token {t : Token} (ht : t ≠ .whitespace) : (Value.token t).isBlank = false := by
  cases t <;> first | rfl | exact absurd rfl ht

/-- A token that nests nothing frees and bounds white space only as a comma. -/
theorem frees_bounds_token {t : Token} (hopens : t.opens = false) (hcloses : t.closes = false) :
    t.frees = (Value.token t).isComma ∧ t.bounds = (Value.token t).isComma := by
  unfold Token.frees Token.bounds isComma
  rw [hopens, hcloses]
  cases t <;> exact ⟨rfl, rfl⟩

theorem Gathers.of_blanks (hblanks : AllBlank blanks) (h : Gathers limit depth tokens values) :
    Gathers limit depth (blanks ++ tokens) (blanks.map .token ++ values) := by
  induction blanks with
  | nil => exact h
  | cons t blanks ih =>
    obtain ⟨ht, hrest⟩ := hblanks.tail
    rw [ht]
    exact .token rfl rfl (by simp) (ih hrest)

theorem Gathers.blank_inv (h : Gathers limit depth (.whitespace :: tokens) values) :
    ∃ rest, values = .token .whitespace :: rest ∧ Gathers limit depth tokens rest := by
  cases h with
  | token _ _ _ hrest => exact ⟨_, rfl, hrest⟩
  | nested hopens => cases hopens

theorem Gathers.blanks_inv (hblanks : AllBlank blanks)
    (h : Gathers limit depth (blanks ++ tokens) values) :
    ∃ rest, values = blanks.map .token ++ rest ∧ Gathers limit depth tokens rest := by
  induction blanks generalizing values with
  | nil => exact ⟨values, rfl, h⟩
  | cons t blanks ih =>
    obtain ⟨rfl, hblanks'⟩ := hblanks.tail
    have hcons : Gathers limit depth (.whitespace :: (blanks ++ tokens)) values := h
    obtain ⟨others, rfl, hothers⟩ := hcons.blank_inv
    obtain ⟨rest, rfl, hrest⟩ := ih hblanks' hothers
    exact ⟨rest, rfl, hrest⟩

theorem normalizeFrom_blanks (hblanks : AllBlank blanks) (separable blank : Bool) :
    normalizeFrom separable blank (blanks.map .token ++ values) =
      normalizeFrom separable (blank || !blanks.isEmpty) values := by
  induction blanks generalizing blank with
  | nil => simp
  | cons t blanks ih =>
    obtain ⟨ht, hrest⟩ := hblanks.tail
    rw [ht, List.map_cons, List.cons_append, normalizeFrom_blank rfl, ih hrest]
    simp

/-- Values that differ in white space without a meaning alone. -/
structure Respaces (free : Bool) (values others : List Value) : Prop where
  normalizes : ∀ separable, (free = true → separable = false) →
    normalizeFrom separable false values = normalizeFrom separable false others
  subset : ∀ v ∈ others, v = .token .whitespace ∨ v ∈ values

theorem Respaces.of_blanks {first second : List Token} (hfirst : AllBlank first)
    (hsecond : AllBlank second) (free : Bool) :
    Respaces free (first.map .token) (second.map .token) := by
  refine ⟨fun separable _ => ?_, fun v hv => ?_⟩
  · rw [← List.append_nil (first.map Value.token), ← List.append_nil (second.map Value.token),
      normalizeFrom_blanks hfirst, normalizeFrom_blanks hsecond]
    rfl
  · obtain ⟨t, ht, rfl⟩ := List.mem_map.1 hv
    exact .inl (congrArg _ (hsecond t ht))

/-- White space in front of a value counts only behind a value other than a comma
    and in front of one. -/
theorem Respaces.cons {first second : List Token} {free : Bool} (hfirst : AllBlank first)
    (hsecond : AllBlank second) (hv : v.isBlank = false)
    (heq : free = true ∨ v.isComma = true ∨ first = second)
    (h : Respaces v.isComma values others) :
    Respaces free (first.map .token ++ v :: values) (second.map .token ++ v :: others) := by
  refine ⟨fun separable hfree => ?_, fun w hw => ?_⟩
  · have hrest := h.normalizes (!v.isComma) fun hcomma => by rw [hcomma]; rfl
    rw [normalizeFrom_blanks hfirst, normalizeFrom_blanks hsecond, normalizeFrom, normalizeFrom, hrest]
    rcases heq with hfree' | hcomma | rfl
    · simp [hv, hfree hfree']
    · simp [hv, hcomma]
    · simp [hv]
  · rcases List.mem_append.1 hw with hw | hw
    · obtain ⟨t, ht, rfl⟩ := List.mem_map.1 hw
      exact .inl (congrArg _ (hsecond t ht))
    · rcases List.mem_cons.1 hw with rfl | hw
      · exact .inr (by simp)
      · exact (h.subset w hw).imp_right fun h => by simp [h]

/-- Respaced tokens stand for values that differ in white space without a meaning
    alone. -/
theorem Gathers.respaced {bound free : Bool} {tokens' : List Token}
    (h : Gathers limit depth tokens values) (hspaced : Respaced bound free tokens tokens') :
    ∃ values', Gathers limit depth tokens' values' ∧ Respaces free values values' := by
  induction hn : tokens.length using Nat.strongRecOn generalizing depth tokens values bound free
    tokens' with
  | ind n ih =>
    subst hn
    cases hspaced with
    | blanks hfirst hsecond _ =>
      rw [← List.append_nil tokens] at h
      obtain ⟨rest, rfl, hrest⟩ := h.blanks_inv hfirst
      cases hrest
      have hgathers := Gathers.of_blanks hsecond (.nil : Gathers limit depth [] [])
      rw [List.append_nil, List.append_nil] at hgathers
      rw [List.append_nil]
      exact ⟨_, hgathers, .of_blanks hfirst hsecond _⟩
    | @token _ first second tokens others t hfirst hsecond heq ht hspaced =>
      obtain ⟨rest, rfl, hrest⟩ := h.blanks_inv hfirst
      cases hrest with
      | @token _ _ _ rest hopens hcloses hend hrest =>
        obtain ⟨rest', hgathers, hsame⟩ := ih _ (by simp; omega) hrest hspaced rfl
        obtain ⟨hfrees, hbounds⟩ := frees_bounds_token hopens hcloses
        rw [hbounds] at heq
        rw [hfrees] at hsame
        exact ⟨_, .of_blanks hsecond (.token hopens hcloses hend hgathers),
          .cons hfirst hsecond (isBlank_token ht) heq hsame⟩
      | @nested _ _ inner more contents rest hopens hnest hinner hrest =>
        have hcloses := OpenValue.closes_closer ⟨t, []⟩
        obtain ⟨inner', more', rfl, hspacedInner, hspacedMore⟩ :=
          hspaced.split (Token.ne_whitespace_of_closes hcloses)
        obtain ⟨contents', hgathers, hsameInner⟩ := ih _ (by simp; omega) hinner hspacedInner rfl
        obtain ⟨rest', hmore, hsame⟩ := ih _ (by simp; omega) hrest hspacedMore rfl
        have hcontents : normalize contents = normalize contents' :=
          hsameInner.normalizes false fun _ => rfl
        refine ⟨_, .of_blanks hsecond (.nested hopens hnest hgathers hmore), ?_⟩
        rw [close_extend, close_extend, hcontents]
        rw [Token.bounds_of_opens hopens] at heq
        rw [Token.frees_of_closes hcloses, ← isComma_nest (normalize contents')] at hsame
        exact .cons hfirst hsecond (isBlank_nest _) (heq.imp_right fun h => .inr (h.resolve_left nofun))
          hsame

theorem Gathers.normalize_respaced {bound free : Bool} {tokens' : List Token}
    (h : Gathers limit depth tokens values) (hspaced : Respaced bound free tokens tokens') :
    ∃ values', Gathers limit depth tokens' values' ∧ normalize values = normalize values' ∧
      ∀ v ∈ values', v = .token .whitespace ∨ v ∈ values := by
  obtain ⟨values', hgathers, hsame⟩ := h.respaced hspaced
  exact ⟨values', hgathers, hsame.normalizes false fun _ => rfl, hsame.subset⟩

end Value

end DeepScope
