import DeepScope.Proofs.Rule.Forms
import DeepScope.Proofs.Value.Respaced

namespace DeepScope

variable {limit : Option Nat} {depth : Nat} {bound free : Bool} {tokens others front back : List Token}

/-- White space in front of the first token is taken off. -/
theorem Respaced.peel {t : Token} (ht : t ≠ .whitespace)
    (h : Respaced bound free (t :: front ++ back) others) :
    ∃ blanks rest, others = blanks ++ t :: rest ∧ AllBlank blanks ∧
      Respaced bound free (t :: front ++ back) (t :: rest) := by
  obtain ⟨blanks, rest, rfl, hblanks, -, hrest⟩ := h.cons_inv ht
  exact ⟨blanks, rest, rfl, hblanks, .cons ht hrest⟩

theorem Prelude.Forms.respaced {prelude : Prelude} (h : Prelude.Forms limit depth front prelude)
    (hspaced : Respaced bound free (front ++ back) others) :
    ∃ front' back', others = front' ++ back' ∧ Prelude.Forms limit depth front' prelude ∧
      Respaced bound prelude.hasBlock back back' := by
  cases h with
  | @intro tokens values hasBlock hgathers hheads =>
    rw [List.append_assoc, List.singleton_append] at hspaced
    obtain ⟨tokens', back', rfl, htokens, hback⟩ := hspaced.split (by cases hasBlock <;> simp [ender])
    obtain ⟨values', hgathers', hnormal, hvalues⟩ := hgathers.normalize_respaced htokens
    refine ⟨tokens' ++ [ender hasBlock], back', by simp, ?_, ?_⟩
    · rw [hnormal]
      exact .intro hgathers' (Value.heads_of_mem rfl hvalues hheads)
    · rwa [show (ender hasBlock).frees = hasBlock by cases hasBlock <;> rfl] at hback

namespace Declaration

theorem Forms.respaced {declaration : Declaration} (h : Forms limit depth front declaration)
    (hsemicolon : ∀ t ∈ back.head?, t = .semicolon)
    (hspaced : Respaced bound free (front ++ back) others) :
    ∃ blanks front' back', others = blanks ++ (front' ++ back') ∧ AllBlank blanks ∧
      Forms limit depth front' declaration ∧ (∀ t ∈ back'.head?, t = .semicolon) ∧
      Respaced bound false back back' := by
  cases h with
  | @intro name gap tokens values hgap hgathers hheads hempty =>
    rw [List.cons_append, List.append_assoc, List.cons_append] at hspaced
    obtain ⟨blanks, rest, rfl, hblanks, -, hspaced⟩ := hspaced.cons_inv (by simp)
    obtain ⟨gap', rest, rfl, hgap', hspaced⟩ := hspaced.split (by simp)
    have hvalue : ∀ {bound free tokens'}, Respaced bound free tokens tokens' →
        Forms limit depth (.ident name :: (gap' ++ .colon :: tokens')) (ofValues name values) := by
      intro bound free tokens' htokens
      obtain ⟨values', hgathers', hnormal, hvalues⟩ := hgathers.normalize_respaced htokens
      have hsame : ofValues name values = ofValues name values' := by rw [ofValues, hnormal, ofValues]
      rw [hsame] at hempty ⊢
      exact .intro (hgap'.allBlank hgap) hgathers' (Value.heads_of_mem rfl hvalues hheads) hempty
    cases back with
    | nil =>
      rw [List.append_nil] at hspaced
      exact ⟨blanks, _, [], by simp, hblanks, hvalue hspaced, by simp, .refl _ _ _⟩
    | cons t back =>
      obtain rfl := hsemicolon t rfl
      obtain ⟨tokens', back', rfl, htokens, hback⟩ := hspaced.split (by simp)
      refine ⟨blanks, _, .semicolon :: back', ?_, hblanks, hvalue htokens, by simp, .cons (by simp) hback⟩
      simp

theorem BlockForms.of_blanks {declarations : List Declaration} {blanks : List Token}
    (hblanks : AllBlank blanks) (h : BlockForms limit depth tokens declarations) :
    BlockForms limit depth (blanks ++ tokens) declarations := by
  induction blanks with
  | nil => exact h
  | cons t blanks ih => exact .skip (.inl hblanks.tail.1) (ih hblanks.tail.2)

theorem BlockForms.respaced {declarations : List Declaration}
    (h : BlockForms limit depth tokens declarations) (hspaced : Respaced bound free tokens others) :
    BlockForms limit depth others declarations := by
  induction h generalizing free others with
  | nil => simpa using BlockForms.of_blanks hspaced.nil_inv.1 (.nil : BlockForms limit depth [] [])
  | skip hskip _ ih =>
    rcases hskip with rfl | rfl
    · rcases hspaced.blank_inv with hsame | ⟨rest, rfl, hrest⟩
      · exact ih hsame
      · exact .skip (.inl rfl) (ih hrest)
    · obtain ⟨blanks, rest, rfl, hblanks, -, hspaced⟩ := hspaced.cons_inv (by simp)
      exact .of_blanks hblanks (.skip (.inr rfl) (ih hspaced))
  | declaration hform hsemicolon _ ih =>
    obtain ⟨blanks, front', back', rfl, hblanks, hform', hsemicolon', hspaced⟩ :=
      hform.respaced hsemicolon hspaced
    exact .of_blanks hblanks (.declaration hform' hsemicolon' (ih hspaced))

/-- A block of declarations may be respaced up to the brace that closes it. -/
theorem BlockForms.respaced_closed {declarations : List Declaration}
    (h : BlockForms limit depth front declarations)
    (hspaced : Respaced bound free (front ++ .closeBrace :: back) others) :
    ∃ front' back', others = front' ++ .closeBrace :: back' ∧
      BlockForms limit depth front' declarations ∧ Respaced bound false back back' := by
  obtain ⟨front', back', rfl, hfront, hback⟩ := hspaced.split (by simp)
  exact ⟨front', back', rfl, h.respaced hfront, hback⟩

end Declaration

theorem StyleRule.Forms.respaced {rule : StyleRule} (h : Forms limit depth front rule)
    (hspaced : Respaced bound free (front ++ back) others) :
    ∃ front' back', others = front' ++ back' ∧ Forms limit depth front' rule ∧
      Respaced bound false back back' := by
  cases h with
  | intro hprelude hselectors hbody =>
    rw [List.append_assoc, List.append_assoc] at hspaced
    obtain ⟨front', rest, rfl, hprelude', hspaced⟩ := hprelude.respaced hspaced
    obtain ⟨body', back', rfl, hbody', hback⟩ := hbody.respaced_closed hspaced
    exact ⟨front' ++ (body' ++ [.closeBrace]), back', by simp, .intro hprelude' hselectors hbody',
      hback⟩

namespace PageRule.BlockForms

variable {declarations : List Declaration} {margins : List MarginRule}

theorem of_blanks {blanks : List Token} (hblanks : AllBlank blanks)
    (h : BlockForms limit depth tokens declarations margins) :
    BlockForms limit depth (blanks ++ tokens) declarations margins := by
  induction blanks with
  | nil => exact h
  | cons t blanks ih => exact .skip (.inl hblanks.tail.1) (ih hblanks.tail.2)

theorem respaced (h : BlockForms limit depth tokens declarations margins)
    (hspaced : Respaced bound free tokens others) :
    BlockForms limit depth others declarations margins := by
  induction h generalizing free others with
  | nil => simpa using of_blanks hspaced.nil_inv.1 (.nil : BlockForms limit depth [] [] [])
  | skip hskip _ ih =>
    rcases hskip with rfl | rfl
    · rcases hspaced.blank_inv with hsame | ⟨rest, rfl, hrest⟩
      · exact ih hsame
      · exact .skip (.inl rfl) (ih hrest)
    · obtain ⟨blanks, rest, rfl, hblanks, -, hspaced⟩ := hspaced.cons_inv (by simp)
      exact .of_blanks hblanks (.skip (.inr rfl) (ih hspaced))
  | declaration hform hsemicolon _ ih =>
    obtain ⟨blanks, front', back', rfl, hblanks, hform', hsemicolon', hspaced⟩ :=
      hform.respaced hsemicolon hspaced
    exact .of_blanks hblanks (.declaration hform' hsemicolon' (ih hspaced))
  | margin hprelude hbody _ ih =>
    obtain ⟨blanks, rest, rfl, hblanks, -, hspaced⟩ := hspaced.cons_inv (by simp)
    obtain ⟨front', rest, rfl, hprelude', hspaced⟩ := hprelude.respaced hspaced
    obtain ⟨body', back', rfl, hbody', hback⟩ := hbody.respaced_closed hspaced
    exact .of_blanks hblanks (.margin hprelude' hbody' (ih hback))

end PageRule.BlockForms

namespace KeyframesRule.BlockForms

variable {blocks : List KeyframeBlock}

theorem of_blanks {blanks : List Token} (hblanks : AllBlank blanks)
    (h : BlockForms limit depth tokens blocks) : BlockForms limit depth (blanks ++ tokens) blocks := by
  induction blanks with
  | nil => exact h
  | cons t blanks ih =>
    rw [hblanks.tail.1]
    exact .skip (ih hblanks.tail.2)

theorem respaced (h : BlockForms limit depth tokens blocks)
    (hspaced : Respaced bound free tokens others) : BlockForms limit depth others blocks := by
  induction h generalizing free others with
  | nil => simpa using of_blanks hspaced.nil_inv.1 (.nil : BlockForms limit depth [] [])
  | skip _ ih =>
    rcases hspaced.blank_inv with hsame | ⟨rest, rfl, hrest⟩
    · exact ih hsame
    · exact .skip (ih hrest)
  | @block front body back values declarations blocks hprelude hblank hpieces hbody _ ih =>
    obtain ⟨t, more, rfl, -⟩ := hprelude.head
    obtain ⟨blanks, rest, rfl, hblanks, hspaced⟩ := Respaced.peel (by simpa using hblank) hspaced
    obtain ⟨front', rest', hrest, hprelude', hspaced⟩ := hprelude.respaced hspaced
    obtain ⟨body', back', rfl, hbody', hback⟩ := hbody.respaced_closed hspaced
    rw [hrest]
    refine .of_blanks hblanks (.block hprelude' ?_ hpieces hbody' (ih hback))
    obtain ⟨u, more', rfl, -⟩ := hprelude'.head
    obtain ⟨rfl, -⟩ := List.cons.inj hrest
    exact hblank

end KeyframesRule.BlockForms

theorem AtRule.BodyForms.respaced {name : String} {prelude : Prelude} {rule : Option Rule}
    (h : BodyForms limit depth name prelude front rule)
    (hspaced : Respaced bound prelude.hasBlock (front ++ back) others) :
    ∃ front' back', others = front' ++ back' ∧ BodyForms limit depth name prelude front' rule ∧
      Respaced bound false back back' := by
  have hclosed : ∀ {body : List Token}, Respaced bound true (body ++ [.closeBrace] ++ back) others →
      ∃ body' back', others = body' ++ [.closeBrace] ++ back' ∧ Respaced true true body body' ∧
        Respaced bound false back back' := by
    intro body hspaced
    rw [List.append_assoc, List.singleton_append] at hspaced
    obtain ⟨body', back', rfl, hbody, hback⟩ := hspaced.split (by simp)
    exact ⟨body', back', by simp, hbody, hback⟩
  cases h with
  | charset hkind => exact ⟨[], others, rfl, .charset hkind, hspaced⟩
  | statement hkind => exact ⟨[], others, rfl, .statement hkind, hspaced⟩
  | page hkind hbody =>
    obtain ⟨body', back', rfl, hbody', hback⟩ := hclosed hspaced
    exact ⟨_, back', rfl, .page hkind (hbody.respaced hbody'), hback⟩
  | keyframes hkind hbody =>
    obtain ⟨body', back', rfl, hbody', hback⟩ := hclosed hspaced
    exact ⟨_, back', rfl, .keyframes hkind (hbody.respaced hbody'), hback⟩
  | descriptors hkind hbody =>
    obtain ⟨body', back', rfl, hbody', hback⟩ := hclosed hspaced
    exact ⟨_, back', rfl, .descriptors hkind (hbody.respaced hbody'), hback⟩
  | verbatim hkind hbody =>
    obtain ⟨body', back', rfl, hbody', hback⟩ := hclosed hspaced
    cases hbody with
    | intro hgathers =>
      obtain ⟨values', hgathers', hnormal, -⟩ := hgathers.normalize_respaced hbody'
      rw [hnormal]
      exact ⟨_, back', rfl, .verbatim hkind (.intro hgathers'), hback⟩

namespace Rule.Forms

variable {rules : List Rule}

theorem of_blanks {blanks : List Token} (hblanks : AllBlank blanks)
    (h : Forms limit depth tokens rules) : Forms limit depth (blanks ++ tokens) rules := by
  induction blanks with
  | nil => exact h
  | cons t blanks ih =>
    rw [hblanks.tail.1]
    exact .blank (ih hblanks.tail.2)

/-- Respaced tokens make up the same rules. -/
theorem respaced (h : Forms limit depth tokens rules) (hspaced : Respaced bound free tokens others) :
    Forms limit depth others rules := by
  induction h generalizing bound free others with
  | nil => simpa using of_blanks hspaced.nil_inv.1 (.nil : Forms limit _ [] [])
  | blank _ ih =>
    rcases hspaced.blank_inv with hsame | ⟨rest, rfl, hrest⟩
    · exact ih hsame
    · exact .blank (ih hrest)
  | mark hdepth hmark _ ih =>
    obtain ⟨blanks, rest, rfl, hblanks, -, hspaced⟩ :=
      hspaced.cons_inv (by rcases hmark with rfl | rfl <;> simp)
    exact .of_blanks hblanks (.mark hdepth hmark (ih hspaced))
  | @style depth front back rule rules hstyle hhead _ ih =>
    obtain ⟨t, more, rfl, -⟩ := hstyle.head
    have ht : t ≠ .whitespace := by
      rintro rfl
      cases hhead .whitespace rfl
    obtain ⟨blanks, rest, rfl, hblanks, hspaced⟩ := Respaced.peel ht hspaced
    obtain ⟨front', back', hrest, hstyle', hback⟩ := hstyle.respaced hspaced
    rw [hrest]
    refine .of_blanks hblanks (.style hstyle' (fun u hu => ?_) (ih hback))
    obtain ⟨w, more', rfl, -⟩ := hstyle'.head
    obtain ⟨rfl, -⟩ := List.cons.inj hrest
    exact hhead u hu
  | atRule hprelude hbody _ ih =>
    obtain ⟨blanks, rest, rfl, hblanks, -, hspaced⟩ := hspaced.cons_inv (by simp)
    obtain ⟨front', rest, rfl, hprelude', hspaced⟩ := hprelude.respaced hspaced
    obtain ⟨body', back', rfl, hbody', hback⟩ := hbody.respaced hspaced
    exact .of_blanks hblanks (.atRule hprelude' hbody' (ih hback))
  | group hkind hnest hprelude _ _ ihInner ih =>
    obtain ⟨blanks, rest, rfl, hblanks, -, hspaced⟩ := hspaced.cons_inv (by simp)
    obtain ⟨front', rest, rfl, hprelude', hspaced⟩ := hprelude.respaced hspaced
    obtain ⟨inner', back', rfl, hinner, hback⟩ := hspaced.split (by simp)
    exact .of_blanks hblanks (.group hkind hnest hprelude' (ihInner hinner) (ih hback))

end Rule.Forms

end DeepScope
