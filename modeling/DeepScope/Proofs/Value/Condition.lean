import DeepScope.Proofs.Value.Colons

namespace DeepScope.Value

variable {layout : Layout} {values others : List Value}

/-- Changes what stands between parentheses, at any depth. -/
def onParens (change : List Value → List Value) : Value → Value
  | .block .openParen contents => .block .openParen (change (contents.map (onParens change)))
  | v => v

theorem onParens_of_ne (change : List Value → List Value) {v : Value}
    (h : ∀ contents, v ≠ .block .openParen contents) : onParens change v = v := by
  unfold onParens
  split
  · exact absurd rfl (h _)
  · rfl

theorem head_onParens (change : List Value → List Value) (v : Value) :
    (onParens change v).head = v.head := by
  unfold onParens
  split <;> rfl

theorem normalizeCondition_eq (values : List Value) :
    normalizeCondition values = values.map (onParens (tightenColons false)) := by
  fun_induction normalizeCondition values with
  | case1 => rfl
  | case2 contents rest ihcontents ih =>
    rw [List.map_cons, onParens, ihcontents, ih]
  | case3 v rest hne ih => rw [List.map_cons, onParens_of_ne _ hne, ih]

theorem layoutCondition_eq (layout : Layout) (values : List Value) :
    layoutCondition layout values =
      values.map (onParens fun contents => (contents.foldl (writeBeside layout) []).reverse) := by
  fun_induction layoutCondition layout values with
  | case1 => rfl
  | case2 contents rest ihcontents ih =>
    rw [List.map_cons, onParens, ihcontents, ih]
  | case3 v rest hne ih => rw [List.map_cons, onParens_of_ne _ hne, ih]

/-- A change of values that leaves white space, commas and colons as they are. -/
structure Similar (change : Value → Value) : Prop where
  isBlank : ∀ v, (change v).isBlank = v.isBlank
  isComma : ∀ v, (change v).isComma = v.isComma
  isColon : ∀ v, (change v).isColon = v.isColon

theorem similar_onParens (change : List Value → List Value) : Similar (onParens change) := by
  constructor <;>
    · intro v
      unfold onParens
      split <;> rfl

namespace Similar

variable {change : Value → Value}

theorem whitespace (h : Similar change) : change (.token .whitespace) = .token .whitespace :=
  eq_of_isBlank ((h.isBlank _).trans rfl)

theorem comma (h : Similar change) : change (.token .comma) = .token .comma :=
  eq_of_isComma ((h.isComma _).trans rfl)

theorem normalizeFrom_map (h : Similar change) (separable blank : Bool) (values : List Value) :
    normalizeFrom separable blank (values.map change) =
      (normalizeFrom separable blank values).map change := by
  fun_induction normalizeFrom separable blank values with
  | case1 => rfl
  | case2 _ _ v rest hblank ih => rw [List.map_cons, normalizeFrom, h.isBlank, if_pos hblank, ih]
  | case3 _ _ v rest hblank hsep ih =>
    rw [List.map_cons, normalizeFrom, h.isBlank, h.isComma, if_neg hblank, if_pos hsep, ih]
    simp [h.whitespace]
  | case4 _ _ v rest hblank hsep ih =>
    rw [List.map_cons, normalizeFrom, h.isBlank, h.isComma, if_neg hblank, if_neg hsep, ih]
    rfl

theorem spaceColons_map (h : Similar change) (afterColon : Bool) (values : List Value) :
    spaceColons layout afterColon (values.map change) =
      (spaceColons layout afterColon values).map change := by
  fun_induction spaceColons layout afterColon values with
  | case1 => rfl
  | case2 _ v rest hspace ih =>
    rw [List.map_cons, spaceColons, if_pos hspace, h.isColon, ih]
    simp [h.whitespace]
  | case3 _ v rest hspace ih =>
    rw [List.map_cons, spaceColons, if_neg hspace, h.isColon, ih]
    rfl

theorem head?_map_any_isColon (h : Similar change) (values : List Value) :
    (values.map change).head?.any Value.isColon = values.head?.any Value.isColon := by
  cases values with
  | nil => rfl
  | cons v rest => exact h.isColon v

theorem tightenColons_map (h : Similar change) (afterColon : Bool) (values : List Value) :
    tightenColons afterColon (values.map change) = (tightenColons afterColon values).map change := by
  induction values generalizing afterColon with
  | nil => rfl
  | cons v rest ih =>
    rw [List.map_cons, tightenColons, tightenColons, h.isBlank, h.isColon, h.head?_map_any_isColon,
      ih, ih]
    split <;> rfl

theorem neighbors (h : Similar change) {a b : Value} (hab : Neighbors a b) :
    Neighbors (change a) (change b) := by
  unfold Neighbors
  rwa [h.isBlank, h.isComma, h.isBlank, h.isComma]

theorem close (h : Similar change) {a b : Value} (hab : Close a b) :
    Close (change a) (change b) := by
  refine ⟨h.neighbors hab.neighbors, ?_, ?_⟩
  · rw [h.isColon, h.isBlank]
    exact hab.behind
  · rw [h.isColon, h.isBlank]
    exact hab.before

theorem tidy_map (h : Similar change) (htidy : Tidy values) : Tidy (values.map change) := by
  have hchain := List.isChain_map_of_isChain change (fun _ _ => h.neighbors) htidy
  rw [List.map_cons, List.map_append, List.map_singleton, h.comma] at hchain
  exact hchain

theorem tight_map (h : Similar change) (htight : Tight values) : Tight (values.map change) := by
  have hchain := List.isChain_map_of_isChain change (fun _ _ => h.close) htight
  rw [List.map_cons, List.map_append, List.map_singleton, h.comma] at hchain
  exact hchain

end Similar

/-- Values as a condition holds them: no white space stands beside a colon inside
    of parentheses. -/
inductive Conditioned : List Value → Prop where
  | nil : Conditioned []
  | paren {contents rest : List Value} :
    Tight contents → Conditioned contents → Conditioned rest →
    Conditioned (.block .openParen contents :: rest)
  | other {v : Value} {rest : List Value} :
    (∀ contents, v ≠ .block .openParen contents) → Conditioned rest → Conditioned (v :: rest)

namespace Conditioned

theorem append (h : Conditioned values) (h' : Conditioned others) :
    Conditioned (values ++ others) := by
  induction h with
  | nil => exact h'
  | paren htight hcontents _ _ ih => exact .paren htight hcontents ih
  | other hne _ ih => exact .other hne ih

theorem singleton (h : Conditioned values) : ∀ v ∈ values, Conditioned [v] := by
  induction h with
  | nil => simp
  | paren htight hcontents _ _ ih =>
    intro v hv
    rcases List.mem_cons.1 hv with rfl | hv
    · exact .paren htight hcontents .nil
    · exact ih v hv
  | other hne _ ih =>
    intro v hv
    rcases List.mem_cons.1 hv with rfl | hv
    · exact .other hne .nil
    · exact ih v hv

theorem of_forall (h : ∀ v ∈ values, Conditioned [v]) : Conditioned values := by
  induction values with
  | nil => exact .nil
  | cons v rest ih =>
    exact (h v List.mem_cons_self).append (ih fun w hw => h w (List.mem_cons_of_mem v hw))

theorem of_mem (h : Conditioned values) (hmem : ∀ v ∈ others, v ∈ values) : Conditioned others :=
  .of_forall fun v hv => h.singleton v (hmem v hv)

end Conditioned

section

variable {limit : Option Nat} {depth : Nat} {v : Value}

theorem nest_openParen (contents : List Value) :
    nest .openParen contents = .block .openParen contents := rfl

theorem nest_ne_paren {opener : Token} (h : opener ≠ .openParen) (contents : List Value) :
    ∀ inner, nest opener contents ≠ .block .openParen inner := by
  intro inner heq
  cases opener <;> simp_all [nest]

/-- What is read as a condition is sound if it was, and has its colons
    tightened. -/
theorem Sound.normalizeCondition (h : Sound limit depth values) :
    Sound limit depth (normalizeCondition values) ∧ Conditioned (normalizeCondition values) := by
  rw [normalizeCondition_eq]
  induction h with
  | nil => exact ⟨.nil, .nil⟩
  | token hlegible hopens hcloses hend _ ih =>
    rw [List.map_cons, onParens_of_ne _ (by simp)]
    exact ⟨.token hlegible hopens hcloses hend ih.1, .other (by simp) ih.2⟩
  | @nested _ opener contents rest hlegible hopens hurl hnest htidy hcontents _ ihinner ih =>
    by_cases hparen : opener = .openParen
    · subst hparen
      have htight := ((similar_onParens (tightenColons false)).tidy_map htidy).tight_tightenColons
      rw [List.map_cons, nest_openParen, onParens]
      refine ⟨.nested hlegible hopens nofun hnest htight.tidy ?_ ih.1, .paren htight ?_ ih.2⟩
      · exact ihinner.1.of_mem trivial fun v hv => .inr (mem_tightenColons hv)
      · exact ihinner.2.of_mem fun v hv => mem_tightenColons hv
    · have hne := nest_ne_paren hparen contents
      rw [List.map_cons, onParens_of_ne _ hne]
      exact ⟨.nested hlegible hopens hurl hnest htidy hcontents ih.1, .other hne ih.2⟩

/-- What the layout of a condition gathers into: its colons laid out, and then
    the white space dropped that separates nothing. -/
def regather (layout : Layout) : Value → Value :=
  onParens fun contents => normalize (spaceColons layout false contents)

theorem gathers_map {f g : Value → Value}
    (h : ∀ v ∈ values, Gathers limit depth (flatten [f v]) [g v]) :
    Gathers limit depth (flatten (values.map f)) (values.map g) := by
  induction values with
  | nil =>
    rw [List.map_nil, flatten]
    exact .nil
  | cons v rest ih =>
    have hrest := ih fun w hw => h w (List.mem_cons_of_mem v hw)
    have hcons := (h v List.mem_cons_self).append hrest
    rwa [← flatten_append] at hcons

/-- How a condition is laid out, value by value. -/
def layValue (layout : Layout) : Value → Value :=
  onParens fun contents => (contents.foldl (writeBeside layout) []).reverse

theorem layValue_paren {contents : List Value} (h : Tight contents) :
    layValue layout (.block .openParen contents) =
      .block .openParen ((spaceColons layout false contents).map (layValue layout)) := by
  have hsimilar : Similar (layValue layout) := similar_onParens _
  rw [← hsimilar.spaceColons_map, ← (hsimilar.tight_map h).reverse_foldl, layValue, onParens]

theorem regather_paren (contents : List Value) :
    regather layout (.block .openParen contents) =
      .block .openParen (normalize ((spaceColons layout false contents).map (regather layout))) := by
  have hsimilar : Similar (regather layout) := similar_onParens _
  rw [← hsimilar.spaceColons_map, regather, onParens]

/-- What laying out does to a value of a condition. -/
structure LaysOut (layout : Layout) (limit : Option Nat) (depth : Nat) (v : Value) : Prop where
  gathers : Gathers limit depth (flatten [layValue layout v]) [regather layout v]
  tightens : onParens (tightenColons false) (regather layout v) = v
  writable : isUnmarked [v] = true → Writable limit depth [layValue layout v]

theorem LaysOut.of_ne (h : Sound limit depth [v]) (hne : ∀ contents, v ≠ .block .openParen contents) :
    LaysOut layout limit depth v := by
  refine ⟨?_, ?_, ?_⟩
  · rw [layValue, regather, onParens_of_ne _ hne, onParens_of_ne _ hne]
    exact h.gathers
  · rw [regather, onParens_of_ne _ hne, onParens_of_ne _ hne]
  · rw [layValue, onParens_of_ne _ hne]
    exact h.writable

theorem isUnmarked_singleton (h : isUnmarked values = true) : ∀ v ∈ values, isUnmarked [v] = true := by
  induction values with
  | nil => simp
  | cons v rest ih =>
    intro w hw
    rcases List.mem_cons.1 hw with rfl | hw
    · cases w with
      | token t =>
        simp only [isUnmarked, Bool.and_eq_true] at h
        simp [isUnmarked, h.1.1.1, h.1.1.2]
      | function name arguments =>
        simp only [isUnmarked, Bool.and_eq_true] at h
        simp [isUnmarked, h.1]
      | block opener contents =>
        simp only [isUnmarked, Bool.and_eq_true] at h
        simp [isUnmarked, h.1]
    · exact ih (isUnmarked_cons h).1 w hw

theorem layValue_eq_token {t : Token} (h : layValue layout v = .token t) : v = .token t := by
  unfold layValue onParens at h
  split at h
  · cases h
  · exact h

theorem beside_layValue {a b : Value} (h : Beside a b) :
    Beside (layValue layout a) (layValue layout b) := by
  have hsimilar : Similar (layValue layout) := similar_onParens _
  refine ⟨?_, fun hboth => h.mark ?_, fun hboth => h.hides ?_⟩
  · rw [hsimilar.isBlank, hsimilar.isComma, hsimilar.isBlank]
    exact h.blank
  · exact ⟨layValue_eq_token hboth.1, layValue_eq_token hboth.2⟩
  · exact ⟨layValue_eq_token hboth.1, layValue_eq_token hboth.2⟩

theorem Tight.spaced_spaceColons (h : Tight values) (hunmarked : isUnmarked values = true) :
    Spaced (spaceColons layout false values) := by
  have hneighbors := h.chain.imp fun _ _ hab => hab.neighbors
  have hbeside := spaced_of_chain hneighbors (by simpa [isUnmarked] using hunmarked)
  exact (chain_spaceColons h.chain hbeside).tail

theorem LaysOut.paren {contents : List Value} (htight : Tight contents)
    (hnest : mayNest limit depth = true)
    (hinner : ∀ v ∈ contents, LaysOut layout limit (depth + 1) v) :
    LaysOut layout limit depth (.block .openParen contents) := by
  have hall : ∀ v ∈ spaceColons layout false contents, LaysOut layout limit (depth + 1) v := by
    intro v hv
    rcases mem_spaceColons hv with rfl | hv
    · exact .of_ne .whitespace (by simp)
    · exact hinner v hv
  refine ⟨?_, ?_, fun hunmarked => ?_⟩
  · have hgathers := @Gathers.nested _ _ .openParen _ _ _ _ rfl hnest
      (gathers_map fun v hv => (hall v hv).gathers) .nil
    rw [close_extend] at hgathers
    rw [layValue_paren htight, regather_paren, ← nest_openParen, ← nest_openParen, flatten_nest,
      flatten]
    exact hgathers
  · have htighten : Similar (onParens (tightenColons false)) := similar_onParens _
    have hback : ((spaceColons layout false contents).map (regather layout)).map
        (onParens (tightenColons false)) = spaceColons layout false contents := by
      rw [List.map_map]
      exact (List.map_congr_left fun v hv => (hall v hv).tightens).trans (List.map_id' _)
    rw [regather_paren, onParens, normalize, ← htighten.normalizeFrom_map, hback]
    exact congrArg _ htight.tightenColons_normalize
  · have hcontents : isUnmarked contents = true := by simpa [isUnmarked] using hunmarked
    rw [layValue_paren htight, ← nest_openParen]
    refine .nested ⟨trivial, by simp⟩ rfl (fun h => absurd h Bool.false_ne_true) hnest ?_ (.of_forall ?_) .nil
    · exact List.isChain_map_of_isChain (layValue layout) (fun a b hab => beside_layValue hab)
        (htight.spaced_spaceColons hcontents)
    · intro w hw
      obtain ⟨v, hv, rfl⟩ := List.mem_map.1 hw
      refine (hall v hv).writable ?_
      rcases mem_spaceColons hv with rfl | hv
      · simp [isUnmarked]
      · exact isUnmarked_singleton hcontents v hv

/-- Each value of a condition is laid out as it should be. -/
theorem Conditioned.laysOut (layout : Layout) (h : Sound limit depth values) (hcondition : Conditioned values) :
    ∀ v ∈ values, LaysOut layout limit depth v := by
  induction h with
  | nil => simp
  | token hlegible hopens hcloses hend _ ih =>
    intro v hv
    cases hcondition with
    | other hne hrest =>
      rcases List.mem_cons.1 hv with rfl | hv
      · exact .of_ne (.token hlegible hopens hcloses hend .nil) (by simp)
      · exact ih hrest v hv
  | @nested _ opener contents rest hlegible hopens hurl hnest htidy hcontents _ ihinner ih =>
    intro v hv
    generalize heq : nest opener contents :: rest = all at hcondition
    cases hcondition with
    | nil => cases heq
    | @paren inner others htight hinner hrest =>
      rw [List.cons.injEq] at heq
      obtain ⟨heq, rfl⟩ := heq
      obtain ⟨rfl, rfl⟩ := nest_eq_block heq
      rcases List.mem_cons.1 hv with rfl | hv
      · exact .paren htight hnest (ihinner hinner)
      · exact ih hrest v hv
    | other hne hrest =>
      cases heq
      rcases List.mem_cons.1 hv with rfl | hv
      · exact .of_ne (.nested hlegible hopens hurl hnest htidy hcontents .nil) hne
      · exact ih hrest v hv

/-- A condition that is laid out is read back with its colons laid out. -/
theorem Conditioned.readsAs (h : Sound limit depth values) (htidy : Tidy values)
    (hcondition : Conditioned values) (hunmarked : isUnmarked values = true) :
    ReadsAs limit depth (layoutCondition layout values) (values.map (regather layout)) := by
  have hlays := hcondition.laysOut layout h
  obtain ⟨hchain, -, hlast⟩ := tidy_iff.1 htidy
  rw [layoutCondition_eq]
  refine ⟨.of_forall fun w hw => ?_, ?_, fun w hw => ?_, gathers_map fun v hv => (hlays v hv).gathers⟩
  · obtain ⟨v, hv, rfl⟩ := List.mem_map.1 hw
    exact (hlays v hv).writable (isUnmarked_singleton hunmarked v hv)
  · exact List.isChain_map_of_isChain (layValue layout) (fun a b hab => beside_layValue hab)
      (spaced_of_chain hchain hunmarked)
  · rw [List.getLast?_map] at hw
    obtain ⟨v, hv, rfl⟩ := Option.map_eq_some_iff.1 hw
    exact ((similar_onParens _).isBlank v).trans (hlast v hv)

/-- Reading such a condition back tightens its colons again. -/
theorem Conditioned.normalizeCondition_normalize (h : Sound limit depth values) (htidy : Tidy values)
    (hcondition : Conditioned values) :
    Value.normalizeCondition (normalize (values.map (regather layout))) = values := by
  have hlays := hcondition.laysOut layout h
  have hsimilar : Similar (regather layout) := similar_onParens _
  rw [(hsimilar.tidy_map htidy).normalize_eq, normalizeCondition_eq, List.map_map]
  exact (List.map_congr_left fun v hv => (hlays v hv).tightens).trans (List.map_id' _)

theorem head_regather (v : Value) : (regather layout v).head = v.head :=
  head_onParens _ v

end

end DeepScope.Value
