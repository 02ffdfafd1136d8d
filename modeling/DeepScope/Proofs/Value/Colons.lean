import DeepScope.Proofs.Value.Written
import DeepScope.Value.Condition

namespace DeepScope.Value

variable {layout : Layout} {values : List Value}

theorem eq_of_isColon {v : Value} (h : v.isColon = true) : v = .token .colon := by
  unfold isColon at h
  split at h
  · rfl
  · cases h

/-- Neighbors without white space beside a colon. -/
structure Close (a b : Value) : Prop where
  neighbors : Neighbors a b
  behind : a.isColon = true → b.isBlank = false
  before : b.isColon = true → a.isBlank = false

/-- Tidy values without white space beside a colon. -/
def Tight (values : List Value) : Prop :=
  List.IsChain Close (.token .comma :: (values ++ [.token .comma]))

theorem Tight.tidy (h : Tight values) : Tidy values :=
  List.IsChain.imp (fun _ _ hclose => hclose.neighbors) h

theorem tightenColons_cons {v : Value} (h : v.isBlank = false) (afterColon : Bool)
    (rest : List Value) :
    tightenColons afterColon (v :: rest) = v :: tightenColons v.isColon rest := by
  simp [tightenColons, h]

theorem tightenColons_true_blank (rest : List Value) :
    tightenColons true (.token .whitespace :: rest) = tightenColons true rest := by
  simp [tightenColons, isBlank]

theorem mem_tightenColons {afterColon : Bool} {v : Value}
    (h : v ∈ tightenColons afterColon values) : v ∈ values := by
  fun_induction tightenColons afterColon values with
  | case1 => cases h
  | case2 _ w rest _ ih => exact List.mem_cons_of_mem w (ih h)
  | case3 _ w rest _ ih =>
    rcases List.mem_cons.1 h with rfl | h
    · exact List.mem_cons_self
    · exact List.mem_cons_of_mem w (ih h)

/-- Neighbors neither of which is white space beside a colon. -/
structure Apart (a b : Value) : Prop where
  behind : a.isColon = true → b.isBlank = false
  before : b.isColon = true → a.isBlank = false

theorem Close.apart {a b : Value} (h : Close a b) : Apart a b :=
  ⟨h.behind, h.before⟩

/-- Tightening leaves no white space beside a colon where none is doubled. It only
    ever makes neighbors of values other than white space. -/
theorem chain_tightenColons {R : Value → Value → Prop} {u : Value}
    (hsingle : ∀ a b, R a b → a.isBlank = true → b.isBlank = false)
    (hplain : ∀ a b, a.isBlank = false → b.isBlank = false → R a b)
    (hchain : List.IsChain R (u :: values))
    (hblank : u.isBlank = true → values.head?.any isColon = false) :
    List.IsChain (fun a b => R a b ∧ Apart a b) (u :: tightenColons u.isColon values) := by
  induction values generalizing u with
  | nil => exact .singleton u
  | cons v rest ih =>
    rw [List.isChain_cons_cons] at hchain
    obtain ⟨hneighbors, hrest⟩ := hchain
    rw [tightenColons]
    split
    · next hdrop =>
      rw [Bool.and_eq_true] at hdrop
      have hu : u.isBlank = false := Bool.eq_false_iff.2 fun hu => by
        simp [hsingle u v hneighbors hu] at hdrop
      refine ih ?_ fun h => absurd h (by simp [hu])
      refine hrest.tail.cons fun w hw => hplain u w hu ?_
      exact hsingle v w (hrest.rel_head? hw) hdrop.1
    · next hkeep =>
      refine .cons_cons ⟨hneighbors, fun hcolon => ?_, fun hcolon => ?_⟩ (ih hrest fun hv => ?_)
      · simpa [hcolon] using hkeep
      · exact Bool.eq_false_iff.2 fun hu => by simpa [hcolon] using hblank hu
      · exact (by simpa [hv] using hkeep : _ ∧ rest.head?.any isColon = false).2

theorem tightenColons_concat_comma (afterColon : Bool) (values : List Value) :
    tightenColons afterColon (values ++ [.token .comma]) =
      tightenColons afterColon values ++ [.token .comma] := by
  induction values generalizing afterColon with
  | nil => rfl
  | cons v rest ih =>
    have hhead : (rest ++ [Value.token .comma]).head?.any isColon = rest.head?.any isColon := by
      cases rest <;> rfl
    rw [List.cons_append, tightenColons, tightenColons, hhead, ih, ih]
    split <;> rfl

theorem Tidy.tight_tightenColons (h : Tidy values) : Tight (tightenColons false values) := by
  have hchain := chain_tightenColons (fun _ _ hab ha => (hab.1 ha).1)
    (fun _ _ => neighbors_of_not_blank) h nofun
  rw [show isColon (Value.token .comma) = false from rfl, tightenColons_concat_comma] at hchain
  exact hchain.imp fun _ _ hab => ⟨hab.1, hab.2.behind, hab.2.before⟩

/-- Values with white space behind their colons, in the pretty layout. -/
def spaceColons (layout : Layout) (afterColon : Bool) : List Value → List Value
  | [] => []
  | v :: rest =>
    if afterColon && layout = .pretty then .token .whitespace :: v :: spaceColons layout v.isColon rest
    else v :: spaceColons layout v.isColon rest

theorem mem_spaceColons {afterColon : Bool} {v : Value}
    (h : v ∈ spaceColons layout afterColon values) : v = .token .whitespace ∨ v ∈ values := by
  fun_induction spaceColons layout afterColon values with
  | case1 => cases h
  | case2 _ w rest _ ih =>
    rcases List.mem_cons.1 h with rfl | h
    · exact .inl rfl
    · rcases List.mem_cons.1 h with rfl | h
      · exact .inr List.mem_cons_self
      · exact (ih h).imp_right (List.mem_cons_of_mem w)
  | case3 _ w rest _ ih =>
    rcases List.mem_cons.1 h with rfl | h
    · exact .inr List.mem_cons_self
    · exact (ih h).imp_right (List.mem_cons_of_mem w)

theorem spaceColons_minified (afterColon : Bool) (values : List Value) :
    spaceColons .minified afterColon values = values := by
  induction values generalizing afterColon with
  | nil => rfl
  | cons v rest ih => simp [spaceColons, ih]

theorem head?_spaceColons_false (layout : Layout) (values : List Value) :
    (spaceColons layout false values).head? = values.head? := by
  cases values with
  | nil => rfl
  | cons v rest => simp [spaceColons]

/-- The white space that is put behind colons is dropped again, and nothing else
    where none stands beside them. -/
theorem tightenColons_spaceColons {u : Value} (layout : Layout)
    (h : List.IsChain Apart (u :: values)) :
    tightenColons u.isColon (spaceColons layout u.isColon values) = values := by
  induction values generalizing u with
  | nil => rfl
  | cons v rest ih =>
    rw [List.isChain_cons_cons] at h
    obtain ⟨hapart, hrest⟩ := h
    rw [spaceColons]
    split
    · next hspace =>
      rw [Bool.and_eq_true] at hspace
      rw [hspace.1, tightenColons_true_blank, tightenColons_cons (hapart.behind hspace.1), ih hrest]
    · rw [tightenColons, if_neg, ih hrest]
      intro hdrop
      rw [Bool.and_eq_true, Bool.or_eq_true] at hdrop
      obtain ⟨hv, hcolon | hhead⟩ := hdrop
      · rw [hapart.behind hcolon] at hv
        cases hv
      · rw [eq_of_isBlank hv] at hhead hrest
        rw [show isColon (Value.token .whitespace) = false from rfl,
          head?_spaceColons_false] at hhead
        obtain ⟨w, hw, hcolon⟩ := (Option.any_eq_true _ _).1 hhead
        cases (hrest.rel_head? hw).before hcolon

theorem isBlank_of_isColon {v : Value} (h : v.isColon = true) : v.isBlank = false := by
  rw [eq_of_isColon h]
  rfl

theorem writeBeside_of_not_colon {written : List Value} (h : written.head?.any isColon = false)
    (v : Value) : writeBeside layout written v =
      v :: if v.isColon && written.head?.any isBlank then written.tail else written := by
  cases written with
  | nil => simp [writeBeside]
  | cons last before =>
    have hlast : last.isColon = false := by simpa using h
    rw [writeBeside, hlast, if_neg (by simp), List.head?_cons, Option.any_some, List.tail_cons]
    split <;> rfl

/-- Writing one value after the other comes to tightening the colons and putting
    white space behind them. Of what was written before, only a blank in front of
    a colon is taken back. -/
theorem foldl_writeBeside (layout : Layout) (written values : List Value) :
    values.foldl (writeBeside layout) written =
      (spaceColons layout (written.head?.any isColon)
          (tightenColons (written.head?.any isColon) values)).reverse ++
        if written.head?.any isBlank && values.head?.any isColon then written.tail else written := by
  induction values generalizing written with
  | nil => simp [tightenColons, spaceColons]
  | cons v rest ih =>
    rw [List.foldl_cons]
    cases hcolon : written.head?.any isColon with
    | true =>
      cases written with
      | nil => cases hcolon
      | cons last before =>
        have hlast : last.isColon = true := by simpa using hcolon
        rw [writeBeside, if_pos hlast, List.head?_cons, Option.any_some, isBlank_of_isColon hlast]
        cases hv : v.isBlank with
        | true =>
          rw [if_pos rfl, ih, eq_of_isBlank hv, tightenColons_true_blank]
          simp [hlast, isBlank_of_isColon hlast]
        | false =>
          rw [if_neg (by simp), tightenColons_cons hv, spaceColons]
          split <;>
            · next hpretty =>
              rw [ih]
              simp [hv, hpretty]
    | false =>
      rw [writeBeside_of_not_colon hcolon, ih, List.head?_cons, Option.any_some, Option.any_some,
        List.head?_cons, Option.any_some, List.tail_cons, tightenColons, Bool.false_or]
      by_cases hdrop : (v.isBlank && rest.head?.any isColon) = true
      · have hv : v.isColon = false := by
          rw [Bool.and_eq_true] at hdrop
          rw [eq_of_isBlank hdrop.1]
          rfl
        rw [if_pos hdrop, if_pos hdrop, hv]
        simp
      · rw [if_neg hdrop, if_neg hdrop, spaceColons, Bool.and_comm v.isColon]
        simp

theorem reverse_foldl_writeBeside (layout : Layout) (values : List Value) :
    (values.foldl (writeBeside layout) []).reverse =
      spaceColons layout false (tightenColons false values) := by
  rw [foldl_writeBeside]
  simp

theorem Tight.chain (h : Tight values) : List.IsChain Close (.token .comma :: values) := by
  rw [Tight, ← List.cons_append] at h
  exact h.left_of_append

theorem Tight.reverse_foldl (h : Tight values) :
    (values.foldl (writeBeside layout) []).reverse = spaceColons layout false values := by
  have htight := tightenColons_spaceColons .minified (h.chain.imp fun _ _ hab => hab.apart)
  rw [spaceColons_minified] at htight
  rw [reverse_foldl_writeBeside]
  exact congrArg _ htight

/-- The white space behind colons separates nothing but what it stands between. -/
theorem chain_spaceColons {u : Value} (hclose : List.IsChain Close (u :: values))
    (hbeside : List.IsChain Beside (u :: values)) :
    List.IsChain Beside (u :: spaceColons layout u.isColon values) := by
  induction values generalizing u with
  | nil => exact .singleton u
  | cons v rest ih =>
    rw [List.isChain_cons_cons] at hclose hbeside
    have hrest := ih hclose.2 hbeside.2
    rw [spaceColons]
    split
    · next hspace =>
      rw [Bool.and_eq_true] at hspace
      have hu := eq_of_isColon hspace.1
      refine .cons_cons ⟨fun h => ?_, by simp [hu], by simp [hu]⟩
        (.cons_cons ⟨fun _ => ?_, by simp, by simp⟩ hrest)
      · simp [hu, isBlank, isComma] at h
      · exact hclose.1.behind hspace.1
    · exact .cons_cons hbeside.1 hrest

theorem isComma_of_isColon {v : Value} (h : v.isColon = true) : v.isComma = false := by
  rw [eq_of_isColon h]
  rfl

/-- In front of white space there is neither a colon nor a comma. -/
theorem Close.plain {u v : Value} (h : Close u v) (hv : v.isBlank = true) :
    u.isColon = false ∧ u.isComma = false := by
  refine ⟨Bool.eq_false_iff.2 fun hcolon => ?_, Bool.eq_false_iff.2 fun hcomma => ?_⟩
  · simp [h.behind hcolon] at hv
  · simp [h.neighbors.2 hcomma] at hv

/-- Behind a colon it does not matter whether white space stands in front of the
    next value. -/
theorem tightenColons_normalizeFrom_blank {v : Value} (hv : v.isBlank = false) (rest : List Value) :
    tightenColons true (normalizeFrom true true (v :: rest)) =
      tightenColons true (normalizeFrom true false (v :: rest)) := by
  cases hcomma : v.isComma with
  | true => rw [eq_of_isComma hcomma, normalizeFrom_comma, normalizeFrom_comma]
  | false => rw [normalizeFrom_true_cons hv hcomma, tightenColons_true_blank]

/-- Tidying drops at most the white space behind colons again, and tightening
    drops that anyway. -/
theorem tightenColons_normalizeFrom {u : Value}
    (h : List.IsChain Close (u :: (values ++ [.token .comma]))) :
    (u.isBlank = false → tightenColons u.isColon
      (normalizeFrom (!u.isComma) false (spaceColons layout u.isColon values)) = values) ∧
    (u.isBlank = true → tightenColons false
      (normalizeFrom true true (spaceColons layout false values)) = u :: values) := by
  induction values generalizing u with
  | nil =>
    refine ⟨fun _ => rfl, fun hu => ?_⟩
    have hcomma := ((h.rel_head? rfl).neighbors.1 hu).2
    cases hcomma
  | cons v rest ih =>
    rw [List.cons_append, List.isChain_cons_cons] at h
    obtain ⟨hclose, hrest⟩ := h
    obtain ⟨hkept, hblank⟩ := ih hrest
    have hcons : v.isBlank = false → ∀ afterColon separable, tightenColons afterColon
        (normalizeFrom separable false (v :: spaceColons layout v.isColon rest)) = v :: rest := by
      intro hv afterColon separable
      rw [normalizeFrom_cons hv, tightenColons_cons hv, hkept hv]
    refine ⟨fun hu => ?_, fun hu => ?_⟩
    · rw [spaceColons]
      cases hv : v.isBlank with
      | false =>
        split
        · next hspace =>
          rw [Bool.and_eq_true] at hspace
          rw [normalizeFrom_blank rfl, hspace.1, isComma_of_isColon hspace.1, Bool.not_false,
            tightenColons_normalizeFrom_blank hv]
          exact hcons hv true true
        · exact hcons hv _ _
      | true =>
        obtain ⟨hcolon, hcomma⟩ := hclose.plain hv
        have hvColon : v.isColon = false := by
          rw [eq_of_isBlank hv]
          rfl
        rw [hcolon, hcomma, if_neg (by simp), normalizeFrom_blank hv, Bool.not_false, hvColon]
        exact hblank hv
    · obtain ⟨hv, hcomma⟩ := hclose.neighbors.1 hu
      have hcolon : v.isColon = false := Bool.eq_false_iff.2 fun hcolon => by
        simp [hclose.before hcolon] at hu
      rw [spaceColons, if_neg (by simp), normalizeFrom_true_cons hv hcomma, tightenColons, if_neg,
        eq_of_isBlank hu]
      · exact congrArg _ (hcons hv _ true)
      · rw [normalizeFrom_cons hv]
        simp [hcolon]

theorem Tight.tightenColons_normalize (h : Tight values) :
    tightenColons false (normalize (spaceColons layout false values)) = values :=
  (tightenColons_normalizeFrom h).1 rfl

end DeepScope.Value
