import DeepScope.Proofs.Reader
import DeepScope.Value.Reader

namespace DeepScope

/-- An open value with more values inside. -/
def OpenValue.extend (open_ : OpenValue) (values : List Value) : OpenValue :=
  { open_ with values := values.reverse ++ open_.values }

theorem mayNest_of_le {limit : Option Nat} {depth outer : Nat} (hle : outer ≤ depth)
    (h : mayNest limit depth = true) : mayNest limit outer = true := by
  cases limit with
  | none => rfl
  | some most => exact decide_eq_true (Nat.lt_of_le_of_lt hle (of_decide_eq_true h))

namespace Value

/-- Tokens that stand for values, inside so many other levels. Every opening
    token has its closing one, and what stands between the two is kept without
    the white space that separates nothing. -/
inductive Gathers (limit : Option Nat) : Nat → List Token → List Value → Prop where
  | nil {depth : Nat} : Gathers limit depth [] []
  | token {depth : Nat} {token : Token} {tokens : List Token} {values : List Value} :
    token.opens = false → token.closes = false → token ≠ .eof →
    Gathers limit depth tokens values →
    Gathers limit depth (token :: tokens) (.token token :: values)
  | nested {depth : Nat} {opener : Token} {inner tokens : List Token}
    {contents values : List Value} :
    opener.opens = true → mayNest limit depth = true →
    Gathers limit (depth + 1) inner contents → Gathers limit depth tokens values →
    Gathers limit depth (opener :: (inner ++ OpenValue.closer ⟨opener, []⟩ :: tokens))
      ((OpenValue.extend ⟨opener, []⟩ contents).close :: values)

theorem Gathers.append {limit : Option Nat} {depth : Nat} {front back : List Token}
    {values values' : List Value} (h : Gathers limit depth front values)
    (h' : Gathers limit depth back values') :
    Gathers limit depth (front ++ back) (values ++ values') := by
  induction h with
  | nil => exact h'
  | token hopens hcloses hend _ ih => exact .token hopens hcloses hend (ih h')
  | nested hopens hnest hinner _ _ ih =>
    have hnested := Gathers.nested hopens hnest hinner (ih h')
    simpa only [List.cons_append, List.append_assoc] using hnested

theorem Gathers.cons_inv {limit : Option Nat} {depth : Nat} {tokens : List Token} {value : Value}
    {values : List Value} (h : Gathers limit depth tokens (value :: values)) :
    ∃ front back, tokens = front ++ back ∧ Gathers limit depth front [value] ∧
      Gathers limit depth back values := by
  cases h with
  | token hopens hcloses hend hback => exact ⟨_, _, rfl, .token hopens hcloses hend .nil, hback⟩
  | nested hopens hnest hinner hback =>
    refine ⟨_, _, ?_, .nested hopens hnest hinner .nil, hback⟩
    simp

/-- With fewer levels around them, tokens stand for the same values. -/
theorem Gathers.of_le {limit : Option Nat} {depth outer : Nat} {tokens : List Token}
    {values : List Value} (h : Gathers limit depth tokens values) (hle : outer ≤ depth) :
    Gathers limit outer tokens values := by
  induction h generalizing outer with
  | nil => exact .nil
  | token hopens hcloses hend _ ih => exact .token hopens hcloses hend (ih hle)
  | nested hopens hnest _ _ ihInner ih =>
    exact .nested hopens (mayNest_of_le hle hnest) (ihInner (Nat.succ_le_succ hle)) (ih hle)

/-- The token that a value begins with. -/
def head : Value → Token
  | .token t => t
  | .function name _ => .function name
  | .block opener _ => opener

/-- White space among values ends nothing where no white space does. -/
theorem heads_of_mem {ends : Token → Bool} {values others : List Value}
    (hblank : ends .whitespace = false) (hmem : ∀ v ∈ others, v = .token .whitespace ∨ v ∈ values)
    (hheads : ∀ v ∈ values, ends v.head = false) : ∀ v ∈ others, ends v.head = false := by
  intro v hv
  rcases hmem v hv with rfl | hv
  · exact hblank
  · exact hheads v hv

/-- Goes on behind the token that closes the innermost open value. -/
def resume (limit : Option Nat) (depth : Nat) (top : OpenValue) (below : List OpenValue)
    (last : Position) (items : List Located) : Except Failure (Value × Reader) :=
  match below with
  | [] => .ok (top.close, ⟨last, items⟩)
  | outer :: others => readOpen limit depth (outer.push top.close) others last items

end Value

namespace OpenValue

theorem push_extend (top : OpenValue) (value : Value) (values : List Value) :
    (top.push value).extend values = top.extend (value :: values) := by
  simp [push, extend]

theorem closer_push (top : OpenValue) (value : Value) : (top.push value).closer = top.closer := rfl

theorem head_close (top : OpenValue) : top.close.head = top.opener := by
  obtain ⟨opener, values⟩ := top
  cases opener <;> rfl

theorem closes_closer (top : OpenValue) : top.closer.closes = true := by
  unfold closer
  split
  · rfl
  · unfold Token.closer
    split <;> rfl

end OpenValue

theorem Token.opens_of_closes {token : Token} (h : token.closes = true) : token.opens = false := by
  cases token <;> first | rfl | cases h

namespace Value

variable {limit : Option Nat} {depth : Nat} {top : OpenValue} {below : List OpenValue}
  {last : Position} {items : List Located}

/-- Reading on inside an open value finds the values up to its closing token,
    and goes on behind that. -/
theorem readOpen_sound {value : Value} {reader : Reader}
    (h : readOpen limit depth top below last items = .ok (value, reader)) :
    ∃ inner values last' rest, items.map Located.token = inner ++ top.closer :: rest.map Located.token ∧
      Gathers limit (depth + below.length + 1) inner values ∧ rest.length < items.length ∧
      resume limit depth (top.extend values) below last' rest = .ok (value, reader) := by
  induction hn : items.length using Nat.strongRecOn generalizing top below last items with
  | ind n ih =>
    subst hn
    cases items with
    | nil => cases h
    | cons item rest =>
      have hlt : rest.length < (item :: rest).length := Nat.lt_succ_self _
      unfold readOpen at h
      split at h
      · next hcloser =>
        refine ⟨[], [], item.position, rest, by simp [hcloser], .nil, hlt, ?_⟩
        exact h
      · split at h
        · cases h
        · next hend =>
          split at h
          · next hopens =>
            split at h
            · next hnest =>
              obtain ⟨inner, contents, last₁, rest₁, htokens₁, hinner, hlt₁, hresume⟩ :=
                ih _ hlt h rfl
              obtain ⟨others, values, last₂, rest₂, htokens₂, hothers, hlt₂, hdone⟩ :=
                ih _ (Nat.lt_trans hlt₁ hlt) hresume rfl
              refine ⟨_, _, last₂, rest₂, ?_, .nested hopens ?_ hinner hothers, ?_, ?_⟩
              · simp [htokens₁, htokens₂, OpenValue.closer_push]
              · exact hnest
              · omega
              · rwa [OpenValue.push_extend] at hdone
            · cases h
          · next hopens =>
            split at h
            · cases h
            · next hcloses =>
              obtain ⟨inner, values, last₁, rest₁, htokens, hinner, hlt₁, hresume⟩ := ih _ hlt h rfl
              refine ⟨item.token :: inner, .token item.token :: values, last₁, rest₁, ?_,
                .token (by simpa using hopens) (by simpa using hcloses) hend hinner, ?_, ?_⟩
              · simp [htokens, OpenValue.closer_push]
              · omega
              · rwa [OpenValue.push_extend] at hresume

theorem readOpen_complete {inner rest : List Token} {values : List Value} {d : Nat}
    (h : Gathers limit d inner values) (top : OpenValue) (below : List OpenValue)
    (last : Position) (hdepth : d = depth + below.length + 1)
    (htokens : items.map Located.token = inner ++ top.closer :: rest) :
    ∃ last' items', items'.map Located.token = rest ∧
      readOpen limit depth top below last items =
        resume limit depth (top.extend values) below last' items' := by
  induction h generalizing top below last items rest with
  | nil =>
    cases items with
    | nil => cases htokens
    | cons item items =>
      obtain ⟨hitem, hrest⟩ := List.cons.inj htokens
      refine ⟨item.position, items, hrest, ?_⟩
      rw [readOpen.eq_def]
      dsimp only
      rw [if_pos hitem]
      rfl
  | @token _ token tokens values hopens hcloses hend _ ih =>
    cases items with
    | nil => cases htokens
    | cons item items =>
      obtain ⟨hitem, hrest⟩ := List.cons.inj htokens
      have hcloser : ¬token = top.closer := by
        rintro rfl
        rw [OpenValue.closes_closer] at hcloses
        cases hcloses
      obtain ⟨last', items', hitems', hread⟩ :=
        ih (top.push (.token token)) below item.position hdepth hrest
      refine ⟨last', items', hitems', ?_⟩
      rw [readOpen.eq_def]
      dsimp only
      rw [hitem, if_neg hcloser, if_neg hend, if_neg (by simp [hopens]),
        if_neg (by simp [hcloses]), hread, OpenValue.push_extend]
  | @nested _ opener inner tokens contents values hopens hnest _ _ ihInner ih =>
    cases items with
    | nil => cases htokens
    | cons item items =>
      obtain ⟨hitem, hrest⟩ := List.cons.inj htokens
      have hcloser : ¬opener = top.closer := by
        rintro rfl
        rw [Token.opens_of_closes (OpenValue.closes_closer top)] at hopens
        cases hopens
      have hend : ¬opener = .eof := by
        rintro rfl
        cases hopens
      have hrest' : items.map Located.token =
          inner ++ OpenValue.closer ⟨opener, []⟩ :: (tokens ++ top.closer :: rest) := by
        rw [hrest]
        simp
      obtain ⟨last₁, items₁, hitems₁, hread₁⟩ := ihInner ⟨opener, []⟩ (top :: below)
        item.position (by simp [hdepth]; omega) hrest'
      obtain ⟨last₂, items₂, hitems₂, hread₂⟩ := ih
        (top.push (OpenValue.extend ⟨opener, []⟩ contents).close) below last₁ hdepth hitems₁
      refine ⟨last₂, items₂, hitems₂, ?_⟩
      rw [readOpen.eq_def]
      dsimp only
      rw [hitem, if_neg hcloser, if_neg hend, if_pos hopens,
        if_pos (by rw [← hdepth]; exact hnest), hread₁, ← OpenValue.push_extend]
      exact hread₂

/-- Reading one value takes the tokens that it stands for. -/
theorem read_sound {reader after : Reader} {value : Value}
    (h : read limit depth reader = .ok (value, after)) :
    ∃ tokens, reader.tokens = tokens ++ after.tokens ∧ Gathers limit depth tokens [value] ∧
      value.head = reader.peek := by
  unfold read at h
  dsimp only at h
  split at h
  · cases h
  · next hend =>
    have htokens := Reader.tokens_eq_of_peek rfl hend
    split at h
    · next hopens =>
      split at h
      · next hnest =>
        obtain ⟨inner, contents, last', rest, hrest, hinner, -, hresume⟩ := readOpen_sound h
        cases hresume
        refine ⟨_, ?_, .nested hopens hnest hinner .nil, ?_⟩
        · rw [htokens, List.cons_append, List.append_assoc]
          exact congrArg (reader.peek :: ·) hrest
        · exact OpenValue.head_close _
      · cases h
    · next hopens =>
      split at h
      · cases h
      · next hcloses =>
        cases h
        exact ⟨_, htokens, .token (by simpa using hopens) (by simpa using hcloses) hend .nil, rfl⟩

/-- No value begins with a closing token, or with the end. -/
theorem Gathers.head_ne {tokens : List Token} {values : List Value}
    (h : Gathers limit depth tokens values) :
    ∀ v ∈ values, v.head.closes = false ∧ v.head ≠ .eof := by
  induction h with
  | nil => simp
  | token _ hcloses hend _ ih =>
    intro v hv
    rcases List.mem_cons.1 hv with rfl | hv
    · exact ⟨hcloses, hend⟩
    · exact ih v hv
  | @nested _ opener _ _ _ _ hopens _ _ _ _ ih =>
    intro v hv
    rcases List.mem_cons.1 hv with rfl | hv
    · rw [OpenValue.head_close _]
      show opener.closes = false ∧ opener ≠ .eof
      cases opener <;> simp_all [Token.opens, Token.closes]
    · exact ih v hv

variable {ends : Token → Bool}

theorem readUntil_sound {reader after : Reader} {values : List Value}
    (h : readUntil limit ends depth reader = .ok (values, after)) :
    ∃ tokens, reader.tokens = tokens ++ after.tokens ∧ Gathers limit depth tokens values ∧
      (∀ v ∈ values, ends v.head = false) ∧ ends after.peek = true := by
  fun_induction readUntil limit ends depth reader generalizing values after with
  | case1 reader hends =>
    cases h
    exact ⟨[], rfl, .nil, by simp, hends⟩
  | case2 => cases h
  | case3 => cases h
  | case4 reader hends value middle hread _ values' final hrest ih =>
    cases h
    obtain ⟨front, hfront, hvalue, hhead⟩ := read_sound hread
    obtain ⟨tokens, htokens, hvalues, hheads, hafter⟩ := ih hrest
    refine ⟨front ++ tokens, by rw [hfront, htokens, List.append_assoc],
      hvalue.append hvalues, ?_, hafter⟩
    intro v hv
    rcases List.mem_cons.1 hv with rfl | hv
    · rw [hhead]
      simpa using hends
    · exact hheads v hv

theorem read_complete {tokens rest : List Token} {value : Value}
    (h : Gathers limit depth tokens [value]) {reader : Reader}
    (htokens : reader.tokens = tokens ++ rest) :
    value.head = reader.peek ∧
      ∃ after, read limit depth reader = .ok (value, after) ∧ after.tokens = rest := by
  cases h with
  | token hopens hcloses hend hnil =>
    cases hnil
    have hpeek := Reader.peek_of_tokens htokens
    refine ⟨hpeek.symm, reader.advance, ?_, Reader.tokens_advance htokens⟩
    unfold read
    dsimp only
    rw [hpeek, if_neg hend, if_neg (by simp [hopens]), if_neg (by simp [hcloses])]
  | @nested _ opener inner _ contents _ hopens hnest hinner hnil =>
    cases hnil
    rw [List.cons_append] at htokens
    have hpeek := Reader.peek_of_tokens htokens
    have hend : ¬opener = .eof := by
      rintro rfl
      cases hopens
    have hinside : reader.advance.rest.map Located.token =
        inner ++ OpenValue.closer ⟨opener, []⟩ :: rest := by
      have hadvance := Reader.tokens_advance htokens
      simpa [Reader.tokens] using hadvance
    obtain ⟨last', items', hitems, hread⟩ := readOpen_complete hinner ⟨opener, []⟩ []
      reader.advance.last rfl hinside
    refine ⟨?_, ⟨last', items'⟩, ?_, hitems⟩
    · rw [hpeek]
      exact OpenValue.head_close _
    · unfold read
      dsimp only
      rw [hpeek, if_neg hend, if_pos hopens, if_pos hnest, hread]
      rfl

/-- Reading values up to the first token that ends them finds the values that
    the tokens before it stand for. -/
theorem readUntil_complete {tokens rest : List Token} {values : List Value}
    (h : Gathers limit depth tokens values) (hheads : ∀ v ∈ values, ends v.head = false)
    (hrest : ends (rest.head?.getD .eof) = true) {reader : Reader}
    (htokens : reader.tokens = tokens ++ rest) :
    ∃ after, readUntil limit ends depth reader = .ok (values, after) ∧ after.tokens = rest := by
  induction values generalizing tokens reader with
  | nil =>
    cases h
    refine ⟨reader, ?_, htokens⟩
    have hpeek : ends reader.peek = true := by
      rw [List.nil_append] at htokens
      cases rest with
      | nil => rwa [Reader.peek_of_nil htokens]
      | cons token rest => rwa [Reader.peek_of_tokens htokens]
    rw [readUntil, if_pos hpeek]
  | cons value values ih =>
    obtain ⟨front, back, rfl, hvalue, hvalues⟩ := h.cons_inv
    rw [List.append_assoc] at htokens
    obtain ⟨hhead, middle, hread, hmiddle⟩ := read_complete hvalue htokens
    obtain ⟨after, hafter, hrest⟩ :=
      ih hvalues (fun v hv => hheads v (List.mem_cons_of_mem _ hv)) hmiddle
    refine ⟨after, ?_, hrest⟩
    have hpeek : ¬ends reader.peek = true := by
      rw [← hhead, hheads value List.mem_cons_self]
      exact Bool.false_ne_true
    rw [readUntil, if_neg hpeek]
    split
    · next hfail =>
      rw [hread] at hfail
      cases hfail
    · next hok =>
      rw [hread] at hok
      cases hok
      rw [hafter]

end Value

end DeepScope
