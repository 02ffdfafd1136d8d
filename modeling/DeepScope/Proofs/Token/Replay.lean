import DeepScope.Proofs.Token.Stream

namespace DeepScope.Tokenizer

/-- A token with its place, or the fault that stands where the next one should. -/
abbrev Item := Except (Position × LexicalError) Located

/-- What a reader of tokens can be asked for. -/
inductive Step where
  | next
  | restart
  | remaining
deriving DecidableEq, Repr

/-- The answer to a step. -/
inductive Answer where
  | item (item : Option Item)
  | restarted
  | items (outcome : Except (Position × LexicalError) (List Located))

/-- Takes one step. -/
def step (tokenizer : Tokenizer) : Step → Answer × Tokenizer
  | .next =>
    let (item, after) := tokenizer.next
    (.item item, after)
  | .restart => (.restarted, tokenizer.restart)
  | .remaining =>
    let (outcome, after) := tokenizer.remaining
    (.items outcome, after)

/-- The answers to steps in order. -/
def answers (tokenizer : Tokenizer) : List Step → List Answer
  | [] => []
  | first :: rest => (tokenizer.step first).1 :: (tokenizer.step first).2.answers rest

/-- The items that are handed out one after the other, until there are none and the
    reader stays as it is. -/
inductive Yields : Tokenizer → List Item → Prop where
  | nil {tokenizer : Tokenizer} : tokenizer.next = (none, tokenizer) → Yields tokenizer []
  | cons {tokenizer after : Tokenizer} {item : Item} {items : List Item} :
    tokenizer.next = (some item, after) → Yields after items → Yields tokenizer (item :: items)

/-- The items of a text: tokens up to the end or up to the first fault, and nothing
    behind these. -/
inductive Complete : List Item → Prop where
  | fault (fault : Position × LexicalError) : Complete [.error fault]
  | eof {item : Located} : item.token = .eof → Complete [.ok item]
  | cons {item : Located} {items : List Item} :
    item.token ≠ .eof → Complete items → Complete (.ok item :: items)

/-- A list of items, and how many of them lie in front of the mark. -/
structure Replay where
  items : List Item
  taken : Nat

namespace Replay

/-- The items behind the mark. -/
def left (replay : Replay) : List Item :=
  replay.items.drop replay.taken

/-- All tokens behind the mark. If a fault comes last, it is told instead of
    them. -/
def outcome (replay : Replay) : Except (Position × LexicalError) (List Located) :=
  match replay.left.getLast? with
  | some (.error fault) => .error fault
  | _ => .ok (replay.left.filterMap Except.toOption)

/-- Takes one step. -/
def step (replay : Replay) : Step → Answer × Replay
  | .next =>
    match replay.items[replay.taken]? with
    | some item => (.item (some item), { replay with taken := replay.taken + 1 })
    | none => (.item none, replay)
  | .restart => (.restarted, { replay with taken := 0 })
  | .remaining => (.items replay.outcome, { replay with taken := replay.items.length })

/-- The answers to steps in order. -/
def answers (replay : Replay) : List Step → List Answer
  | [] => []
  | first :: rest => (replay.step first).1 :: (replay.step first).2.answers rest

end Replay

variable {tokenizer : Tokenizer} {replay : Replay} {source : List Char} {cursor after : Cursor}
  {item : Located} {items others : List Item}

theorem Yields.unique (h : Yields tokenizer items) (h' : Yields tokenizer others) :
    items = others := by
  induction h generalizing others with
  | nil hnext =>
    cases h' with
    | nil => rfl
    | cons hnext' _ =>
      rw [hnext] at hnext'
      cases hnext'
  | cons hnext _ ih =>
    cases h' with
    | nil hnext' =>
      rw [hnext] at hnext'
      cases hnext'
    | cons hnext' hrest =>
      rw [hnext] at hnext'
      cases hnext'
      rw [ih hrest]

theorem next_fault {fault : Position × LexicalError} (h : cursor.next = .error fault) :
    next ⟨source, some cursor⟩ = (some (.error fault), ⟨source, none⟩) := by
  simp only [next, h]

theorem next_eof (h : cursor.next = .ok (item, after)) (heof : item.token = .eof) :
    next ⟨source, some cursor⟩ = (some (.ok item), ⟨source, none⟩) := by
  simp only [next, h, if_pos heof]

theorem next_token (h : cursor.next = .ok (item, after)) (hne : item.token ≠ .eof) :
    next ⟨source, some cursor⟩ = (some (.ok item), ⟨source, some after⟩) := by
  simp only [next, h, if_neg hne]

/-- The text stays the same. -/
theorem source_of_next {next : Option Item} {after : Tokenizer}
    (h : tokenizer.next = (next, after)) : after.source = tokenizer.source := by
  unfold Tokenizer.next at h
  split at h
  · cases h
    rfl
  · split at h <;>
    · cases h
      rfl

/-- Behind the end, or behind a fault, nothing is handed out any more. -/
theorem yields_none (source : List Char) : Yields ⟨source, none⟩ [] := .nil rfl

/-- At a place of the text the items from there on are handed out. -/
theorem yields_items (source : List Char) (cursor : Cursor) :
    Yields ⟨source, some cursor⟩ cursor.items := by
  fun_induction Cursor.items cursor with
  | case1 cursor fault hnext => exact .cons (next_fault hnext) (yields_none source)
  | case2 cursor item after hnext heof => exact .cons (next_eof hnext heof) (yields_none source)
  | case3 cursor item after hnext hne _ ih => exact .cons (next_token hnext hne) ih

theorem complete_items (cursor : Cursor) : Complete cursor.items := by
  fun_induction Cursor.items cursor with
  | case1 cursor fault => exact .fault fault
  | case2 cursor item after _ heof => exact .eof heof
  | case3 cursor item after _ hne _ ih => exact .cons hne ih

theorem Complete.ne_nil (h : Complete items) : items ≠ [] := by
  cases h <;> exact List.cons_ne_nil _ _

/-- A fault can only come last, so that it is found whether one looks for it from
    the front or from the back. -/
theorem Complete.collect_eq (h : Complete items) :
    collect items =
      match items.getLast? with
      | some (.error last) => .error last
      | _ => .ok (items.filterMap Except.toOption) := by
  induction h with
  | fault => rfl
  | eof => rfl
  | @cons item items _ hrest ih =>
    obtain ⟨last, hlast⟩ : ∃ last, items.getLast? = some last :=
      ⟨_, List.getLast?_eq_some_getLast hrest.ne_nil⟩
    have hcons : List.getLast? (Except.ok item :: items) = some last := by
      rw [List.getLast?_cons, hlast, Option.getD_some]
    rw [collect, ih, hcons, hlast]
    cases last <;> rfl

/-- What is left all at once is what is left one by one. -/
theorem Yields.remaining_eq (h : tokenizer.Yields replay.left) :
    tokenizer.remaining = (replay.outcome, { tokenizer with cursor := none }) := by
  obtain ⟨source, cursor⟩ := tokenizer
  have hcollect : collect replay.left = replay.outcome := by
    unfold Replay.outcome
    cases cursor with
    | none =>
      rw [h.unique (yields_none source)]
      rfl
    | some cursor =>
      rw [h.unique (yields_items source cursor)]
      exact (complete_items cursor).collect_eq
  rw [← hcollect]
  cases cursor with
  | none =>
    rw [h.unique (yields_none source)]
    rfl
  | some cursor =>
    rw [h.unique (yields_items source cursor)]
    rfl

/-- A reader that goes along with a mark in a list: from its beginning it yields all
    of the list, and from where it is what lies behind the mark. -/
structure Follows (tokenizer : Tokenizer) (replay : Replay) : Prop where
  all : tokenizer.restart.Yields replay.items
  ahead : tokenizer.Yields replay.left

namespace Follows

/-- One step is answered alike, and leaves the reader with the mark. -/
theorem step (h : Follows tokenizer replay) (request : Step) :
    (tokenizer.step request).1 = (replay.step request).1 ∧
      Follows (tokenizer.step request).2 (replay.step request).2 := by
  cases request with
  | next =>
    have hahead := h.ahead
    generalize hleft : replay.left = left at hahead
    cases hahead with
    | nil hnext =>
      have hnone : replay.items[replay.taken]? = none :=
        List.getElem?_eq_none (List.drop_eq_nil_iff.1 hleft)
      simp only [Tokenizer.step, Replay.step, hnext, hnone]
      exact ⟨trivial, h⟩
    | @cons _ after item items hnext hrest =>
      have hsome : replay.items[replay.taken]? = some item := by
        rw [← List.head?_drop, ← Replay.left, hleft, List.head?_cons]
      have hdrop : replay.items.drop (replay.taken + 1) = items := by
        rw [← List.tail_drop, ← Replay.left, hleft, List.tail_cons]
      have hsource : after.restart = tokenizer.restart := by
        rw [restart, restart, source_of_next hnext]
      simp only [Tokenizer.step, Replay.step, hnext, hsome]
      refine ⟨trivial, ?_, ?_⟩
      · rw [hsource]
        exact h.all
      · rw [Replay.left, hdrop]
        exact hrest
  | restart => exact ⟨rfl, h.all, h.all⟩
  | remaining =>
    have hstep : tokenizer.step .remaining =
        (.items replay.outcome, { tokenizer with cursor := none }) := by
      rw [Tokenizer.step, h.ahead.remaining_eq]
    have hleft : replay.items.drop replay.items.length = [] := List.drop_length
    rw [hstep]
    refine ⟨rfl, h.all, ?_⟩
    show Yields ⟨tokenizer.source, none⟩ (replay.items.drop replay.items.length)
    rw [hleft]
    exact yields_none tokenizer.source

/-- All steps are answered alike. -/
theorem answers_eq (h : Follows tokenizer replay) (steps : List Step) :
    tokenizer.answers steps = replay.answers steps := by
  induction steps generalizing tokenizer replay with
  | nil => rfl
  | cons first rest ih =>
    obtain ⟨hanswer, hafter⟩ := h.step first
    rw [answers, Replay.answers, hanswer, ih hafter]

end Follows

/-- A reader of tokens behaves as a mark in one list of items, which it is at the
    beginning of and which goes up to the end or the first fault of the text. The
    answers to steps in any order are those of the mark: what the next item is, or
    that there is none; that it is back at the beginning; and what is left, or only
    the fault that is still ahead. -/
theorem answers_eq_replay (text : String) :
    ∃ items, (ofText text).Yields items ∧ Complete items ∧
      ∀ steps, (ofText text).answers steps = (Replay.mk items 0).answers steps := by
  have hyields := yields_items (Source.ofText text) (Cursor.ofChars (Source.ofText text))
  refine ⟨_, hyields, complete_items _, fun steps => ?_⟩
  apply Follows.answers_eq
  exact ⟨hyields, hyields⟩

end DeepScope.Tokenizer
