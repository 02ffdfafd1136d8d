import DeepScope.Proofs.Script.Basic
import DeepScope.Proofs.Value.Gathers

/-!
The scripts by which white space and component values are read. A loop is given the number of
rounds it may take; with as many as there are tokens it does what the reader does.
-/

namespace DeepScope.Script

variable {limit : Option Nat} {depth steps : Nat} {reader : Reader}

/-- Takes white space. -/
def blanks : Nat → Script Unit
  | 0 => exhausted
  | steps + 1 => do
    if (← look) = .whitespace then
      step
      blanks steps

/-- Reads one value; `inside` reads on behind a token that opens one. -/
def value (inside : Token → Script Value) : Script Value := do
  let token ← look
  if token.opens then
    step
    nest (inside token)
  else if token.closes then refuse (.unbalanced token)
  else
    step
    return .token token

/-- Reads on inside an open value up to its end. -/
def contents : Nat → OpenValue → Script Value
  | 0, _ => exhausted
  | steps + 1, top => do
    let token ← look
    if token = top.closer then
      step
      return top.close
    else if token = .eof then refuse top.unclosed
    else
      let found ← value fun opener => contents steps ⟨opener, []⟩
      contents steps (top.push found)

/-- Reads values up to a token that ends their list. -/
def values (ends : Token → Bool) : Nat → Script (List Value)
  | 0 => exhausted
  | steps + 1 => do
    if ends (← look) then return []
    else
      let first ← value fun opener => contents steps ⟨opener, []⟩
      let others ← values ends steps
      return first :: others

theorem run_blanks (h : reader.rest.length < steps) :
    (blanks steps).run limit depth reader = .ok ((), reader.skipBlanks) := by
  induction steps generalizing reader with
  | zero => omega
  | succ steps ih =>
    obtain ⟨last, rest⟩ := reader
    cases rest with
    | nil => rfl
    | cons item rest =>
      rw [blanks, run_look, Reader.skipBlanks, Reader.skipBlanks.go]
      show (if item.token = .whitespace then _ else _ : Script Unit).run limit depth _ = _
      split
      · next hblank =>
        rw [run_step _ (by simp [Reader.peek, hblank])]
        exact ih (Nat.lt_of_succ_lt_succ h)
      · rfl

/-- Reading one value inside others, with what `inside` does behind a token that
    opens one. -/
theorem run_value (inside : Token → Script Value) :
    (value inside).run limit depth reader =
      if reader.peek = .eof then reader.advance.fail .unexpectedEnd
      else if reader.peek.opens then
        if mayNest limit depth then (inside reader.peek).run limit (depth + 1) reader.advance
        else reader.advance.fail .tooDeep
      else if reader.peek.closes then reader.advance.fail (.unbalanced reader.peek)
      else .ok (.token reader.peek, reader.advance) := by
  rw [value, run_look]
  by_cases hend : reader.peek = .eof
  · rw [if_pos hend, hend]
    simp [Token.opens, Token.closes, step, run, bind, Bind.bind, hend]
  · rw [if_neg hend]
    split
    · rw [run_step _ hend, run_nest]
    · split
      · rfl
      · rw [run_step _ hend]
        rfl

/-- Where reading goes on when the innermost open value is read. -/
def handOver (limit : Option Nat) (depth : Nat) (below : List OpenValue) :
    Value × Reader → Except Failure (Value × Reader)
  | (value, after) =>
    match below with
    | [] => .ok (value, after)
    | outer :: others =>
      Value.readOpen limit depth (outer.push value) others after.last after.rest

theorem readOpen_eq {top : OpenValue} {below : List OpenValue} {last : Position}
    {tokens : List Located} (h : tokens.length < steps) :
    Value.readOpen limit depth top below last tokens =
      (contents steps top).run limit (depth + below.length + 1) ⟨last, tokens⟩ >>=
        handOver limit depth below := by
  induction steps generalizing top below last tokens with
  | zero => omega
  | succ steps ih =>
    have hcloser : Token.eof ≠ top.closer := fun heq => by
      have := top.closes_closer
      rw [← heq] at this
      cases this
    rw [Value.readOpen.eq_def, contents, run_look]
    cases tokens with
    | nil =>
      show _ = Script.run limit (if Token.eof = top.closer then _ else _) _ _ >>= _
      rw [if_neg hcloser]
      rfl
    | cons item rest =>
      have hrest : rest.length < steps := Nat.lt_of_succ_lt_succ h
      have hpeek : (⟨last, item :: rest⟩ : Reader).peek = item.token := rfl
      have hadvance : (⟨last, item :: rest⟩ : Reader).advance = ⟨item.position, rest⟩ := rfl
      dsimp only
      rw [hpeek]
      split
      · next hclosed =>
        rw [run_step _ (by rw [hpeek, hclosed]; exact hcloser.symm)]
        rfl
      · split
        · rfl
        · next hend =>
          rw [run_bind, run_value, hpeek, hadvance, if_neg hend]
          split
          · split
            · rw [ih hrest]
              cases hrun : (contents steps ⟨item.token, []⟩).run limit
                  (depth + below.length + 1 + 1) ⟨item.position, rest⟩ with
              | error failure => rfl
              | ok pair => exact ih (Nat.lt_of_le_of_lt (run_length_le hrun) hrest)
            · rfl
          · split
            · rfl
            · exact ih hrest

/-- The script of one value does what the reader does. -/
theorem run_value_contents (h : reader.rest.length ≤ steps) :
    (value fun opener => contents steps ⟨opener, []⟩).run limit depth reader =
      Value.read limit depth reader := by
  simp only [run_value, Value.read]
  split
  · rfl
  · next hend =>
    rw [readOpen_eq (Nat.lt_of_lt_of_le (reader.advance_length_lt hend) h)]
    split
    · split
      · exact (bind_pure _).symm
      · rfl
    · rfl

/-- One more round than there are tokens leaves enough rounds for the rest. -/
theorem exists_round (h : reader.rest.length < steps) :
    ∃ left, steps = left + 1 ∧ reader.rest.length ≤ left :=
  ⟨steps - 1, by omega, by omega⟩

/-- The script of a list of values does what the reader does. -/
theorem run_values {ends : Token → Bool} (h : reader.rest.length < steps) :
    (values ends steps).run limit depth reader = Value.readUntil limit ends depth reader := by
  fun_induction Value.readUntil limit ends depth reader generalizing steps with
  | case1 reader hends =>
    obtain ⟨left, rfl, -⟩ := exists_round h
    rw [values, run_look, if_pos hends]
    rfl
  | case2 reader hends failure hread =>
    obtain ⟨left, rfl, hle⟩ := exists_round h
    rw [values, run_look, if_neg hends, run_bind, run_value_contents hle, hread]
  | case3 reader hends value after hread hlt failure hothers ih =>
    obtain ⟨left, rfl, hle⟩ := exists_round h
    rw [values, run_look, if_neg hends, run_bind, run_value_contents hle, hread]
    simp only [run_bind, ih (Nat.lt_of_lt_of_le hlt hle), hothers]
  | case4 reader hends value after hread hlt others final hothers ih =>
    obtain ⟨left, rfl, hle⟩ := exists_round h
    rw [values, run_look, if_neg hends, run_bind, run_value_contents hle, hread]
    simp only [run_bind, ih (Nat.lt_of_lt_of_le hlt hle), hothers, run_pure]

end DeepScope.Script
