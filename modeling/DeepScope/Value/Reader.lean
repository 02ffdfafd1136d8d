import DeepScope.Reader
import DeepScope.Value.Basic

namespace DeepScope

/-- Whether a token opens a function or a block. -/
def Token.opens : Token → Bool
  | .function _ | .openParen | .openSquare | .openBrace => true
  | _ => false

/-- Whether a token closes a function or a block. -/
def Token.closes : Token → Bool
  | .closeParen | .closeSquare | .closeBrace => true
  | _ => false

/-- Whether one more level may be opened inside so many others. Without a limit
    it always may. -/
def mayNest (limit : Option Nat) (depth : Nat) : Bool :=
  limit.all (depth < ·)

/-- A function or a block that is still open: the token that opened it, and the
    values in it so far, the last one first. -/
structure OpenValue where
  opener : Token
  values : List Value
deriving Repr

namespace OpenValue

/-- The token that closes the value. -/
def closer (open_ : OpenValue) : Token :=
  match open_.opener with
  | .function _ => .closeParen
  | opener => opener.closer

/-- The finished value. -/
def close (open_ : OpenValue) : Value :=
  match open_.opener with
  | .function name => .function name (Value.normalize open_.values.reverse)
  | opener => .block opener (Value.normalize open_.values.reverse)

/-- One more value inside. -/
def push (open_ : OpenValue) (value : Value) : OpenValue :=
  { open_ with values := value :: open_.values }

/-- What is wrong if the tokens end before the value does. -/
def unclosed (open_ : OpenValue) : GrammarError :=
  match open_.opener with
  | .function name => .unclosedFunction name
  | _ => .unclosedBracket open_.closer

end OpenValue

namespace Value

/-- Reads on inside the innermost open value, `top`, up to the end of the
    outermost one. -/
def readOpen (limit : Option Nat) (depth : Nat) (top : OpenValue) (below : List OpenValue)
    (last : Position) : List Located → Except Failure (Value × Reader)
  | [] => Reader.fail ⟨last, []⟩ top.unclosed
  | item :: rest =>
    if item.token = top.closer then
      match below with
      | [] => .ok (top.close, ⟨item.position, rest⟩)
      | outer :: others =>
        readOpen limit depth (outer.push top.close) others item.position rest
    else if item.token = .eof then Reader.fail ⟨item.position, rest⟩ top.unclosed
    else if item.token.opens then
      if mayNest limit (depth + below.length + 1) then
        readOpen limit depth ⟨item.token, []⟩ (top :: below) item.position rest
      else Reader.fail ⟨item.position, rest⟩ .tooDeep
    else if item.token.closes then Reader.fail ⟨item.position, rest⟩ (.unbalanced item.token)
    else readOpen limit depth (top.push (.token item.token)) below item.position rest

/-- Reads one value, inside so many other levels. -/
def read (limit : Option Nat) (depth : Nat) (reader : Reader) : Except Failure (Value × Reader) :=
  let token := reader.peek
  let after := reader.advance
  if token = .eof then after.fail .unexpectedEnd
  else if token.opens then
    if mayNest limit depth then readOpen limit depth ⟨token, []⟩ [] after.last after.rest
    else after.fail .tooDeep
  else if token.closes then after.fail (.unbalanced token)
  else .ok (.token token, after)

theorem readOpen_length_lt {limit : Option Nat} {depth : Nat} {top : OpenValue}
    {below : List OpenValue} {last : Position} {tokens : List Located} {value : Value}
    {reader : Reader} (h : readOpen limit depth top below last tokens = .ok (value, reader)) :
    reader.rest.length < tokens.length := by
  induction tokens generalizing top below last with
  | nil => simp [readOpen, Reader.fail] at h
  | cons item rest ih =>
    unfold readOpen at h
    have hstep : reader.rest.length < rest.length → reader.rest.length < (item :: rest).length := by
      simp only [List.length_cons]
      omega
    split at h
    · split at h
      · cases h
        simp
      · exact hstep (ih h)
    · split at h
      · simp [Reader.fail] at h
      · split at h
        · split at h
          · exact hstep (ih h)
          · simp [Reader.fail] at h
        · split at h
          · simp [Reader.fail] at h
          · exact hstep (ih h)

/-- A value takes at least one token. -/
theorem read_length_lt {limit : Option Nat} {depth : Nat} {reader after : Reader} {value : Value}
    (h : read limit depth reader = .ok (value, after)) :
    after.rest.length < reader.rest.length := by
  unfold read at h
  dsimp only at h
  split at h
  · simp [Reader.fail] at h
  · next hne =>
    have hlt := Reader.advance_length_lt _ hne
    split at h
    · split at h
      · have := readOpen_length_lt h
        omega
      · simp [Reader.fail] at h
    · split at h
      · simp [Reader.fail] at h
      · cases h
        exact hlt

/-- Reads values up to a token that ends their list. That token is left. -/
def readUntil (limit : Option Nat) (ends : Token → Bool) (depth : Nat) (reader : Reader) :
    Except Failure (List Value × Reader) :=
  if ends reader.peek then .ok ([], reader)
  else
    match h : read limit depth reader with
    | .error failure => .error failure
    | .ok (value, after) =>
      have : after.rest.length < reader.rest.length := read_length_lt h
      match readUntil limit ends depth after with
      | .error failure => .error failure
      | .ok (values, final) => .ok (value :: values, final)
termination_by reader.rest.length

theorem readUntil_length_le {limit : Option Nat} {ends : Token → Bool} {depth : Nat}
    {reader after : Reader} {values : List Value}
    (h : readUntil limit ends depth reader = .ok (values, after)) :
    after.rest.length ≤ reader.rest.length := by
  fun_induction readUntil limit ends depth reader generalizing values after with
  | case1 => simp_all
  | case2 => simp at h
  | case3 => simp at h
  | case4 reader _ value middle hread hlt values' final hrest ih =>
    cases h
    have := ih hrest
    omega

end Value

end DeepScope
