namespace DeepScope

/-- A place in the source text: the line, and the column within that line. -/
structure Position where
  line : Nat
  column : Nat
deriving DecidableEq, Repr, Inhabited

namespace Position

/-- The place of the first character of a text. -/
def start : Position := ⟨1, 1⟩

/-- The place that follows one character: a line feed opens a new line. -/
def step (place : Position) (c : Char) : Position :=
  if c = '\n' then ⟨place.line + 1, 1⟩ else ⟨place.line, place.column + 1⟩

/-- The place that follows a run of characters. -/
def after (place : Position) (text : List Char) : Position :=
  text.foldl step place

/-- The written form, `line:column`. -/
def text (place : Position) : String :=
  toString place.line ++ ":" ++ toString place.column

@[simp] theorem after_nil (place : Position) : place.after [] = place := rfl

@[simp] theorem after_cons (place : Position) (c : Char) (rest : List Char) :
    place.after (c :: rest) = (place.step c).after rest := rfl

theorem after_append (place : Position) (front back : List Char) :
    place.after (front ++ back) = (place.after front).after back := by
  simp [after]

end Position

end DeepScope
