import DeepScope.Token.Scan

namespace DeepScope

namespace Source

/-- Folds every line end into a line feed, and replaces null characters. -/
def normalize : List Char → List Char
  | [] => []
  | '\r' :: '\n' :: rest => '\n' :: normalize rest
  | c :: rest =>
    (if c = '\r' || c = '\x0c' then '\n' else if c = '\x00' then replacement else c) ::
      normalize rest

/-- Drops one leading byte order mark. -/
def dropMark : List Char → List Char
  | '\uFEFF' :: rest => rest
  | text => text

/-- The characters of a text, ready to be read. -/
def ofText (text : String) : List Char :=
  normalize (dropMark text.toList)

end Source

/-- A place in a text together with the text from there on. -/
structure Cursor where
  position : Position
  rest : List Char
deriving DecidableEq, Repr

namespace Cursor

/-- The beginning of a text. -/
def ofChars (text : List Char) : Cursor := ⟨Position.start, text⟩

/-- Moves ahead by a number of characters. -/
def advance (cursor : Cursor) (n : Nat) : Cursor :=
  ⟨cursor.position.after (cursor.rest.take n), cursor.rest.drop n⟩

/-- The place at which a suffix of the text begins. -/
def placeOf (cursor : Cursor) (rest : List Char) : Position :=
  (cursor.advance (cursor.rest.length - rest.length)).position

/-- Reads the next token, with the comments before it dropped. -/
def next (cursor : Cursor) : Except (Position × LexicalError) (Located × Cursor) :=
  match Comment.size cursor.rest with
  | .error fault => .error (cursor.placeOf fault.rest, fault.reason)
  | .ok n =>
    let start := cursor.advance n
    match Token.scan start.rest with
    | .error fault => .error (start.placeOf fault.rest, fault.reason)
    | .ok (token, k) => .ok (⟨token, start.position⟩, start.advance k)

/-- Whatever is not the end leaves a shorter text behind. -/
theorem next_length_lt {cursor after : Cursor} {item : Located}
    (h : cursor.next = .ok (item, after)) (hne : item.token ≠ .eof) :
    after.rest.length < cursor.rest.length := by
  unfold next at h
  split at h
  · simp at h
  · next n hsize =>
    dsimp only at h
    split at h
    · simp at h
    · next token k hscan =>
      cases h
      have htext : (cursor.advance n).rest ≠ [] := by
        intro hnil
        rw [hnil, Token.scan] at hscan
        cases hscan
        exact hne rfl
      have hpos := Token.scan_pos htext hscan
      have hlen := List.length_pos_iff.2 htext
      simp only [advance, List.length_drop] at hlen ⊢
      omega

/-- Everything that the text yields from here on: the tokens up to the end, or
    up to the first fault. -/
def items (cursor : Cursor) : List (Except (Position × LexicalError) Located) :=
  match h : cursor.next with
  | .error fault => [.error fault]
  | .ok (item, after) =>
    if hend : item.token = .eof then [.ok item]
    else
      have : after.rest.length < cursor.rest.length := next_length_lt h hend
      .ok item :: after.items
termination_by cursor.rest.length

end Cursor

/-- The values of a list of outcomes, if none of them is an error. -/
def collect {ε α : Type} : List (Except ε α) → Except ε (List α)
  | [] => .ok []
  | .error e :: _ => .error e
  | .ok a :: rest => (collect rest).map (a :: ·)

/-- The tokens of a text, the end included. -/
def tokenize (text : String) : Except (Position × LexicalError) (List Located) :=
  collect (Cursor.ofChars (Source.ofText text)).items

/-- Hands out the tokens of one text. Nothing is left behind the end, or behind
    a fault. -/
structure Tokenizer where
  source : List Char
  cursor : Option Cursor
deriving DecidableEq, Repr

namespace Tokenizer

/-- A reader at the beginning of a text. -/
def ofText (text : String) : Tokenizer :=
  let source := Source.ofText text
  ⟨source, some (Cursor.ofChars source)⟩

/-- Goes back to the beginning. -/
def restart (tokenizer : Tokenizer) : Tokenizer :=
  { tokenizer with cursor := some (Cursor.ofChars tokenizer.source) }

/-- The next token or the fault in its place, if anything is left. -/
def next (tokenizer : Tokenizer) :
    Option (Except (Position × LexicalError) Located) × Tokenizer :=
  match tokenizer.cursor with
  | none => (none, tokenizer)
  | some cursor =>
    match cursor.next with
    | .error fault => (some (.error fault), { tokenizer with cursor := none })
    | .ok (item, after) =>
      let left := if item.token = .eof then none else some after
      (some (.ok item), { tokenizer with cursor := left })

/-- All tokens that are left, or the fault that ends them. -/
def remaining (tokenizer : Tokenizer) :
    Except (Position × LexicalError) (List Located) × Tokenizer :=
  (collect ((tokenizer.cursor.map Cursor.items).getD []), { tokenizer with cursor := none })

end Tokenizer

end DeepScope
