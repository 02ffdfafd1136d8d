import DeepScope.Token.Stream
import DeepScope.Token.Writer

namespace DeepScope.Token

/-- Whether a token begins with a name. -/
def beginsName : Token → Bool
  | ident _ | function _ | url _ => true
  | _ => false

/-- Whether a token begins with a number. -/
def beginsNumber : Token → Bool
  | number _ | percentage _ | dimension .. => true
  | _ => false

/-- A quick test: the pairs of tokens that could be read differently when one
    stands directly behind the other. -/
def mayMerge (prev next : Token) : Bool :=
  let nameOrNumber := next.beginsName || next.beginsNumber
  match prev with
  | ident _ =>
    nameOrNumber || next = delim '-' || next = commentClose || next = openParen
  | atKeyword _ | hash .. | dimension .. =>
    nameOrNumber || next = delim '-' || next = commentClose
  | delim '#' | delim '-' => nameOrNumber || next = delim '-'
  | number _ => nameOrNumber || next = delim '%'
  | delim '@' => next.beginsName || next = delim '-'
  | delim '.' | delim '+' => next.beginsNumber
  | delim '/' => next = delim '*'
  | _ => false

/-- Whether two tokens written one directly behind the other are read back as
    those two. -/
def readsBack (prev next : Token) : Bool :=
  match tokenize (prev.text ++ next.text) with
  | .ok items => items.map Located.token = [prev, next, eof]
  | .error _ => false

/-- Whether two tokens must be kept apart. -/
def needsSeparator (prev next : Token) : Bool :=
  mayMerge prev next && !readsBack prev next

end DeepScope.Token
