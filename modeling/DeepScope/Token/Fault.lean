namespace DeepScope

/-- The reasons why no token can be read. -/
inductive LexicalError where
  | unclosedComment
  | lineFeedInString
  | unclosedString
  | escapedLineFeed
  | escapeAtEnd
  | characterInUrl
  | escapeInUrl
  | blankInUrl
  | unclosedUrl
deriving DecidableEq, Repr

/-- The wording of each reason. -/
def LexicalError.message : LexicalError → String
  | unclosedComment => "unterminated comment"
  | lineFeedInString => "unterminated string: newline before the closing quote"
  | unclosedString => "unterminated string: end of input before the closing quote"
  | escapedLineFeed => "invalid escape: backslash followed by a newline"
  | escapeAtEnd => "unexpected end of input in escape sequence"
  | characterInUrl => "invalid character in unquoted url"
  | escapeInUrl => "invalid escape in url"
  | blankInUrl => "unexpected whitespace in unquoted url"
  | unclosedUrl => "unterminated url"

/-- A reason together with the text from the faulty place on. A suffix of the
    text names a place in it without any counting. -/
structure Fault where
  reason : LexicalError
  rest : List Char
deriving DecidableEq, Repr

end DeepScope
