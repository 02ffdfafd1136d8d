import DeepScope.Error
import DeepScope.Rule.Reader
import DeepScope.Token.Stream

namespace DeepScope

/-- How many functions, blocks and groups may stand inside one another. -/
def nestingLimit : Nat := 128

/-- The error that a failure amounts to. -/
def Failure.toError (failure : Failure) : Error :=
  .grammar failure.position failure.reason

namespace StyleSheet

/-- Reads the `@charset` rule that may begin a stylesheet. Its name is not
    matched in any other letter case. -/
def readCharset (limit : Option Nat) (reader : Reader) :
    Except Failure (Option String × Reader) :=
  if reader.peek = .atKeyword "charset" then
    match Prelude.read limit 0 reader.advance with
    | .error failure => .error failure
    | .ok (⟨[.token (.string label)], false⟩, after) => .ok (some label, after)
    | .ok (_, after) => after.fail .malformedCharset
  else .ok (none, reader)

/-- Reads a stylesheet from a list of tokens, with what there is to note about
    it on the way. What lies behind the first end token is never looked at. -/
def readTokens (limit : Option Nat) (tokens : List Located) :
    List Note × Except Failure (StyleSheet × Reader) :=
  match readCharset limit (Reader.ofTokens tokens) with
  | .error failure => ([], .error failure)
  | .ok (charset, after) =>
    let (notes, result) := readRules limit [] [] after
    (notes, result.map fun (rules, final) => (⟨rules, charset⟩, final))

/-- Reads a stylesheet from a list of tokens, noting what there is to note up to
    the end or the first error. -/
def ofTokensNoted (tokens : List Located) : List Note × Except Error StyleSheet :=
  match readTokens (some nestingLimit) tokens with
  | (notes, .error failure) => (notes, .error failure.toError)
  | (notes, .ok (sheet, _)) => (notes, .ok sheet)

/-- Reads a stylesheet from a list of tokens. -/
def ofTokens (tokens : List Located) : Except Error StyleSheet :=
  (ofTokensNoted tokens).2

/-- Reads a stylesheet from a text, noting what there is to note up to the end
    or the first error. -/
def parseNoted (text : String) : List Note × Except Error StyleSheet :=
  match tokenize text with
  | .error (position, reason) => ([], .error (.lexical position reason))
  | .ok tokens => ofTokensNoted tokens

/-- Reads a stylesheet from a text. -/
def parse (text : String) : Except Error StyleSheet :=
  (parseNoted text).2

end StyleSheet

end DeepScope
