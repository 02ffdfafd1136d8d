import DeepScope.Value.Describe

namespace DeepScope

/-- The reasons why values are no list of selectors: what was found, and what
    was expected in its place. Nothing is found at the end of a list. -/
inductive SelectorError where
  | unexpected (found : Value)
  | expectedCompound (found : Option Value)
  | expectedDeep (found : List Value)
  | expectedId (found : Option Value)
  | expectedClassName (found : Option Value)
  | expectedPseudo (found : Option Value)
  | expectedSquareBlock (found : Option Value)
  | expectedAttributeName (found : Option Value)
  | unexpectedInAttribute (found : Value)
  | expectedOperator (found : Char)
  | expectedEqualsSign (found : Option Value)
  | expectedAttributeValue (found : Option Value)
  | expectedAttributeEnd (found : Value)
deriving DecidableEq, Repr

namespace SelectorError

/-- "Expected this, but found that." -/
def mismatch (expected found : String) : String :=
  "Expected " ++ expected ++ " but found " ++ found ++ " when parsing CSS selectors"

/-- The wording of each reason. -/
def message : SelectorError → String
  | unexpected v => "Unexpected token when parsing CSS selectors: " ++ v.describe
  | expectedCompound v =>
    mismatch "type selector, universal selector, hash, class, attribute, or pseudo" (option v)
  | expectedDeep vs => mismatch "\"/deep/\"" (describeList (Value.describeAll vs))
  | expectedId v => mismatch "an identifier after \"#\"" (option v)
  | expectedClassName v => mismatch "class name" (option v)
  | expectedPseudo v => mismatch "ident or function" (option v)
  | expectedSquareBlock v => mismatch "\"[\"" (option v)
  | expectedAttributeName v => mismatch "attribute name" (option v)
  | unexpectedInAttribute v =>
    "Unexpected token when parsing CSS selectors in an attribute selector: " ++ v.describe
  | expectedOperator c =>
    mismatch "\"=\", \"^=\", \"$=\", \"*=\", \"~=\", \"|=\"" (Quoted.ofChar c)
  | expectedEqualsSign v => mismatch "\"=\"" (option v)
  | expectedAttributeValue v => mismatch "ident or string" (option v)
  | expectedAttributeEnd v => mismatch "\"]\"" v.describe
where
  option (v : Option Value) : String := describeOption (v.map Value.describe)

end SelectorError

end DeepScope
