import DeepScope.Encoding.Error
import DeepScope.Position
import DeepScope.Selector.Error
import DeepScope.Token.Fault

namespace DeepScope

/-- The reasons why tokens are no stylesheet. Names are those of the rule or the
    property at fault, as they are written. -/
inductive GrammarError where
  | tooDeep
  | unbalanced (found : Token)
  | unexpectedEnd
  | unclosedBracket (closer : Token)
  | unclosedFunction (name : String)
  | unclosedBlock
  | unclosedDeclarations
  | unclosedPage
  | unclosedKeyframes
  | strayBrace
  | endInPrelude
  | braceInPrelude
  | endInSelector
  | semicolonInSelector
  | braceInSelector
  | selector (reason : SelectorError)
  | malformedCharset
  | blockAfterCharset
  | expectedAtRule (found : Token)
  | expectedBlock (rule : String)
  | unexpectedBlock (rule : String)
  | malformedMargin (rule : String)
  | atRuleInDeclarations (rule : String)
  | unexpectedInDeclarations (found : Token)
  | unexpectedInPage (found : Token)
  | emptyKeyframeSelector
  | expectedProperty (found : Token)
  | expectedColon (property : String)
  | emptyValue (property : String)
deriving DecidableEq, Repr

/-- The wording of each reason. -/
def GrammarError.message : GrammarError → String
  | tooDeep => "nesting too deep"
  | unbalanced t => "unbalanced " ++ t.describe
  | unexpectedEnd => "unexpected end of input"
  | unclosedBracket closer => "unterminated block: expected " ++ closer.describe
  | unclosedFunction name => "unterminated function " ++ name ++ "(: expected \")\""
  | unclosedBlock => "unterminated block: expected \"\x7d\""
  | unclosedDeclarations => "unterminated declaration block: expected \"\x7d\""
  | unclosedPage => "unterminated @page block: expected \"\x7d\""
  | unclosedKeyframes => "unterminated @keyframes block: expected \"\x7d\""
  | strayBrace => "unexpected \"\x7d\" outside of a block"
  | endInPrelude => "unexpected end of input in at-rule prelude"
  | braceInPrelude => "unexpected \"\x7d\" in at-rule prelude"
  | endInSelector => "unexpected end of input: expected \"\x7b\" after selector"
  | semicolonInSelector => "unexpected \";\" in selector"
  | braceInSelector => "unexpected \"\x7d\" in selector"
  | selector reason => reason.message
  | malformedCharset => "malformed @charset rule"
  | blockAfterCharset => "unexpected block after @charset"
  | expectedAtRule t => "expected an at-rule but found " ++ t.describe
  | expectedBlock rule => "expected a block after @" ++ rule
  | unexpectedBlock rule => "unexpected block after @" ++ rule
  | malformedMargin rule => "malformed margin rule @" ++ rule
  | atRuleInDeclarations rule => "unexpected at-rule @" ++ rule ++ " in a declaration block"
  | unexpectedInDeclarations t => "unexpected token in a declaration block: " ++ t.describe
  | unexpectedInPage t => "unexpected token in @page block: " ++ t.describe
  | emptyKeyframeSelector => "empty keyframe selector"
  | expectedProperty t => "expected a property name but found " ++ t.describe
  | expectedColon property => "expected \":\" after property name \"" ++ property ++ "\""
  | emptyValue property => "empty value for property \"" ++ property ++ "\""

/-- The stage that refuses the input, with its reason. -/
inductive Error where
  | encoding (reason : EncodingError)
  | lexical (position : Position) (reason : LexicalError)
  | grammar (position : Position) (reason : GrammarError)
deriving DecidableEq, Repr

namespace Error

/-- Where in the text the error is, if there is a text. -/
def position : Error → Option Position
  | encoding _ => none
  | lexical position _ => some position
  | grammar position _ => some position

/-- The wording of an error. -/
def message : Error → String
  | encoding reason => reason.message
  | lexical position reason => "syntax error at " ++ position.text ++ ": " ++ reason.message
  | grammar position reason => "parse error at " ++ position.text ++ ": " ++ reason.message

end Error

end DeepScope
