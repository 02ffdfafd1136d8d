import DeepScope.Text.Basic
import DeepScope.Value.Basic

namespace DeepScope

/-- A record: its name, and its fields in braces. -/
def describeRecord (name : String) (fields : List (String × String)) : String :=
  let written := fields.map fun (field, value) => field ++ ": " ++ value
  name ++ " \x7b " ++ ", ".intercalate written ++ " \x7d"

/-- A list, in square brackets. -/
def describeList (items : List String) : String :=
  "[" ++ ", ".intercalate items ++ "]"

/-- Something that may be missing. -/
def describeOption : Option String → String
  | none => "None"
  | some item => "Some(" ++ item ++ ")"

namespace HashKind

def describe : HashKind → String
  | id => "Id"
  | unrestricted => "Unrestricted"

end HashKind

namespace Numeral

def describe (value : Numeral) : String :=
  let kind := match value.kind with
    | .integer => "Integer"
    | .number => "Number"
  describeRecord "NumericValue" [("repr", Quoted.ofString value.text), ("type_flag", kind)]

end Numeral

namespace Token

def describe : Token → String
  | ident name => "Ident(" ++ Quoted.ofString name ++ ")"
  | function name => "Function(" ++ Quoted.ofString name ++ ")"
  | atKeyword name => "AtKeyword(" ++ Quoted.ofString name ++ ")"
  | hash name kind => "Hash(" ++ Quoted.ofString name ++ ", " ++ kind.describe ++ ")"
  | string text => "String(" ++ Quoted.ofString text ++ ")"
  | url address => "Url(" ++ Quoted.ofString address ++ ")"
  | delim c => "Delim(" ++ Quoted.ofChar c ++ ")"
  | number value => "Number(" ++ value.describe ++ ")"
  | percentage value => "Percentage(" ++ value.describe ++ ")"
  | dimension value unit => "Dimension(" ++ value.describe ++ ", " ++ Quoted.ofString unit ++ ")"
  | whitespace => "Whitespace"
  | commentOpen => "Cdo"
  | commentClose => "Cdc"
  | colon => "Colon"
  | semicolon => "Semicolon"
  | comma => "Comma"
  | openSquare => "OpenSquareBracket"
  | closeSquare => "CloseSquareBracket"
  | openParen => "OpenParenthesis"
  | closeParen => "CloseParenthesis"
  | openBrace => "OpenBrace"
  | closeBrace => "CloseBrace"
  | eof => "Eof"

end Token

namespace Value

mutual

def describe : Value → String
  | .token t => "PreservedToken(" ++ t.describe ++ ")"
  | .function name arguments =>
    describeRecord "Function"
      [("name", Quoted.ofString name), ("values", describeList (describeAll arguments))]
  | .block opener contents =>
    describeRecord "SimpleBlock"
      [("associated_token", opener.describe), ("values", describeList (describeAll contents))]

/-- The spelling of each value. -/
def describeAll : List Value → List String
  | [] => []
  | v :: rest => describe v :: describeAll rest

end

end Value

end DeepScope
