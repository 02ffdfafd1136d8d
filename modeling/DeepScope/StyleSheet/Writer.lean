import DeepScope.Rule.Writer
import DeepScope.Text.Basic

namespace DeepScope

/-- How to write a stylesheet. -/
structure WriteOptions where
  layout : Layout
  /-- Whether to begin with a `@charset` rule, which always names UTF-8. -/
  emitCharset : Bool
  /-- The text of a comment in front of the rules. -/
  header : Option String
deriving DecidableEq, Repr

/-- Breaks up every `*/`, which would end a comment early. -/
def breakCommentEnds : List Char → List Char
  | '*' :: '/' :: rest => '*' :: ' ' :: '/' :: breakCommentEnds rest
  | c :: rest => c :: breakCommentEnds rest
  | [] => []

/-- The lines of a text, each ended by a line feed with or without a carriage
    return before it. The last line may lack its end; an empty one does not
    count. -/
def textLines (text : List Char) : List (List Char) :=
  let pieces := splitOn (· = '\n') text
  let ended := pieces.dropLast.map dropReturn
  match pieces.getLast? with
  | none | some [] => ended
  | some last => ended ++ [last]
where
  /-- Drops the carriage return at the end of a line. -/
  dropReturn (line : List Char) : List Char :=
    if line.getLast? = some '\r' then line.dropLast else line

/-- The header comment. The pretty layout gives each of its lines a line of its
    own. -/
def headerPieces (layout : Layout) (header : String) : List Piece :=
  let text := breakCommentEnds header.toList
  match layout with
  | .minified => [.comment (String.ofList (' ' :: (text ++ [' '])))]
  | .pretty =>
    let lines := (textLines text).flatMap fun line => [' ', '*', ' '] ++ line ++ ['\n']
    [.comment (String.ofList ('\n' :: (lines ++ [' ']))), .blank "\n"]

namespace StyleSheet

/-- A stylesheet as pieces of text. -/
def pieces (sheet : StyleSheet) (options : WriteOptions) : List Piece :=
  let charset := if options.emitCharset then
      [.token (.atKeyword "charset"), .blank " ", .token (.string "UTF-8"), .token .semicolon] ++
        options.layout.newline
    else []
  let header := match options.header with
    | none => []
    | some text => headerPieces options.layout text
  charset ++ (header ++ Rule.piecesAll options.layout 0 sheet.rules)

/-- Writes a stylesheet. Its own charset is not written: the text is meant to be
    stored in UTF-8. -/
def serialize (sheet : StyleSheet) (options : WriteOptions) : String :=
  Piece.textAll (sheet.pieces options)

end StyleSheet

end DeepScope
