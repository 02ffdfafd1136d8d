import DeepScope.Rule.Basic
import DeepScope.Selector.Writer
import DeepScope.Value.Condition

namespace DeepScope

/-- The opening brace of a block of lines. -/
def Layout.openBlock (layout : Layout) : List Piece :=
  layout.space ++ .token .openBrace :: layout.newline

/-- The closing brace of a block of lines. -/
def Layout.closeBlock (layout : Layout) (depth : Nat) : List Piece :=
  layout.indent depth ++ .token .closeBrace :: layout.newline

namespace Declaration

/-- A declaration, without what ends it. -/
def pieces (layout : Layout) (declaration : Declaration) : List Piece :=
  let mark := if declaration.important then
      layout.space ++ [.token (.delim '!'), .token (.ident "important")]
    else []
  .token (.ident declaration.name) :: .token .colon ::
    ((if declaration.value.isEmpty then [] else layout.space) ++
      (layout.values declaration.value ++ mark))

/-- Declarations, each on a line of its own. The minified layout leaves out the
    last semicolon, unless more of the block follows. -/
def lines (layout : Layout) (depth : Nat) (more : Bool) : List Declaration → List Piece
  | [] => []
  | declaration :: rest =>
    let semicolon := if layout = .pretty || more || !rest.isEmpty then [.token .semicolon] else []
    layout.indent depth ++
      (declaration.pieces layout ++ (semicolon ++ (layout.newline ++ lines layout depth more rest)))

/-- A block of declarations. -/
def blockPieces (layout : Layout) (depth : Nat) (declarations : List Declaration) : List Piece :=
  layout.openBlock ++ (lines layout (depth + 1) false declarations ++ layout.closeBlock depth)

end Declaration

/-- The name of an at-rule and its prelude, with a blank between them where one
    is needed. -/
def preludePieces (layout : Layout) (name : String) (prelude : List Value) : List Piece :=
  let tokens := Value.flatten prelude
  let gap := match tokens with
    | [] => []
    | first :: _ =>
      if layout = .pretty || (Token.atKeyword name).needsSeparator first then [.blank " "] else []
  .token (.atKeyword name) :: (gap ++ layout.tokens tokens)

/-- The selectors of a style rule, each on a line of its own. -/
def selectorLines (layout : Layout) (depth : Nat) : List Selector → List Piece
  | [] => []
  | [selector] => layout.indent depth ++ selector.pieces layout
  | selector :: rest =>
    layout.indent depth ++ (selector.pieces layout ++
      .token .comma :: (layout.newline ++ selectorLines layout depth rest))

/-- The selectors of a keyframe block, on one line. -/
def keyframeSelectors (layout : Layout) : List (List Value) → List Piece
  | [] => []
  | [selector] => layout.values selector
  | selector :: rest =>
    layout.values selector ++ .token .comma :: (layout.space ++ keyframeSelectors layout rest)

/-- A block that has no grammar, on one line. -/
def verbatimPieces (layout : Layout) (block : List Value) : List Piece :=
  let inside := if block.isEmpty then []
    else layout.space ++ (layout.values block ++ layout.space)
  layout.space ++ .token .openBrace :: (inside ++ .token .closeBrace :: layout.newline)

/-- The keyword of a kind of groups. -/
def GroupKind.keyword : GroupKind → String
  | media => "media"
  | supports => "supports"

namespace StyleRule

/-- A style rule. -/
def pieces (layout : Layout) (depth : Nat) (rule : StyleRule) : List Piece :=
  selectorLines layout depth rule.selectors ++
    Declaration.blockPieces layout depth rule.declarations

end StyleRule

namespace MarginRule

/-- A margin box. Its name is written right behind the at sign. -/
def pieces (layout : Layout) (depth : Nat) (rule : MarginRule) : List Piece :=
  layout.indent depth ++ .token (.atKeyword rule.name) ::
    Declaration.blockPieces layout depth rule.declarations

end MarginRule

namespace PageRule

/-- A page rule: its declarations, then its margin boxes. -/
def pieces (layout : Layout) (depth : Nat) (rule : PageRule) : List Piece :=
  layout.indent depth ++ (preludePieces layout "page" rule.selector ++ (layout.openBlock ++
    (Declaration.lines layout (depth + 1) (!rule.margins.isEmpty) rule.declarations ++
      (rule.margins.flatMap (MarginRule.pieces layout (depth + 1)) ++ layout.closeBlock depth))))

end PageRule

namespace KeyframesRule

/-- A block of an animation. -/
def blockPieces (layout : Layout) (depth : Nat) (block : KeyframeBlock) : List Piece :=
  layout.indent depth ++ (keyframeSelectors layout block.selectors ++
    Declaration.blockPieces layout depth block.declarations)

/-- An animation. -/
def pieces (layout : Layout) (depth : Nat) (rule : KeyframesRule) : List Piece :=
  layout.indent depth ++ (preludePieces layout rule.keyword rule.name ++ (layout.openBlock ++
    (rule.blocks.flatMap (blockPieces layout (depth + 1)) ++ layout.closeBlock depth)))

end KeyframesRule

namespace Rule

mutual

/-- A rule at some depth. -/
def pieces (layout : Layout) (depth : Nat) : Rule → List Piece
  | .style rule => rule.pieces layout depth
  | .group kind condition rules =>
    layout.indent depth ++
      (preludePieces layout kind.keyword (Value.layoutCondition layout condition) ++
        (layout.openBlock ++ (piecesAll layout (depth + 1) rules ++ layout.closeBlock depth)))
  | .page rule => rule.pieces layout depth
  | .keyframes rule => rule.pieces layout depth
  | .descriptors name prelude declarations =>
    layout.indent depth ++
      (preludePieces layout name prelude ++ Declaration.blockPieces layout depth declarations)
  | .statement name prelude =>
    layout.indent depth ++
      (preludePieces layout name prelude ++ .token .semicolon :: layout.newline)
  | .verbatim name prelude block =>
    layout.indent depth ++ (preludePieces layout name prelude ++ verbatimPieces layout block)

/-- Rules at the same depth. An empty line stands between those of the
    outermost level. -/
def piecesAll (layout : Layout) (depth : Nat) : List Rule → List Piece
  | [] => []
  | rule :: rest =>
    let gap := if depth = 0 && !rest.isEmpty then layout.newline else []
    pieces layout depth rule ++ (gap ++ piecesAll layout depth rest)

end

end Rule

end DeepScope
