import DeepScope.Layout.Piece
import DeepScope.Selector.Basic

namespace DeepScope

/-- The namespace in front of a name: any namespace, a named one, or none at
    all. -/
def namespacePieces : Option String → List Piece
  | none => []
  | some ns =>
    if ns = "*" then [.token (.delim '*'), .token (.delim '|')]
    else [.token (.ident ns), .token (.delim '|')]

/-- The colons of a pseudo selector. -/
def PseudoKind.pieces : PseudoKind → List Piece
  | pseudoClass => [.token .colon]
  | pseudoElement => [.token .colon, .token .colon]

/-- The value that an attribute is compared with. The minified layout leaves
    out the quotes around what is an identifier as it stands. -/
def attributeValuePiece (layout : Layout) (value : String) : Piece :=
  if layout = .minified && !value.isEmpty && Name.write value.toList = value.toList then
    .token (.ident value)
  else .token (.string value)

/-- A simple selector. -/
def SimpleSelector.pieces (layout : Layout) : SimpleSelector → List Piece
  | type ns name => namespacePieces ns ++ [.token (.ident name)]
  | universal ns => namespacePieces ns ++ [.token (.delim '*')]
  | attr ns name operator value =>
    let test := match operator, value with
      | some operator, some value =>
        operator.toList.map (fun c => .token (.delim c)) ++ [attributeValuePiece layout value]
      | _, _ => []
    .token .openSquare ::
      (namespacePieces ns ++ .token (.ident name) :: (test ++ [.token .closeSquare]))
  | className name => [.token (.delim '.'), .token (.ident name)]
  | id name => [.token (.hash name .id)]
  | pseudo kind name => kind.pieces ++ [.token (.ident name)]
  | functionalPseudo kind name arguments =>
    kind.pieces ++ layout.values [.function name arguments]

/-- A combinator. The one that descends into shadow trees keeps its blanks in
    either layout. -/
def Combinator.pieces (layout : Layout) : Combinator → List Piece
  | descendant => [.blank " "]
  | child => layout.space ++ .token (.delim '>') :: layout.space
  | nextSibling => layout.space ++ .token (.delim '+') :: layout.space
  | laterSibling => layout.space ++ .token (.delim '~') :: layout.space
  | deep =>
    [.blank " ", .token (.delim '/'), .token (.ident "deep"), .token (.delim '/'), .blank " "]

/-- A member of a selector. -/
def Member.pieces (layout : Layout) : Member → List Piece
  | simple selector => selector.pieces layout
  | combinator c => c.pieces layout

namespace Selector

/-- A selector. -/
def pieces (layout : Layout) (selector : Selector) : List Piece :=
  selector.members.flatMap (Member.pieces layout)

/-- The text of a selector, in the pretty layout. -/
def text (selector : Selector) : String :=
  Piece.textAll (selector.pieces .pretty)

end Selector

end DeepScope
