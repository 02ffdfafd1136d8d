import DeepScope.Value.Basic

namespace DeepScope

/-- Whether one colon or two stand before a pseudo selector. -/
inductive PseudoKind where
  | pseudoClass
  | pseudoElement
deriving DecidableEq, Repr

/-- A simple selector. The arguments of functional pseudo selectors are kept as
    they are written. Reading gives an attribute selector both an operator and
    a value, or neither; any combination can be held. -/
inductive SimpleSelector where
  | type (ns : Option String) (name : String)
  | universal (ns : Option String)
  | attr (ns : Option String) (name : String) (operator value : Option String)
  | className (name : String)
  | id (name : String)
  | pseudo (kind : PseudoKind) (name : String)
  | functionalPseudo (kind : PseudoKind) (name : String) (arguments : List Value)
deriving DecidableEq, Repr

/-- What stands between two compound selectors. -/
inductive Combinator where
  | descendant
  | child
  | nextSibling
  | laterSibling
  /-- Descends into shadow trees as well. -/
  | deep
deriving DecidableEq, Repr

/-- One member of a selector. -/
inductive Member where
  | simple (selector : SimpleSelector)
  | combinator (combinator : Combinator)
deriving DecidableEq, Repr

/-- A selector: its members from left to right. -/
structure Selector where
  members : List Member
deriving DecidableEq, Repr

namespace SimpleSelector

/-- The name of a type selector that has no namespace. -/
def elementName : SimpleSelector → Option String
  | .type none name => some name
  | _ => none

end SimpleSelector

namespace Member

/-- The name of a type selector that has no namespace. -/
def elementName : Member → Option String
  | .simple s => s.elementName
  | .combinator _ => none

end Member

namespace Selector

/-- Inserts a member before the one at the index, or at the end. An index
    beyond the end is refused. -/
def insert (selector : Selector) (index : Nat) (member : Member) : Option Selector :=
  if index ≤ selector.members.length then
    some ⟨selector.members.take index ++ member :: selector.members.drop index⟩
  else none

end Selector

end DeepScope
