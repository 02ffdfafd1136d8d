import DeepScope.Rule.Basic

namespace DeepScope

namespace Rule

mutual

/-- Changes style rules by their numbers, where `number` is that of the first
    one, and gives the number that comes next. -/
def mapStyle (change : Nat → StyleRule → StyleRule) (number : Nat) : Rule → Rule × Nat
  | .style rule => (.style (change number rule), number + 1)
  | .group kind condition rules =>
    let (changed, next) := mapStyleAll change number rules
    (.group kind condition changed, next)
  | rule => (rule, number)

/-- Changes the style rules of a list by their numbers. -/
def mapStyleAll (change : Nat → StyleRule → StyleRule) (number : Nat) :
    List Rule → List Rule × Nat
  | [] => ([], number)
  | rule :: rest =>
    let (head, next) := mapStyle change number rule
    let (others, last) := mapStyleAll change next rest
    (head :: others, last)

end

end Rule

namespace StyleSheet

/-- What became of a member that was to be inserted. -/
inductive Insertion where
  /-- There is no such selector. -/
  | noSelector
  /-- The selector has no such place. -/
  | outOfRange
  | done (selector : Selector) (sheet : StyleSheet)
deriving DecidableEq, Repr

/-- Replaces one selector of one style rule. -/
def replaceSelector (sheet : StyleSheet) (rule index : Nat) (selector : Selector) : StyleSheet :=
  let change := fun number (style : StyleRule) =>
    if number = rule then { style with selectors := style.selectors.set index selector } else style
  { sheet with rules := (Rule.mapStyleAll change 0 sheet.rules).1 }

/-- Inserts a member at a place of one selector of one style rule. -/
def insertMember (sheet : StyleSheet) (rule index place : Nat) (member : Member) : Insertion :=
  match sheet.styleRules[rule]? with
  | none => .noSelector
  | some style =>
    match style.selectors[index]? with
    | none => .noSelector
    | some selector =>
      match selector.insert place member with
      | none => .outOfRange
      | some changed => .done changed (sheet.replaceSelector rule index changed)

end StyleSheet

end DeepScope
