import DeepScope.Rule.Basic
import DeepScope.Text.Basic

namespace DeepScope

/-- What scoping did: how many selectors it changed, how many it kept as they
    were, and those among the latter that start at the root. -/
structure ScopeReport where
  changed : Nat
  kept : Nat
  rooted : List Selector
deriving DecidableEq, Repr

namespace ScopeReport

/-- Nothing was done. -/
def empty : ScopeReport := ⟨0, 0, []⟩

/-- What was done in two steps. -/
def append (first second : ScopeReport) : ScopeReport :=
  ⟨first.changed + second.changed, first.kept + second.kept, first.rooted ++ second.rooted⟩

instance : Append ScopeReport := ⟨append⟩

end ScopeReport

/-- Whether an element is the root of the document or its body. -/
def isRootElement (name : String) : Bool :=
  asciiLower (trimWhiteSpace name) ∈ ["body", "html"]

namespace Selector

/-- The members that take a selector into shadow trees below the body. -/
def bodyDeep : List Member :=
  [.simple (.type none "body"), .combinator .deep]

/-- Scopes one selector. Only its first member counts: one that names the root
    further on is scoped like any other. A selector without members is left
    alone. -/
def scope (selector : Selector) : Selector × ScopeReport :=
  match selector.members with
  | [] => (selector, ⟨0, 1, []⟩)
  | first :: _ =>
    if first.elementName.any isRootElement then (selector, ⟨0, 1, [selector]⟩)
    else (⟨bodyDeep ++ selector.members⟩, ⟨1, 0, []⟩)

/-- Scopes the selectors of a list. -/
def scopeAll : List Selector → List Selector × ScopeReport
  | [] => ([], .empty)
  | selector :: rest =>
    let (head, report) := selector.scope
    let (others, reports) := scopeAll rest
    (head :: others, report ++ reports)

end Selector

namespace Rule

mutual

/-- Scopes a rule. Only style rules have selectors that matter, and only groups
    hold style rules. -/
def scope : Rule → Rule × ScopeReport
  | .style rule =>
    let (selectors, report) := Selector.scopeAll rule.selectors
    (.style { rule with selectors := selectors }, report)
  | .group kind condition rules =>
    let (inside, report) := scopeAll rules
    (.group kind condition inside, report)
  | rule => (rule, .empty)

/-- Scopes the rules of a list. -/
def scopeAll : List Rule → List Rule × ScopeReport
  | [] => ([], .empty)
  | rule :: rest =>
    let (head, report) := scope rule
    let (others, reports) := scopeAll rest
    (head :: others, report ++ reports)

end

end Rule

namespace StyleSheet

/-- Scopes a stylesheet. -/
def scope (sheet : StyleSheet) : StyleSheet × ScopeReport :=
  let (rules, report) := Rule.scopeAll sheet.rules
  ({ sheet with rules := rules }, report)

end StyleSheet

end DeepScope
