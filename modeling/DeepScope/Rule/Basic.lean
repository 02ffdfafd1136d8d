import DeepScope.Selector.Basic

namespace DeepScope

/-- A property with its value. -/
structure Declaration where
  name : String
  value : List Value
  important : Bool
deriving DecidableEq, Repr

/-- Selectors, and the declarations for what they select. -/
structure StyleRule where
  selectors : List Selector
  declarations : List Declaration
deriving DecidableEq, Repr

/-- A margin box of a page, such as `@top-left`. -/
structure MarginRule where
  name : String
  declarations : List Declaration
deriving DecidableEq, Repr

/-- A page rule. Its margin boxes stand behind its declarations. -/
structure PageRule where
  selector : List Value
  declarations : List Declaration
  margins : List MarginRule
deriving DecidableEq, Repr

/-- The declarations for some moments of an animation. -/
structure KeyframeBlock where
  selectors : List (List Value)
  declarations : List Declaration
deriving DecidableEq, Repr

/-- An animation. The keyword may carry a vendor, as in `-webkit-keyframes`. -/
structure KeyframesRule where
  keyword : String
  name : List Value
  blocks : List KeyframeBlock
deriving DecidableEq, Repr

/-- The rules that hold other rules under a condition. -/
inductive GroupKind where
  | media
  | supports
deriving DecidableEq, Repr

/-- A rule. -/
inductive Rule where
  | style (rule : StyleRule)
  | group (kind : GroupKind) (condition : List Value) (rules : List Rule)
  | page (rule : PageRule)
  | keyframes (rule : KeyframesRule)
  /-- A rule whose block is a plain list of declarations, such as `@font-face`. -/
  | descriptors (name : String) (prelude : List Value) (declarations : List Declaration)
  /-- A rule without a block, such as `@import`. -/
  | statement (name : String) (prelude : List Value)
  /-- A rule with a block that has no grammar here; its values are kept. -/
  | verbatim (name : String) (prelude : List Value) (block : List Value)
deriving Repr

namespace Rule

mutual

/-- Equality of rules, decided along their structure. -/
def beq : Rule → Rule → Bool
  | .style a, .style b => a = b
  | .group k c rs, .group k' c' rs' => k = k' && c = c' && beqList rs rs'
  | .page a, .page b => a = b
  | .keyframes a, .keyframes b => a = b
  | .descriptors n p ds, .descriptors n' p' ds' => n = n' && p = p' && ds = ds'
  | .statement n p, .statement n' p' => n = n' && p = p'
  | .verbatim n p b, .verbatim n' p' b' => n = n' && p = p' && b = b'
  | _, _ => false

/-- Equality of lists of rules. -/
def beqList : List Rule → List Rule → Bool
  | [], [] => true
  | a :: as, b :: bs => beq a b && beqList as bs
  | _, _ => false

end

mutual

theorem beq_iff : ∀ a b : Rule, beq a b = true ↔ a = b
  | .style _, b => by cases b <;> simp [beq]
  | .group _ _ rs, b => by cases b <;> simp [beq, beqList_iff rs, and_assoc]
  | .page _, b => by cases b <;> simp [beq]
  | .keyframes _, b => by cases b <;> simp [beq]
  | .descriptors .., b => by cases b <;> simp [beq, and_assoc]
  | .statement .., b => by cases b <;> simp [beq]
  | .verbatim .., b => by cases b <;> simp [beq, and_assoc]

theorem beqList_iff : ∀ as bs : List Rule, beqList as bs = true ↔ as = bs
  | [], bs => by cases bs <;> simp [beqList]
  | a :: as, bs => by cases bs <;> simp [beqList, beq_iff a, beqList_iff as]

end

instance : DecidableEq Rule := fun a b => decidable_of_iff _ (beq_iff a b)

/-- The style rules among rules in the order of the document, those inside of
    groups included. -/
def styleRules : List Rule → List StyleRule
  | [] => []
  | .style rule :: rest => rule :: styleRules rest
  | .group _ _ rules :: rest => styleRules rules ++ styleRules rest
  | _ :: rest => styleRules rest

end Rule

/-- A stylesheet: its rules, and the encoding that a leading `@charset` rule
    names. -/
structure StyleSheet where
  rules : List Rule
  charset : Option String
deriving DecidableEq, Repr

namespace StyleSheet

/-- The stylesheet without any rules. -/
def empty : StyleSheet := ⟨[], none⟩

/-- A stylesheet of rules that names no encoding. -/
def ofRules (rules : List Rule) : StyleSheet := ⟨rules, none⟩

/-- All style rules in the order of the document. -/
def styleRules (sheet : StyleSheet) : List StyleRule :=
  Rule.styleRules sheet.rules

/-- Adds rules at the end. -/
def append (sheet : StyleSheet) (rules : List Rule) : StyleSheet :=
  { sheet with rules := sheet.rules ++ rules }

/-- Removes the rule at an index of the outermost level, if there is one. -/
def removeRule (sheet : StyleSheet) (index : Nat) : StyleSheet :=
  { sheet with rules := sheet.rules.eraseIdx index }

end StyleSheet

end DeepScope
