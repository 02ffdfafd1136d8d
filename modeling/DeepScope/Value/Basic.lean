import DeepScope.Token.Basic

namespace DeepScope

/-- A component value. A block remembers the token that opened it; only the
    opening brackets arise from reading, but any token can be held. -/
inductive Value where
  | token (token : Token)
  | function (name : String) (arguments : List Value)
  | block (opener : Token) (contents : List Value)
deriving Repr

namespace Value

mutual

/-- Equality of values, decided along their structure. -/
def beq : Value → Value → Bool
  | .token a, .token b => a = b
  | .function a as, .function b bs => a = b && beqList as bs
  | .block a as, .block b bs => a = b && beqList as bs
  | _, _ => false

/-- Equality of lists of values. -/
def beqList : List Value → List Value → Bool
  | [], [] => true
  | a :: as, b :: bs => beq a b && beqList as bs
  | _, _ => false

end

mutual

theorem beq_iff : ∀ a b : Value, beq a b = true ↔ a = b
  | .token a, b => by cases b <;> simp [beq]
  | .function a as, b => by cases b <;> simp [beq, beqList_iff as]
  | .block a as, b => by cases b <;> simp [beq, beqList_iff as]

theorem beqList_iff : ∀ as bs : List Value, beqList as bs = true ↔ as = bs
  | [], bs => by cases bs <;> simp [beqList]
  | a :: as, bs => by cases bs <;> simp [beqList, beq_iff a, beqList_iff as]

end

instance : DecidableEq Value := fun a b => decidable_of_iff _ (beq_iff a b)

/-- Whether the value is white space. -/
def isBlank : Value → Bool
  | .token .whitespace => true
  | _ => false

/-- Whether the value is a comma. -/
def isComma : Value → Bool
  | .token .comma => true
  | _ => false

/-- Whether the value is a colon. -/
def isColon : Value → Bool
  | .token .colon => true
  | _ => false

/-- The tokens that values were gathered from, each opening token matched by
    its closing one. -/
def flatten : List Value → List Token
  | [] => []
  | .token t :: rest => t :: flatten rest
  | .function name arguments :: rest =>
    .function name :: (flatten arguments ++ .closeParen :: flatten rest)
  | .block opener contents :: rest =>
    opener :: (flatten contents ++ opener.closer :: flatten rest)

/-- Goes through values with two facts about what came before: whether a value
    other than a comma was the last one kept, and whether white space has
    followed it since. -/
def normalizeFrom (separable blank : Bool) : List Value → List Value
  | [] => []
  | v :: rest =>
    if v.isBlank then normalizeFrom separable true rest
    else if separable && blank && !v.isComma then
      .token .whitespace :: v :: normalizeFrom (!v.isComma) false rest
    else
      v :: normalizeFrom (!v.isComma) false rest

/-- The values with white space only where it separates. -/
def normalize (values : List Value) : List Value :=
  normalizeFrom false false values

end Value

end DeepScope
