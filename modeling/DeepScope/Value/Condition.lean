import DeepScope.Layout.Piece
import DeepScope.Value.Basic

/-!
Conditions of group rules. Inside their parentheses white space beside a colon has no meaning:
it is dropped when a condition is read, and laid out anew when it is written. Functions such
as `selector(a :hover)` are left alone.
-/

namespace DeepScope.Value

/-- Drops the white space behind a colon, and one blank in front of it. -/
def tightenColons (afterColon : Bool) : List Value → List Value
  | [] => []
  | v :: rest =>
    if v.isBlank && (afterColon || rest.head?.any isColon) then tightenColons afterColon rest
    else v :: tightenColons v.isColon rest

/-- Tightens the colons inside the parentheses of a condition, at any depth. -/
def normalizeCondition : List Value → List Value
  | [] => []
  | .block .openParen contents :: rest =>
    .block .openParen (tightenColons false (normalizeCondition contents)) :: normalizeCondition rest
  | v :: rest => v :: normalizeCondition rest

/-- Writes one more value behind those written already, the last one first. A
    blank never stays beside a colon; the pretty layout puts one of its own
    behind it. -/
def writeBeside (layout : Layout) (written : List Value) (v : Value) : List Value :=
  match written with
  | [] => [v]
  | last :: before =>
    if last.isColon then
      if v.isBlank then written
      else if layout = .pretty then v :: .token .whitespace :: written
      else v :: written
    else if v.isColon && last.isBlank then v :: before
    else v :: written

/-- Lays out the colons inside the parentheses of a condition:
    `(min-width: 10px)` or `(min-width:10px)`. -/
def layoutCondition (layout : Layout) : List Value → List Value
  | [] => []
  | .block .openParen contents :: rest =>
    .block .openParen ((layoutCondition layout contents).foldl (writeBeside layout) []).reverse ::
      layoutCondition layout rest
  | v :: rest => v :: layoutCondition layout rest

end DeepScope.Value
