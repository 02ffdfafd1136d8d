import DeepScope.StyleSheet.Reader
import DeepScope.StyleSheet.Writer

namespace DeepScope

/-- How the rules of a text compare with those it was written from. -/
inductive Reparsed where
  | same
  | differs
  | failed (error : Error)
deriving DecidableEq, Repr

namespace StyleSheet

/-- Compares a text with the rules that it was written from. The charset does
    not count. -/
def reparse (sheet : StyleSheet) (text : String) : Reparsed :=
  match parse text with
  | .error e => .failed e
  | .ok read => if read.rules = sheet.rules then .same else .differs

variable {sheet : StyleSheet} {text : String}

/-- A text compares as the same exactly if the rules are read from it. -/
theorem reparse_eq_same_iff :
    sheet.reparse text = .same ↔ ∃ read, parse text = .ok read ∧ read.rules = sheet.rules := by
  unfold reparse
  cases parse text with
  | error => simp
  | ok read =>
    dsimp only
    split <;> simp_all

end StyleSheet

end DeepScope
