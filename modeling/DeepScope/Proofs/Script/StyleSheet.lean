import DeepScope.Proofs.Script.Rule
import DeepScope.StyleSheet.Reader

namespace DeepScope.Script

/-- Reads the rule that may name an encoding. -/
def charset (steps : Nat) : Script (Option String) := do
  if (← look) = .atKeyword "charset" then
    step
    match ← prelude steps with
    | ⟨[.token (.string label)], false⟩ => return some label
    | _ => fail none .malformedCharset
  else return none

/-- Reads a stylesheet up to the end, which is left. -/
def styleSheet (steps : Nat) : Script StyleSheet := do
  let charset ← charset steps
  let rules ← rules true steps
  return ⟨rules, charset⟩

variable {limit : Option Nat} {steps : Nat} {reader : Reader}

theorem run_charset (h : reader.rest.length < steps) :
    (charset steps).run limit 0 reader = StyleSheet.readCharset limit reader := by
  rw [charset, run_look, StyleSheet.readCharset]
  split
  · next hpeek =>
    have hne : reader.peek ≠ .eof := by simp [hpeek]
    rw [run_step _ hne, run_bind, run_prelude (Nat.lt_trans (reader.advance_length_lt hne) h)]
    cases Prelude.read limit 0 reader.advance with
    | error failure => rfl
    | ok pair =>
      obtain ⟨found, after⟩ := pair
      dsimp only
      split
      · rfl
      · next hother =>
        split
        · contradiction
        · next label _ heq =>
          cases heq
          exact (hother label rfl).elim
        · next heq =>
          cases heq
          rfl
  · rfl

/-- The script of a stylesheet, given as many rounds as there are tokens, does
    what the reader does, which takes the end as well. -/
theorem readTokens_eq {tokens : List Located} (h : tokens.length < steps) :
    (StyleSheet.readTokens limit tokens).2 =
      ((styleSheet steps).run limit 0 (Reader.ofTokens tokens)).map
        fun (sheet, after) => (sheet, after.advance) := by
  rw [styleSheet, run_bind, run_charset h, StyleSheet.readTokens]
  cases hcharset : StyleSheet.readCharset limit (Reader.ofTokens tokens) with
  | error failure => rfl
  | ok pair =>
    obtain ⟨charset, after⟩ := pair
    have hle := run_length_le ((run_charset h).trans hcharset)
    have hrules : (readRules limit [] [] after).2 = _ := readRules_eq (Nat.lt_of_le_of_lt hle h)
    dsimp only
    rw [hrules, run_bind, List.isEmpty_nil, List.length_nil]
    cases (rules true steps).run limit 0 after <;> rfl

end DeepScope.Script
