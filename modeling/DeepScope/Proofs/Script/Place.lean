import DeepScope.Proofs.Script.Local
import DeepScope.Proofs.Script.StyleSheet

namespace DeepScope

/-- Whether all places that a reader knows of are among these. -/
structure Reader.Within (places : Position → Prop) (reader : Reader) : Prop where
  last : places reader.last
  rest : ∀ item ∈ reader.rest, places item.position

namespace Reader.Within

variable {places : Position → Prop} {reader : Reader}

theorem here (h : reader.Within places) : places reader.here := by
  unfold Reader.here
  cases hrest : reader.rest with
  | nil => exact h.last
  | cons item rest => exact h.rest item (by simp [hrest])

theorem advance (h : reader.Within places) : reader.advance.Within places := by
  refine ⟨reader.advance_last ▸ h.here, fun item hitem => h.rest item ?_⟩
  unfold Reader.advance at hitem
  split at hitem
  · exact hitem
  · next heq => exact heq ▸ List.mem_cons_of_mem _ hitem

end Reader.Within

namespace Script

variable {α β : Type} {places : Position → Prop}

/-- Whether a script fails at none but these places as long as it is shown no
    others. -/
def Reports (places : Position → Prop) : {α : Type} → Script α → Prop
  | _, .done _ => True
  | _, .fail place _ => ∀ p ∈ place, places p
  | _, .refuse _ => True
  | _, .peek next => ∀ token, (next token).Reports places
  | _, .here next => ∀ p, places p → (next p).Reports places
  | _, .take next => next.Reports places
  | _, .nested inside next => inside.Reports places ∧ ∀ found, (next found).Reports places

theorem Reports.bind {front : Script α} {next : α → Script β} (h : front.Reports places)
    (hnext : ∀ result, (next result).Reports places) : (front >>= next).Reports places := by
  show (front.bind next).Reports places
  induction front with
  | done result => exact hnext result
  | fail => exact h
  | refuse => trivial
  | peek front ih => exact fun token => ih token (h token) hnext
  | here front ih => exact fun p hp => ih p (h p hp) hnext
  | take front ih => exact ih h hnext
  | nested inside front _ ih => exact ⟨h.1, fun found => ih found (h.2 found) hnext⟩

/-- A script fails at the place of a token, or leaves a reader that knows of no other
    places. -/
theorem Reports.run {script : Script α} (h : script.Reports places) (limit : Option Nat)
    (depth : Nat) {reader : Reader} (hreader : reader.Within places) :
    match script.run limit depth reader with
    | .error failure => places failure.position
    | .ok (_, after) => after.Within places := by
  induction script generalizing depth reader with
  | done => exact hreader
  | fail place reason =>
    cases place with
    | none => exact hreader.last
    | some p => exact h p rfl
  | refuse reason => exact hreader.advance.last
  | peek next ih => exact ih reader.peek (h reader.peek) depth hreader
  | here next ih => exact ih reader.here (h reader.here hreader.here) depth hreader
  | take next ih =>
    simp only [Script.run]
    by_cases hend : reader.peek = .eof
    · rw [if_pos hend]
      exact hreader.advance.last
    · rw [if_neg hend]
      exact ih h depth hreader.advance
  | nested inside next ihInside ih =>
    simp only [Script.run]
    by_cases hmay : mayNest limit depth
    · rw [if_pos hmay]
      have hinside := ihInside h.1 (depth + 1) hreader
      revert hinside
      cases inside.run limit (depth + 1) reader with
      | error failure => exact id
      | ok pair => exact fun hafter => ih pair.1 (h.2 pair.1) depth hafter
    · rw [if_neg hmay]
      exact hreader.last

section

variable {next : Token → Script α} {rest : Unit → Script α}

theorem reports_pure (result : α) : (pure result : Script α).Reports places :=
  trivial

theorem reports_fail (reason : GrammarError) : (fail none reason : Script α).Reports places :=
  nofun

theorem reports_refuse (reason : GrammarError) : (refuse reason : Script α).Reports places :=
  trivial

theorem reports_look (h : ∀ token, (next token).Reports places) :
    (look >>= next).Reports places :=
  h

theorem reports_step (h : (rest ()).Reports places) : (step >>= rest).Reports places :=
  h

theorem reports_nest {inside : Script α} (h : inside.Reports places) :
    (nest inside).Reports places :=
  ⟨h, fun _ => trivial⟩

end

theorem reports_blanks (steps : Nat) : (blanks steps).Reports places := by
  induction steps with
  | zero => exact reports_fail _
  | succ steps ih =>
    refine reports_look fun token => ?_
    split
    · exact reports_step ih
    · exact reports_pure _

theorem reports_value {inside : Token → Script Value} (h : ∀ token, (inside token).Reports places) :
    (value inside).Reports places := by
  refine reports_look fun token => ?_
  split
  · exact reports_step (reports_nest (h token))
  · split
    · exact reports_refuse _
    · exact reports_step (reports_pure _)

theorem reports_contents (steps : Nat) (top : OpenValue) : (contents steps top).Reports places := by
  induction steps generalizing top with
  | zero => exact reports_fail _
  | succ steps ih =>
    refine reports_look fun token => ?_
    split
    · exact reports_step (reports_pure _)
    · split
      · exact reports_refuse _
      · exact (reports_value fun opener => ih ⟨opener, []⟩).bind fun found => ih (top.push found)

theorem reports_values (ends : Token → Bool) (steps : Nat) : (values ends steps).Reports places := by
  induction steps with
  | zero => exact reports_fail _
  | succ steps ih =>
    refine reports_look fun token => ?_
    split
    · exact reports_pure _
    · refine (reports_value fun opener => reports_contents steps ⟨opener, []⟩).bind fun first => ?_
      exact ih.bind fun others => reports_pure _

theorem reports_declaration (steps : Nat) : (declaration steps).Reports places := by
  refine reports_look fun token => ?_
  split
  · refine reports_step ((reports_blanks steps).bind fun _ => reports_look fun next => ?_)
    split
    · refine reports_step ((reports_values _ steps).bind fun found => ?_)
      dsimp only
      split
      · exact reports_fail _
      · exact reports_pure _
    · exact reports_refuse _
  · exact reports_refuse _

theorem reports_declarations (steps : Nat) : (declarations steps).Reports places := by
  induction steps with
  | zero => exact reports_fail _
  | succ steps ih =>
    refine reports_look fun token => ?_
    split
    · exact reports_step (reports_pure _)
    · exact reports_step ih
    · exact reports_step ih
    · exact reports_refuse _
    · exact reports_refuse _
    · exact (reports_declaration steps).bind fun first => ih.bind fun others => reports_pure _
    · exact reports_refuse _

theorem reports_prelude (steps : Nat) : (prelude steps).Reports places := by
  refine (reports_values _ steps).bind fun found => reports_look fun token => ?_
  split
  · exact reports_step (reports_pure _)
  · exact reports_step (reports_pure _)
  · exact reports_refuse _
  · exact reports_refuse _

theorem reports_beforeBlock (steps : Nat) : (beforeBlock steps).Reports places := by
  refine (reports_values _ steps).bind fun found => reports_look fun token => ?_
  split
  · exact reports_step (reports_pure _)
  · exact reports_refuse _
  · exact reports_refuse _
  · exact reports_refuse _

theorem reports_margin (steps : Nat) (name : String) : (margin steps name).Reports places := by
  refine (reports_prelude steps).bind fun found => ?_
  split
  · exact reports_fail _
  · exact (reports_declarations steps).bind fun inside => reports_pure _

theorem reports_page (steps : Nat) : (page steps).Reports places := by
  induction steps with
  | zero => exact reports_fail _
  | succ steps ih =>
    refine reports_look fun token => ?_
    split
    · exact reports_step (reports_pure _)
    · exact reports_step ih
    · exact reports_step ih
    · exact reports_refuse _
    · exact reports_step ((reports_margin steps _).bind fun first => ih.bind fun pair => reports_pure _)
    · exact (reports_declaration steps).bind fun first => ih.bind fun pair => reports_pure _
    · exact reports_refuse _

theorem reports_keyframe (steps : Nat) : (keyframe steps).Reports places := by
  refine (reports_beforeBlock steps).bind fun found => ?_
  dsimp only
  split
  · exact reports_fail _
  · exact (reports_declarations steps).bind fun inside => reports_pure _

theorem reports_keyframes (steps : Nat) : (keyframes steps).Reports places := by
  induction steps with
  | zero => exact reports_fail _
  | succ steps ih =>
    refine reports_look fun token => ?_
    split
    · exact reports_step (reports_pure _)
    · exact reports_step ih
    · exact reports_refuse _
    · exact (reports_keyframe (steps + 1)).bind fun first => ih.bind fun others => reports_pure _

theorem reports_verbatim (steps : Nat) : (verbatim steps).Reports places := by
  refine (reports_values _ steps).bind fun found => reports_look fun token => ?_
  split
  · exact reports_step (reports_pure _)
  · exact reports_refuse _

theorem reports_atRuleBody {inside : Script (List Rule)} (h : inside.Reports places) (steps : Nat)
    (name : String) (prelude : Prelude) : (atRuleBody inside steps name prelude).Reports places := by
  unfold atRuleBody
  dsimp only
  split
  · cases AtRuleKind.ofKeyword (asciiLower name) with
    | charset | blockless => exact reports_fail _
    | group kind => exact (reports_nest h).bind fun found => reports_pure _
    | page => exact (reports_page steps).bind fun pair => reports_pure _
    | keyframes => exact (reports_keyframes steps).bind fun blocks => reports_pure _
    | descriptors => exact (reports_declarations steps).bind fun inside => reports_pure _
    | other => exact (reports_verbatim steps).bind fun block => reports_pure _
  · split
    · exact reports_pure _
    · exact reports_pure _
    · exact reports_pure _
    · exact reports_fail _

theorem reports_atRule {inside : Script (List Rule)} (h : inside.Reports places) (steps : Nat) :
    (atRule inside steps).Reports places := by
  refine reports_look fun token => ?_
  split
  · exact reports_step ((reports_prelude steps).bind fun found => reports_atRuleBody h steps _ found)
  · exact reports_refuse _

/-- A selector that cannot be read is reported at the place where the rule begins. -/
theorem reports_styleRule (steps : Nat) : (styleRule steps).Reports places := by
  intro begins hbegins
  refine (reports_beforeBlock steps).bind fun found => ?_
  split
  · rintro p ⟨⟩
    exact hbegins
  · exact (reports_declarations steps).bind fun inside => reports_pure _

theorem reports_rules (outermost : Bool) (steps : Nat) : (rules outermost steps).Reports places := by
  induction steps generalizing outermost with
  | zero => exact reports_fail _
  | succ steps ih =>
    refine reports_look fun token => ?_
    split
    · split
      · exact reports_pure _
      · exact reports_refuse _
    · exact reports_step (ih outermost)
    · split
      · exact reports_refuse _
      · exact reports_step (reports_pure _)
    · refine (reports_atRule (ih false) (steps + 1)).bind fun first => ?_
      exact (ih outermost).bind fun others => reports_pure _
    · split
      · exact reports_step (ih outermost)
      · refine (reports_styleRule (steps + 1)).bind fun first => ?_
        exact (ih outermost).bind fun others => reports_pure _

theorem reports_charset (steps : Nat) : (charset steps).Reports places := by
  refine reports_look fun token => ?_
  split
  · refine reports_step ((reports_prelude steps).bind fun found => ?_)
    split
    · exact reports_pure _
    · exact reports_fail _
  · exact reports_pure _

theorem reports_styleSheet (steps : Nat) : (styleSheet steps).Reports places :=
  (reports_charset steps).bind fun _ => (reports_rules true steps).bind fun _ => reports_pure _

end Script

end DeepScope
