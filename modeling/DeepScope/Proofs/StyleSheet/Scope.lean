import DeepScope.StyleSheet.Scope
import Mathlib.Data.List.Basic

namespace DeepScope

namespace Selector

/-- Whether a selector is left as it is: it has no members, or its first one
    names the root element of a document or its body. -/
def isKept (selector : Selector) : Bool :=
  match selector.members with
  | [] => true
  | .simple (.type none name) :: _ =>
    asciiLower (trimWhiteSpace name) = "body" || asciiLower (trimWhiteSpace name) = "html"
  | _ => false

/-- The selector below the body and in its shadow trees, unless it is kept. -/
def belowBody (selector : Selector) : Selector :=
  if selector.isKept then selector
  else ⟨.simple (.type none "body") :: .combinator .deep :: selector.members⟩

theorem belowBody_of_isKept {selector : Selector} (h : selector.isKept = true) :
    selector.belowBody = selector :=
  if_pos h

theorem isKept_belowBody (selector : Selector) : selector.belowBody.isKept = true := by
  unfold belowBody
  split
  · assumption
  · have hbody : asciiLower (trimWhiteSpace "body") = "body" := by decide
    simp [isKept, hbody]

theorem belowBody_belowBody (selector : Selector) :
    selector.belowBody.belowBody = selector.belowBody :=
  belowBody_of_isKept selector.isKept_belowBody

/-- A selector that is not kept gets longer. -/
theorem belowBody_eq_self_iff {selector : Selector} :
    selector.belowBody = selector ↔ selector.isKept = true := by
  refine ⟨fun h => ?_, belowBody_of_isKept⟩
  by_contra hkept
  have hlength := congrArg (List.length ∘ members) h
  simp [belowBody, hkept] at hlength
  omega

/-- Scoping one selector counts it on the right side. -/
theorem scope_eq (selector : Selector) : selector.scope.1 = selector.belowBody ∧
    selector.scope.2.changed = (if selector.isKept then 0 else 1) ∧
    selector.scope.2.kept = (if selector.isKept then 1 else 0) := by
  obtain ⟨members⟩ := selector
  cases members with
  | nil => exact ⟨rfl, rfl, rfl⟩
  | cons first rest =>
    have hroot : first.elementName.any isRootElement = (⟨first :: rest⟩ : Selector).isKept := by
      unfold Member.elementName SimpleSelector.elementName
      cases first with
      | combinator c => rfl
      | simple s =>
        cases s with
        | type ns name => cases ns <;> simp [isKept, isRootElement]
        | _ => rfl
    unfold scope belowBody
    dsimp only
    rw [hroot]
    split <;> simp_all [bodyDeep]

theorem scopeAll_eq (selectors : List Selector) :
    (scopeAll selectors).1 = selectors.map belowBody ∧
      (scopeAll selectors).2.changed = selectors.countP (fun s => !s.isKept) ∧
      (scopeAll selectors).2.kept = selectors.countP isKept := by
  induction selectors with
  | nil => exact ⟨rfl, rfl, rfl⟩
  | cons selector rest ih =>
    obtain ⟨hscope, hchanged, hkept⟩ := selector.scope_eq
    obtain ⟨hrest, hrestChanged, hrestKept⟩ := ih
    refine ⟨?_, ?_, ?_⟩
    · rw [List.map_cons, ← hscope, ← hrest]
      rfl
    · rw [List.countP_cons, ← hrestChanged, Nat.add_comm]
      refine congrArg (· + _) (hchanged.trans ?_)
      cases selector.isKept <;> rfl
    · rw [List.countP_cons, ← hrestKept, Nat.add_comm]
      exact congrArg (· + _) hkept

end Selector

namespace Rule

mutual

/-- Changes the selectors of a style rule, and of the style rules that a group
    holds at any depth. -/
def mapSelectors (change : Selector → Selector) : Rule → Rule
  | .style rule => .style { rule with selectors := rule.selectors.map change }
  | .group kind condition rules => .group kind condition (mapSelectorsAll change rules)
  | rule => rule

/-- Changes the selectors of each rule of a list. -/
def mapSelectorsAll (change : Selector → Selector) : List Rule → List Rule
  | [] => []
  | rule :: rest => mapSelectors change rule :: mapSelectorsAll change rest

end

/-- The selectors of the style rules among rules, in the order of the document. -/
def selectors (rules : List Rule) : List Selector :=
  (styleRules rules).flatMap StyleRule.selectors

theorem styleRules_cons (rule : Rule) (rest : List Rule) :
    styleRules (rule :: rest) = styleRules [rule] ++ styleRules rest := by
  cases rule <;> simp [styleRules]

theorem selectors_cons (rule : Rule) (rest : List Rule) :
    selectors (rule :: rest) = selectors [rule] ++ selectors rest := by
  rw [selectors, styleRules_cons, List.flatMap_append]
  rfl

section

variable (change : Selector → Selector)

mutual

theorem styleRules_mapSelectors : ∀ rule : Rule, styleRules [mapSelectors change rule] =
    (styleRules [rule]).map fun r => { r with selectors := r.selectors.map change }
  | .style rule => by simp [mapSelectors, styleRules]
  | .group kind condition rules => by
    simpa [mapSelectors, styleRules] using styleRules_mapSelectorsAll rules
  | .page _ | .keyframes _ | .descriptors .. | .statement .. | .verbatim .. => by
    simp [mapSelectors, styleRules]

/-- The style rules are found in the same places. -/
theorem styleRules_mapSelectorsAll : ∀ rules : List Rule, styleRules (mapSelectorsAll change rules) =
    (styleRules rules).map fun r => { r with selectors := r.selectors.map change }
  | [] => by simp [mapSelectorsAll, styleRules]
  | rule :: rest => by
    rw [mapSelectorsAll, styleRules_cons, styleRules_mapSelectors rule,
      styleRules_mapSelectorsAll rest, ← List.map_append, ← styleRules_cons]

end

theorem selectors_mapSelectorsAll (rules : List Rule) :
    selectors (mapSelectorsAll change rules) = (selectors rules).map change := by
  rw [selectors, styleRules_mapSelectorsAll, List.flatMap_map, selectors, List.map_flatMap]

variable {change}

mutual

theorem mapSelectors_of_fixed (h : ∀ s, change (change s) = change s) :
    ∀ rule : Rule, mapSelectors change (mapSelectors change rule) = mapSelectors change rule
  | .style rule => by simp [mapSelectors, h]
  | .group kind condition rules => by
    rw [mapSelectors, mapSelectors, mapSelectorsAll_of_fixed h rules]
  | .page _ | .keyframes _ | .descriptors .. | .statement .. | .verbatim .. => by
    simp [mapSelectors]

/-- A change that does nothing the second time does nothing to rules then. -/
theorem mapSelectorsAll_of_fixed (h : ∀ s, change (change s) = change s) :
    ∀ rules : List Rule,
      mapSelectorsAll change (mapSelectorsAll change rules) = mapSelectorsAll change rules
  | [] => by simp [mapSelectorsAll]
  | rule :: rest => by
    rw [mapSelectorsAll, mapSelectorsAll, mapSelectors_of_fixed h rule,
      mapSelectorsAll_of_fixed h rest]

end

end

mutual

theorem scope_eq : ∀ rule : Rule, (scope rule).1 = mapSelectors Selector.belowBody rule ∧
    (scope rule).2.changed = (selectors [rule]).countP (fun s => !s.isKept) ∧
    (scope rule).2.kept = (selectors [rule]).countP Selector.isKept
  | .style rule => by
    obtain ⟨hscope, hchanged, hkept⟩ := Selector.scopeAll_eq rule.selectors
    refine ⟨?_, ?_, ?_⟩
    · rw [mapSelectors, ← hscope, scope]
    · simpa [selectors, styleRules, scope] using hchanged
    · simpa [selectors, styleRules, scope] using hkept
  | .group kind condition rules => by
    obtain ⟨hscope, hchanged, hkept⟩ := scopeAll_eq rules
    have hinside : selectors [.group kind condition rules] = selectors rules := by
      simp [selectors, styleRules]
    rw [hinside]
    rw [mapSelectors, ← hscope, scope]
    exact ⟨rfl, hchanged, hkept⟩
  | .page _ | .keyframes _ | .descriptors .. | .statement .. | .verbatim .. => by
    simp [scope, mapSelectors, selectors, styleRules, ScopeReport.empty]

/-- Scoping rules changes the selectors of their style rules, and counts them. -/
theorem scopeAll_eq : ∀ rules : List Rule,
    (scopeAll rules).1 = mapSelectorsAll Selector.belowBody rules ∧
      (scopeAll rules).2.changed = (selectors rules).countP (fun s => !s.isKept) ∧
      (scopeAll rules).2.kept = (selectors rules).countP Selector.isKept
  | [] => by simp [scopeAll, mapSelectorsAll, selectors, styleRules, ScopeReport.empty]
  | rule :: rest => by
    obtain ⟨hhead, hheadChanged, hheadKept⟩ := scope_eq rule
    obtain ⟨hrest, hrestChanged, hrestKept⟩ := scopeAll_eq rest
    rw [selectors_cons, List.countP_append, List.countP_append, mapSelectorsAll, ← hhead, ← hrest,
      ← hheadChanged, ← hrestChanged, ← hheadKept, ← hrestKept, scopeAll]
    exact ⟨rfl, rfl, rfl⟩

end

/-- All selectors of scoped rules are kept. -/
theorem isKept_of_mem_scopeAll {rules : List Rule} {s : Selector}
    (h : s ∈ selectors (scopeAll rules).1) : s.isKept = true := by
  obtain ⟨hscope, -, -⟩ := scopeAll_eq rules
  rw [hscope, selectors_mapSelectorsAll] at h
  obtain ⟨t, -, rfl⟩ := List.mem_map.1 h
  exact t.isKept_belowBody

/-- What was scoped is kept as it is when it is scoped again. -/
theorem scopeAll_scopeAll (rules : List Rule) :
    (scopeAll (scopeAll rules).1).1 = (scopeAll rules).1 ∧
      (scopeAll (scopeAll rules).1).2.changed = 0 ∧
      (scopeAll (scopeAll rules).1).2.kept = (selectors rules).length := by
  obtain ⟨hagain, hchanged, hkept⟩ := scopeAll_eq (scopeAll rules).1
  refine ⟨?_, ?_, ?_⟩
  · rw [hagain, (scopeAll_eq rules).1, mapSelectorsAll_of_fixed Selector.belowBody_belowBody]
  · exact hchanged.trans (List.countP_eq_zero.2 fun s hs => by simp [isKept_of_mem_scopeAll hs])
  · rw [hkept, List.countP_eq_length.2 fun s => isKept_of_mem_scopeAll, (scopeAll_eq rules).1,
      selectors_mapSelectorsAll, List.length_map]

end Rule

namespace StyleSheet

/-- Scoping puts the selectors of all style rules below the body, changes nothing
    else, counts the selectors that it changed and those that it kept, and does
    nothing more when it is repeated. -/
theorem scope_exact (sheet : StyleSheet) :
    let selectors := sheet.styleRules.flatMap StyleRule.selectors
    let (once, report) := sheet.scope
    let (twice, again) := once.scope
    once = ⟨Rule.mapSelectorsAll Selector.belowBody sheet.rules, sheet.charset⟩ ∧
      once.styleRules =
        sheet.styleRules.map (fun r => { r with selectors := r.selectors.map Selector.belowBody }) ∧
      report.changed = selectors.countP (fun s => s.belowBody ≠ s) ∧
      report.changed + report.kept = selectors.length ∧
      twice = once ∧ again.changed = 0 ∧ again.kept = report.changed + report.kept := by
  obtain ⟨hscope, hchanged, hkept⟩ := Rule.scopeAll_eq sheet.rules
  obtain ⟨hagain, hnone, hkeptAll⟩ := Rule.scopeAll_scopeAll sheet.rules
  have hsum : (Rule.scopeAll sheet.rules).2.changed + (Rule.scopeAll sheet.rules).2.kept =
      (Rule.selectors sheet.rules).length := by
    rw [hchanged, hkept, List.length_eq_countP_add_countP Selector.isKept, Nat.add_comm]
    simp
  have hcount : (Rule.selectors sheet.rules).countP (fun s => !s.isKept) =
      (Rule.selectors sheet.rules).countP (fun s => s.belowBody ≠ s) :=
    List.countP_congr fun s _ => by simp [Selector.belowBody_eq_self_iff]
  rw [hscope] at hagain hnone hkeptAll
  simp only [scope, hscope]
  refine ⟨trivial, ?_, hchanged.trans hcount, hsum, ?_, hnone, hkeptAll.trans hsum.symm⟩
  · exact Rule.styleRules_mapSelectorsAll _ _
  · rw [hagain]

end StyleSheet

end DeepScope
