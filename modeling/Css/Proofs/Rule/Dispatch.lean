import Css.Proofs.Component.Bare
import Css.Proofs.Parser.Leads
import Css.Rule.RuleList

/-!
# What a rule starts with

The first component that is no filler decides how a rule is read: an at-keyword names the kind of an
at-rule, and everything else belongs to selectors. A rule that is read is longer than nothing.
-/

namespace Css

open Css.Parser

namespace AtRule

/-- The component is an at-keyword. -/
def isKeyword : Component → Bool
  | .leaf ⟨.atKeyword _, _, _⟩ => true
  | _ => false

/-- Looking like at-keywords is being at-keywords. -/
theorem isKeyword_bare (component : Component) :
    isKeyword component.bare = isKeyword component := by
  cases component with
  | leaf t => obtain ⟨kind, text, start⟩ := t; cases kind <;> rfl
  | group => rfl

/-- An at-keyword is a leaf. -/
theorem exists_leaf_of_isKeyword {component : Component} (h : isKeyword component = true) :
    ∃ name text start, component = .leaf ⟨.atKeyword name, text, start⟩ := by
  unfold isKeyword at h
  split at h
  · exact ⟨_, _, _, rfl⟩
  · cases h

/-- The fault of a statement of the prologue that starts with the component, if it stands among
rules. -/
def lateFault? (component : Component) : Option Fault :=
  match ofComponent? component with
  | some .charset => some .lateCharset
  | some .binding => some .lateNamespace
  | _ => none

/-- A component that names a kind of at-rule is an at-keyword. -/
theorem isKeyword_of_ofComponent? {component : Component} {kind : AtRule}
    (h : ofComponent? component = some kind) : isKeyword component = true := by
  unfold ofComponent? at h
  split at h
  · rfl
  · cases h

end AtRule

namespace Rule

variable (context : Context) (namespaces : Namespaces) (rules : Parser (List Rule))

/-- A rule is read as an at-rule or as a rule with selectors. -/
theorem ruleWith_eq (c : Cursor) :
    ruleWith context namespaces rules c =
      match c.rest.dropWhile Component.isFiller with
      | [] => .error ⟨.endOfInput, c.stop⟩ ⟨[], c.stop⟩
      | component :: rest =>
        if AtRule.isKeyword component then
          atRuleParser context rules component.start (AtRule.ofComponent? component) ⟨rest, c.stop⟩
        else styleParser context namespaces ⟨component :: rest, c.stop⟩ := by
  show EStateM.bind next _ c = _
  unfold EStateM.bind next
  rw [nextAfter_eq]
  cases hrest : c.rest.dropWhile Component.isFiller with
  | nil => rfl
  | cons component rest =>
      dsimp only
      split
      · rfl
      · rename_i hother
        have hkeyword : AtRule.isKeyword component = false := by
          unfold AtRule.isKeyword
          split
          · exact (hother _ _ _ rfl).elim
          · rfl
        rw [if_neg (by simp [hkeyword])]
        show styleParser context namespaces (c.skip Component.isFiller) = _
        rw [Cursor.skip, hrest]

variable {context namespaces rules}

/-- An at-keyword starts an at-rule. -/
theorem ruleWith_of_isKeyword {c : Cursor} {component : Component} {rest : List Component}
    (hrest : c.rest.dropWhile Component.isFiller = component :: rest)
    (h : AtRule.isKeyword component = true) :
    ruleWith context namespaces rules c =
      atRuleParser context rules component.start (AtRule.ofComponent? component)
        ⟨rest, c.stop⟩ := by
  rw [ruleWith_eq, hrest]
  simp [h]

/-- Everything but an at-keyword starts a rule with selectors. -/
theorem ruleWith_of_not_isKeyword {c : Cursor} {component : Component} {rest : List Component}
    (hrest : c.rest.dropWhile Component.isFiller = component :: rest)
    (h : AtRule.isKeyword component = false) :
    ruleWith context namespaces rules c =
      styleParser context namespaces ⟨component :: rest, c.stop⟩ := by
  rw [ruleWith_eq, hrest]
  simp [h]

/-- There is no rule at the end. -/
theorem ruleWith_of_isExhausted {c : Cursor} (h : c.isExhausted = true) :
    ruleWith context namespaces rules c = .error ⟨.endOfInput, c.stop⟩ ⟨[], c.stop⟩ := by
  rw [ruleWith_eq, c.isExhausted_iff.mp h]

/-- A statement of the prologue is refused among rules. -/
theorem ruleWith_of_lateFault? {c : Cursor} {component : Component} {rest : List Component}
    {f : Fault} (hrest : c.rest.dropWhile Component.isFiller = component :: rest)
    (h : AtRule.lateFault? component = some f) :
    ruleWith context namespaces rules c = .error ⟨f, component.start⟩ ⟨rest, c.stop⟩ := by
  unfold AtRule.lateFault? at h
  split at h
  · rename_i hkind
    cases h
    rw [ruleWith_of_isKeyword hrest (AtRule.isKeyword_of_ofComponent? hkind), hkind]
    rfl
  · rename_i hkind
    cases h
    rw [ruleWith_of_isKeyword hrest (AtRule.isKeyword_of_ofComponent? hkind), hkind]
    rfl
  · cases h

/-- The end of a statement leads on. -/
theorem advances_statementEnd : Advances statementEnd := by
  refine advances_isExhausted.bind fun exhausted => ?_
  split
  · exact advances_pure none
  · refine consumes_next.advances.bind fun component => ?_
    split
    · exact advances_pure none
    · exact advances_pure (some component)

/-- An at-rule leads on behind its keyword. -/
theorem advances_atRuleParser (location : Position) (kind : Option AtRule) :
    Advances (atRuleParser context rules location kind) := by
  refine (advances_untilBefore _ _).bind fun found => advances_statementEnd.bind fun body => ?_
  split
  · exact advances_fault _ _
  · exact advances_inside _ _

/-- A rule with selectors leads on over its block. -/
theorem consumes_styleParser : Consumes (styleParser context namespaces) := by
  refine (advances_untilBefore _ _).bind_consumes fun selectors => ?_
  have hblock : Consumes (do
      let body ← block .curly
      return Rule.style selectors (← inside body (Declarations.parser (context.inRule .style)))) :=
    (consumes_expect _).bind fun body => (advances_inside _ _).bind fun _ => advances_pure _
  refine advances_isExhausted.bind_consumes fun exhausted => ?_
  split
  · intro c rule after hrun
    cases hrun
  · exact hblock

/-- A rule leads on over something. -/
theorem consumes_ruleWith : Consumes (ruleWith context namespaces rules) := by
  intro c rule after hrun
  rw [ruleWith_eq] at hrun
  cases hrest : c.rest.dropWhile Component.isFiller with
  | nil =>
      rw [hrest] at hrun
      cases hrun
  | cons component rest =>
      have hsuffix := Component.suffix_of_dropWhile hrest
      rw [hrest] at hrun
      have hlength := hsuffix.length_le
      have hfirst : c.Leads ⟨component :: rest, c.stop⟩ := ⟨hsuffix, rfl⟩
      dsimp only at hrun
      split at hrun
      · have hafter := advances_atRuleParser _ _ hrun
        refine
          ⟨hfirst.trans ⟨hafter.suffix.trans (List.suffix_cons component rest), hafter.stop⟩, ?_⟩
        have := hafter.suffix.length_le
        simp only [List.length_cons] at this hlength
        omega
      · obtain ⟨hafter, hless⟩ := consumes_styleParser hrun
        exact ⟨hfirst.trans hafter, Nat.lt_of_lt_of_le hless hlength⟩

/-- A rule leads on over something. -/
theorem consumes_rule : Consumes (parser context namespaces) := consumes_ruleWith

end Rule

end Css
