import Css.Component.Outline
import Css.CounterStyle.Value

/-!
# Parse errors

A text that the grammar refuses is answered with the first fault found in it and the place of the
fault. Faults carry what they are about: a token, a component, the system of a counter style.
-/

namespace Css

/-- The reason why a text is refused. -/
inductive Fault where
  /-- A component that cannot stand where it stands; of a group, its opening token is named. -/
  | unexpectedToken (token : Token)
  /-- A second comparison that does not continue the first one. -/
  | unmatchedComparison
  | endOfInput
  | invalidAtRule
  | invalidAtRuleBody
  | invalidQualifiedRule
  | withoutSymbols (system : CounterSystem)
  | tooFewSymbols (system : CounterSystem)
  | withoutAdditiveSymbols (system : CounterSystem)
  | extendsWithSymbols (system : CounterSystem)
  | extendsWithAdditiveSymbols (system : CounterSystem)
  | unsupportedDescriptor
  /-- A name that no counter style may have, or no name at all. -/
  | invalidCounterStyleName (token : Option Token)
  | weightsNotDescending
  | rangeReversed
  | negativeValue
  | importantInKeyframe
  | emptyValue
  | unsupportedAtRule
  | lateNamespace
  | lateCharset
  | unknownPrefix (token : Token)
  | unsupportedFeature
  | rangeWithoutBounds
  | invalidKeyframeSelector (component : Component)
  deriving Inhabited

namespace Fault

/-- The reason in words. -/
def reason : Fault → String
  | unexpectedToken _ | unmatchedComparison => "unexpected token"
  | endOfInput => "unexpected end of input"
  | invalidAtRule => "invalid at-rule prelude"
  | invalidAtRuleBody => "invalid at-rule body"
  | invalidQualifiedRule => "invalid qualified rule"
  | withoutSymbols _ => "counter style without symbols"
  | tooFewSymbols _ => "not enough symbols"
  | withoutAdditiveSymbols _ => "additive system without additive symbols"
  | extendsWithSymbols _ => "extends with symbols"
  | extendsWithAdditiveSymbols _ => "extends with additive symbols"
  | unsupportedDescriptor => "unsupported counter style descriptor"
  | invalidCounterStyleName _ => "invalid counter style name"
  | weightsNotDescending => "additive symbol weights must be strictly descending"
  | rangeReversed => "range lower bound is greater than its upper bound"
  | negativeValue => "value must not be negative"
  | importantInKeyframe => "!important is not allowed in keyframe declarations"
  | emptyValue => "declaration value is empty"
  | unsupportedAtRule => "unsupported at-rule"
  | lateNamespace => "@namespace must precede all other rules"
  | lateCharset => "@charset is only allowed at the start of a stylesheet"
  | unknownPrefix _ => "unknown namespace prefix"
  | unsupportedFeature => "unsupported media feature"
  | rangeWithoutBounds => "media feature range has neither bound"
  | invalidKeyframeSelector _ => "invalid keyframe selector"

/-- The component that the fault is about; a token that is named alone is a component on its
own. -/
def component? : Fault → Option Component
  | unexpectedToken token | unknownPrefix token => some (.leaf token)
  | invalidCounterStyleName token => token.map .leaf
  | invalidKeyframeSelector component => some component
  | _ => none

/-- The effective system of the counter style that the fault is about. -/
def system? : Fault → Option CounterSystem
  | withoutSymbols system | tooFewSymbols system | withoutAdditiveSymbols system
  | extendsWithSymbols system | extendsWithAdditiveSymbols system => some system
  | _ => none

end Fault

/-- The first fault in a text and its place. -/
structure ParseError where
  fault : Fault
  location : Position
  deriving Inhabited

namespace ParseError

/-- The text by which a message names a component: the canonical text of a token, the outline of a
group. -/
def nameOf : Component → String
  | .leaf token => token.kind.css
  | group => group.outline

/-- The wording of a parse error. -/
def message (e : ParseError) : String :=
  "Parse error at " ++ toString e.location.line ++ ":" ++ toString e.location.column ++ ", " ++
    e.fault.reason ++
    (e.fault.component?.map fun c => " " ++ Text.quoted (nameOf c)).getD "" ++
    (e.fault.system?.map fun s => " (system: " ++ s.css ++ ")").getD ""

end ParseError

end Css
