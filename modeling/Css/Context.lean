/-!
# Parsing contexts

What a value means can depend on the rule it stands in, and on the parsing mode.
-/

namespace Css

/-- The kinds of rules that values stand in. -/
inductive RuleKind where
  | style
  | media
  | supports
  | counterStyle
  | keyframes
  | keyframe
  deriving DecidableEq, Repr

/-- What the grammar accepts beyond the usual. -/
structure Mode where
  /-- A length may be a number other than zero without a unit. -/
  unitlessLengths : Bool
  /-- Numbers may be negative where only others make sense. -/
  negativeNumbers : Bool
  deriving DecidableEq, Repr

/-- The usual mode, which accepts nothing extra. -/
def Mode.strict : Mode := ⟨false, false⟩

/-- The rule that a value stands in, if any, and the parsing mode. -/
structure Context where
  ruleKind : Option RuleKind
  mode : Mode
  deriving DecidableEq, Repr

namespace Context

/-- The context outside of all rules in a given mode. -/
def ofMode (mode : Mode) : Context := ⟨none, mode⟩

/-- The same mode inside another kind of rule. -/
def inRule (c : Context) (kind : RuleKind) : Context := { c with ruleKind := some kind }

/-- Declarations may be important everywhere but in a keyframe. -/
def allowsImportance (c : Context) : Bool := c.ruleKind ≠ some .keyframe

end Context

end Css
