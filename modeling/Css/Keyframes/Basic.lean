import Css.Declaration.Basic
import Css.Number.Numeric
import Css.Token.Basic

/-!
# Keyframes

An animation is a named list of keyframes, each of which holds declarations for some moments of the
animation. Moments are percentages; they are equal when their exact values are.
-/

namespace Css

open Number

/-- The name of an animation, written as a string or as an identifier. -/
inductive KeyframesName where
  | string (value : String)
  | ident (name : String)
  deriving DecidableEq, Repr

/-- The canonical text of the name of an animation. -/
def KeyframesName.css : KeyframesName → String
  | string value => stringText value
  | ident name => identifierText name

/-- The moments of a keyframe, as percentages. -/
structure KeyframeSelector where
  percentages : List Numeric
  deriving BEq, Repr

/-- The canonical text of moments. -/
def KeyframeSelector.css (s : KeyframeSelector) : Except WriteError String := do
  let texts ← s.percentages.mapM fun p => do return (← p.css) ++ "%"
  return ", ".intercalate texts

/-- The declarations for some moments of an animation. -/
structure Keyframe where
  selector : KeyframeSelector
  declarations : Declarations
  deriving BEq, Repr

/-- The canonical text of a keyframe. -/
def Keyframe.css (k : Keyframe) : Except WriteError String := do
  return (← k.selector.css) ++ Bracket.curly.around k.declarations.css

/-- An animation, whose rule may have the prefix of a vendor. -/
structure Keyframes where
  name : KeyframesName
  keyframes : List Keyframe
  vendorPrefix : Option VendorPrefix
  deriving BEq, Repr

/-- The canonical text of an animation. -/
def Keyframes.css (k : Keyframes) : Except WriteError String := do
  let vendor := (k.vendorPrefix.map VendorPrefix.css).getD ""
  return "@" ++ vendor ++ "keyframes " ++ k.name.css ++
    Bracket.curly.around (String.join (← k.keyframes.mapM Keyframe.css))

end Css
