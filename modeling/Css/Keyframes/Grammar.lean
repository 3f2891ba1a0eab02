import Css.Declaration.Grammar
import Css.Keyframes.Basic

/-!
# Grammar of keyframes

The moments of a keyframe are percentages from 0 to 100; `from` and `to` stand for the ends. The
declarations of a keyframe are never important.
-/

namespace Css

open Css.Parser Number

/-- The name of an animation. -/
def KeyframesName.parser : Parser KeyframesName := do
  match ← attempt Parser.string with
  | some value => return .string value
  | none => return .ident (← customIdent ["none"])

namespace KeyframeSelector

/-- The moment that a component stands for. -/
def moment? (component : Component) : Option Numeric :=
  match component with
  | .leaf ⟨.percentage p, _, _⟩ =>
    if (Numeric.integer 0).le p.value && p.value.le (.integer 100) then some p.value else none
  | _ =>
    match keyword? component with
    | some "from" => some (.integer 0)
    | some "to" => some (.integer 100)
    | _ => none

/-- A moment of an animation. -/
def momentParser : Parser Numeric := do
  let component ← next
  match moment? component with
  | some moment => return moment
  | none => fault (.invalidKeyframeSelector component) component.start

/-- The moments of a keyframe. -/
def parser : Parser KeyframeSelector := do
  return ⟨← commaSeparated momentParser⟩

end KeyframeSelector

/-- A keyframe. -/
def Keyframe.parser (context : Context) : Parser Keyframe := do
  let selector ← untilBefore ['{'] KeyframeSelector.parser
  let body ← block .curly
  return ⟨selector, ← inside body (Declarations.parser (context.inRule .keyframe))⟩

/-- The animation of a given name whose keyframes are written in a block. -/
def Keyframes.bodyParser (context : Context) (vendorPrefix : Option VendorPrefix)
    (name : KeyframesName) : Parser Keyframes := do
  return ⟨name, ← many (Keyframe.parser context), vendorPrefix⟩

end Css
