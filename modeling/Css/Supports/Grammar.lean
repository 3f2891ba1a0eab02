import Css.Declaration.Grammar
import Css.Supports.Condition

/-!
# Grammar of supports conditions

A condition is `not` in front of a bracketed term, or bracketed terms joined by `and` or by `or`.
The two words cannot be mixed without brackets. A bracketed term holds a condition or a declaration;
other brackets and functions are kept as they are written.
-/

namespace Css

open Css.Parser

namespace Condition

/-- The component is a function with its arguments. -/
def isFunction : Component → Bool
  | .group ⟨.function _, _, _⟩ _ _ => true
  | _ => false

/-- A group that is kept as it is written, if it holds no token that no value may hold. -/
def enclosed (component : Component) : Parser Condition := do
  inside component noErrorToken
  return .future (String.ofList component.text)

/-- A bracketed term whose contents the given parser may read as a condition. -/
def term (context : Context) (condition : Parser Condition) : Parser Condition := do
  let component ← next
  if isBlock .round component then
    match ← attempt (inside component condition) with
    | some c => return .parenthesized c
    | none =>
      match ← attempt (inside component (Declaration.parser context)) with
      | some d => return .declaration d
      | none => enclosed component
  else if isFunction component then enclosed component
  else unexpected component

/-- The words that join terms. -/
inductive Connective where
  | and
  | or
  deriving DecidableEq, Repr

instance : Vocabulary Connective where
  members := [.and, .or]
  word
    | .and => "and"
    | .or => "or"

/-- Terms joined by a word. -/
def join : Connective → List Condition → Condition
  | .and, conditions => .conjunction conditions
  | .or, conditions => .disjunction conditions

/-- The given connective. -/
def sameConnective (connective : Connective) : Parser Unit :=
  expect fun component =>
    if (keyword? component).bind (Vocabulary.find? Connective) = some connective then some ()
    else none

/-- A condition in which the given parser reads the contents of brackets. -/
def conditionWith (context : Context) (condition : Parser Condition) : Parser Condition := do
  if ← succeeds (identMatching "not") then return .negation (← term context condition)
  let first ← term context condition
  if ← isExhausted then return first
  let connective ← member Connective
  let second ← term context condition
  let others ← many do
    sameConnective connective
    term context condition
  return join connective (first :: second :: others)

/-- A condition. -/
def parser (context : Context) : Parser Condition := recursive (conditionWith context)

end Condition

end Css
