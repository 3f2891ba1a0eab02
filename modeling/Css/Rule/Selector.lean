import Css.Parser.Expect
import Css.Rule.Namespace

/-!
# Selectors

Selectors are kept as they are written. Only their namespace prefixes are looked at: an identifier
in front of a single bar has to be bound. Two bars are a combinator.
-/

namespace Css

open Css.Parser

namespace Selector

/-- The component is a vertical bar. -/
def isBar : Component → Bool
  | .leaf ⟨.delim '|', _, _⟩ => true
  | _ => false

/-- What follows an identifier makes it a namespace prefix. -/
def followsPrefix : List Component → Bool
  | bar :: after => isBar bar && !after.head?.any isBar
  | [] => false

mutual

/-- The first prefix inside a component that is not bound. -/
def unboundPrefix? (namespaces : Namespaces) : Component → Option Token
  | .leaf _ => none
  | .group _ contents _ => unboundPrefixOf? namespaces contents

/-- The first prefix in components, at any depth, that is not bound. -/
def unboundPrefixOf? (namespaces : Namespaces) : List Component → Option Token
  | [] => none
  | component :: rest =>
    let here :=
      match component with
      | .leaf ⟨.ident name, text, start⟩ =>
        if followsPrefix rest && !namespaces.binds (some name) then
          some (⟨.ident name, text, start⟩ : Token)
        else none
      | _ => none
    (unboundPrefix? namespaces component).or (here.or (unboundPrefixOf? namespaces rest))

end

/-- Selectors, up to the end. -/
def parser (namespaces : Namespaces) : Parser String := do
  if ← isExhausted then fault .invalidQualifiedRule (← location)
  let before ← get
  noErrorToken
  let after ← get
  match unboundPrefixOf? namespaces (before.read after) with
  | some token => fault (.unknownPrefix token) token.start
  | none => return before.readText after

end Selector

end Css
