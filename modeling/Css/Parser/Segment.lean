import Css.Parser.Basic

/-!
# Parsing parts of the input

A parser can be confined to the contents of a group, or to the components in front of a delimiter.
It has to read its part entirely, and the end of the part is where errors at the end are placed.
-/

namespace Css.Parser

variable {α : Type}

/-- Parses given components entirely, and leaves the cursor alone. -/
def within (contents : List Component) (stop : Position) (p : Parser α) : Parser α := fun c =>
  match entirely p ⟨contents, stop⟩ with
  | .ok a _ => .ok a c
  | .error e _ => .error e c

/-- Parses the contents of a group entirely. A token has no contents. -/
def inside (component : Component) (p : Parser α) : Parser α :=
  match component with
  | .leaf _ => unexpected component
  | .group opening contents closing =>
    within contents (Component.contentsStop opening contents closing) p

/-- Passes a token, unless no value may hold it, and the contents of a group if the given parser
reads them. -/
def cleanWith (contents : Parser Unit) (component : Component) : Parser Unit :=
  match component with
  | .leaf t => if t.kind.isError then unexpected component else return ()
  | .group _ _ _ => inside component contents

/-- Reads everything that is left, groups with their contents, and refuses the first token that no
value may hold. -/
def noErrorToken : Parser Unit := recursive fun contents => do
  let _ ← many do cleanWith contents (← next)
  return ()

/-- The component ends a segment at one of the delimiters. -/
def isDelimiter (delimiters : List Char) (component : Component) : Bool :=
  component.delimiter?.any delimiters.contains

/-- Parses the components in front of the first delimiter entirely, and moves to the delimiter. -/
def untilBefore (delimiters : List Char) (p : Parser α) : Parser α := fun c =>
  let after : Cursor := c.skip fun component => !isDelimiter delimiters component
  match within (c.read after) after.location p c with
  | .ok a _ => .ok a after
  | .error e _ => .error e c

/-- Moves over the next component, if there is one. -/
def step : Parser Unit := modify fun c => { c with rest := c.rest.drop 1 }

/-- Parses the components in front of the first delimiter entirely, and moves over the
delimiter. -/
def untilAfter (delimiters : List Char) (p : Parser α) : Parser α := do
  let a ← untilBefore delimiters p
  step
  return a

/-- Parses every segment between commas entirely. There is at least one. -/
def commaSeparated (p : Parser α) : Parser (List α) := do
  let first ← untilBefore [','] p
  let others ← repeatWhile (fun c => !c.rest.isEmpty) do
    step
    untilBefore [','] p
  return first :: others

end Css.Parser
