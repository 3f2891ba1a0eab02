import Css.Context
import Css.Parser.Segment
import Css.Text.LowerCase

/-!
# Parsers of single components

Each reads the next component that is neither white space nor a comment, and refuses it if it is
not of the class that the grammar calls for.
-/

namespace Css.Parser

variable {α : Type}

/-- The next component, if the given function finds a value in it. -/
def expect (value? : Component → Option α) : Parser α := do
  let component ← next
  match value? component with
  | some value => return value
  | none => unexpected component

/-- The name of a component that is an identifier. -/
def identName? : Component → Option String
  | .leaf ⟨.ident name, _, _⟩ => some name
  | _ => none

/-- The name of a component that is an identifier, in lower case. -/
def keyword? (component : Component) : Option String :=
  (identName? component).map Text.lowerCase

/-- The value of a component that is a string. -/
def stringValue? : Component → Option String
  | .leaf ⟨.string value _, _, _⟩ => some value
  | _ => none

/-- The value of a component that is a number without a unit. -/
def number? : Component → Option Number.Numeric
  | .leaf ⟨.number value, _, _⟩ => some value.value
  | _ => none

/-- The value of a component that is an integer without a unit. -/
def integer? (component : Component) : Option Int :=
  match number? component with
  | some (.integer n) => some n
  | _ => none

/-- The component is the address function. -/
def isUrlFunction : Component → Bool
  | .group ⟨.function name, _, _⟩ _ _ => Text.lowerCase name == "url"
  | _ => false

/-- The component is a group in brackets of this shape. -/
def isBlock (bracket : Bracket) : Component → Bool
  | .group ⟨.opening b, _, _⟩ _ _ => b = bracket
  | _ => false

/-- The name of an identifier. -/
def ident : Parser String := expect identName?

/-- An identifier that is the given word in lower case. -/
def identMatching (word : String) : Parser Unit :=
  expect fun component => if keyword? component = some word then some () else none

/-- The value of a string. -/
def string : Parser String := expect stringValue?

/-- An address, or a string in place of one. -/
def urlOrString : Parser String := do
  let component ← next
  match component with
  | .leaf ⟨.url address _, _, _⟩ => return address
  | .leaf ⟨.string value _, _, _⟩ => return value
  | _ => if isUrlFunction component then inside component string else unexpected component

/-- The value of a number without a unit. -/
def number : Parser Number.Numeric := expect number?

/-- The value of an integer without a unit. -/
def integer : Parser Int := expect integer?

/-- A colon. -/
def colon : Parser Unit := expect fun
  | .leaf ⟨.colon, _, _⟩ => some ()
  | _ => none

/-- The given single character token. -/
def delim (c : Char) : Parser Unit := expect fun
  | .leaf ⟨.delim d, _, _⟩ => if d = c then some () else none
  | _ => none

/-- A block in brackets of the given shape. -/
def block (bracket : Bracket) : Parser Component :=
  expect fun component => if isBlock bracket component then some component else none

/-- A word of a vocabulary, in any case. -/
def member (α : Type) [Vocabulary α] : Parser α :=
  expect fun component => (keyword? component).bind (Vocabulary.find? α)

/-- A name that an author chose: any identifier but the keywords that every property accepts,
`default`, and the given ones. -/
def customIdent (excluded : List String) : Parser String :=
  expect fun component => do
    let name ← identName? component
    let lowered := Text.lowerCase name
    if lowered = "default" ∨ lowered ∈ excluded ∨ (Vocabulary.find? WideKeyword lowered).isSome then
      none
    else some name

/-- An integer without a unit, which may only be negative if the mode allows it. -/
def nonNegativeInteger (context : Context) : Parser Int := do
  let location ← location
  let value ← integer
  if value < 0 ∧ !context.mode.negativeNumbers then fault .negativeValue location
  return value

end Css.Parser
