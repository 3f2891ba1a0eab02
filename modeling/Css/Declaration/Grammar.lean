import Css.Declaration.Basic
import Css.Parser.Expect

/-!
# Grammar of declarations

A declaration is a name, a colon, a value up to an exclamation mark, and an optional mark of
importance. In a list, each declaration but the last ends at a semicolon.
-/

namespace Css

open Css.Parser

variable {α : Type}

/-- The declarations in a list, separated by semicolons. The given parser reads what follows the
name and colon of each. -/
def declarationList (afterColon : String → Parser α) : Parser (List α) := do
  let items ← many do
    let component ← next
    match component with
    | .leaf ⟨.semicolon, _, _⟩ => return none
    | .leaf ⟨.ident name, _, _⟩ =>
      let item ← untilAfter [';'] do
        colon
        afterColon name
      return some item
    | _ => unexpected component
  return items.filterMap id

/-- A value as it is written. It may only be empty if that is allowed. -/
def specifiedValue (allowEmpty : Bool) : Parser String := do
  if (← isExhausted) && !allowEmpty then fault .emptyValue (← location)
  captured noErrorToken

/-- A value, which is a keyword for every property if nothing else stands with it. -/
def PropertyValue.parser (allowEmpty : Bool) : Parser PropertyValue := do
  match ← attempt (entirely (member WideKeyword)) with
  | some keyword => return .wide keyword
  | none => return .specified (← specifiedValue allowEmpty)

/-- The mark of importance, if it is there. -/
def importance : Parser Bool :=
  succeeds do
    delim '!'
    identMatching "important"

namespace Declaration

/-- The vendor prefix and the name of the property that an author calls by a name. The names of
custom properties are kept as they are. -/
def nameParts (name : String) : Option VendorPrefix × String :=
  if isCustomName name then (none, name) else VendorPrefix.split (Text.lowerCase name)

/-- A declaration after its name and colon. -/
def afterColon (context : Context) (name : String) : Parser Declaration := do
  let (vendorPrefix, name) := nameParts name
  let value ← untilBefore ['!'] (PropertyValue.parser (isCustomName name))
  let location ← location
  let important ← importance
  if important && !context.allowsImportance then fault .importantInKeyframe location
  atEnd
  return ⟨vendorPrefix, name, value, important⟩

/-- A single declaration. -/
def parser (context : Context) : Parser Declaration := do
  let name ← ident
  colon
  afterColon context name

end Declaration

/-- A list of declarations. -/
def Declarations.parser (context : Context) : Parser Declarations := do
  return ⟨← declarationList (Declaration.afterColon context)⟩

end Css
