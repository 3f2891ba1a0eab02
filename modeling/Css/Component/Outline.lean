import Css.Component.Basic
import Css.Text.Basic

/-!
# Outlines

An outline shows how a text was understood: the class of each component with what it says, and the
contents of groups in square brackets.
-/

namespace Css

/-- The outline of a token that stands alone. -/
def Token.Kind.outline (kind : Token.Kind) : String :=
  match kind with
  | .delim _ | .colon | .semicolon | .comma => "Delim(" ++ Text.quoted kind.raw ++ ")"
  | .hash name true => "Hash(id, " ++ Text.quoted name ++ ")"
  | .percentage value => "Percentage(" ++ value.value.text ++ "%)"
  | _ => kind.label ++ "(" ++ Text.quoted kind.raw ++ ")"

namespace Component

/-- The name of the class that the component belongs to. -/
def label : Component → String
  | leaf t => t.kind.label
  | group ⟨.function _, _, _⟩ _ _ => "FunctionBlock"
  | group _ _ _ => "Block"

mutual

/-- The outline of a component. -/
def outline : Component → String
  | leaf t => t.kind.outline
  | group opening contents closing =>
    label (.group opening contents closing) ++ "(" ++ Text.quoted opening.kind.raw ++ ", [" ++
      ", ".intercalate (outlinesOf contents) ++ "])"

/-- The outlines of components. -/
def outlinesOf : List Component → List String
  | [] => []
  | c :: rest => c.outline :: outlinesOf rest

end

/-- The outline of a list of components. -/
def outlineOf (components : List Component) : String :=
  "TokenStream([" ++ ", ".intercalate (outlinesOf components) ++ "])"

end Component

end Css
