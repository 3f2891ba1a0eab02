import Css.Parser.Run
import Css.Rule.RuleList

/-!
# Stylesheets

A stylesheet holds its rules, the namespaces that it binds, and what its comments say about its
origin. It is written in a canonical form, with or without the namespaces in front of the rules.
-/

namespace Css

open Number Css.Parser

/-- A stylesheet, with the mode in which it was read. -/
structure Stylesheet where
  rules : List Rule
  sourceMapUrl : Option String
  sourceUrl : Option String
  namespaces : Namespaces
  mode : Mode

/-- The rule that a text is. -/
def Rule.ofText (context : Context) (namespaces : Namespaces) (text : String) :
    Except ReadError Rule :=
  (only (Rule.parser context namespaces)).run text

/-- The declaration that a text is. -/
def Declaration.ofText (context : Context) (text : String) : Except ReadError Declaration :=
  (Declaration.parser context).run text

/-- The declarations that a text lists. -/
def Declarations.ofText (context : Context) (text : String) : Except ReadError Declarations :=
  (Declarations.parser context).run text

/-- The item of a stylesheet that a text is, and the progress after it, which there is also if the
text is refused. -/
def Item.ofText (context : Context) (progress : Progress) (text : String) :
    Progress × Except ReadError Item :=
  match Cursor.ofText text with
  | .error e => (progress, .error e)
  | .ok c =>
    if c.isExhausted then (progress, .error (.parse ⟨.endOfInput, c.location⟩))
    else
      match Item.step context progress c with
      | (progress, .error e _) => (progress, .error (.parse e))
      | (progress, .ok item after) =>
        match atEnd after with
        | .error e _ => (progress, .error (.parse e))
        | .ok _ _ => (progress, .ok item)

namespace Stylesheet

/-- A stylesheet without rules. -/
def empty : Stylesheet := ⟨[], none, none, .empty, .strict⟩

/-- The stylesheet that a text is. -/
def ofText (mode : Mode) (text : String) : Except ReadError Stylesheet :=
  match Source.ofString text with
  | .error e => .error (.limit e)
  | .ok source =>
    let list : RuleList := .topLevel (.ofMode mode) ⟨.prologue, .empty⟩ (.ofSource source)
    match list.error? with
    | some e => .error (.parse e)
    | none =>
      .ok ⟨list.rules, source.sourceMapUrl?, source.sourceUrl?, list.state.namespaces, mode⟩

/-- The lines that tell the origin of a stylesheet. -/
def originText (s : Stylesheet) : String :=
  let line (name : String) (address : Option String) : String :=
    (address.map fun address => "//# " ++ name ++ "=" ++ address ++ "\n").getD ""
  line "sourceMappingURL" s.sourceMapUrl ++ line "sourceURL" s.sourceUrl

/-- The canonical text of the rules. -/
def css (s : Stylesheet) : Except WriteError String := Rule.cssOf s.rules

/-- The canonical text of the namespaces and the rules. -/
def cssWithNamespaces (s : Stylesheet) : Except WriteError String := do
  return s.namespaces.css ++ (← s.css)

/-- The canonical text of everything that a stylesheet holds. -/
def fullCss (s : Stylesheet) : Except WriteError String := do
  return s.originText ++ (← s.cssWithNamespaces)

end Stylesheet

end Css
