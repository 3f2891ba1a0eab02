import Css.Rule.Grammar

/-!
# Rule lists

The rules of a stylesheet follow a prologue, in which statements about the character set and about
namespaces may stand. The first rule ends the prologue. Reading stops at the first fault; the rules
in front of it are known.
-/

namespace Css

open Css.Parser

/-- The two parts of a stylesheet. -/
inductive Phase where
  | prologue
  | body
  deriving DecidableEq, Repr

/-- How far a stylesheet has been read: the part, and the bindings made so far. -/
structure Progress where
  phase : Phase
  namespaces : Namespaces
  deriving DecidableEq, Repr

/-- What stands at the top level of a stylesheet: a rule, a binding of a namespace, or something
that leaves nothing behind. -/
inductive Item where
  | rule (rule : Rule)
  | binding (key : Option String) (address : String)
  | nothing

namespace Item

/-- The rule that an item is. -/
def rule? : Item → Option Rule
  | rule r => some r
  | _ => none

/-- The progress after an item has been read. -/
def apply (progress : Progress) : Item → Progress
  | binding key address =>
    { progress with namespaces := progress.namespaces.insert key address }
  | _ => progress

/-- A statement about the character set, which leaves nothing behind. -/
def charsetParser : Parser Item := do
  let _ ← Parser.string
  return .nothing

/-- A binding of a namespace. -/
def bindingParser : Parser Item := do
  let key ← attempt ident
  return .binding key (← urlOrString)

/-- The statement of the prologue that a component starts. -/
def statement? (component : Component) : Option (Parser Item) :=
  match AtRule.ofComponent? component with
  | some .charset => some charsetParser
  | some .binding => some bindingParser
  | _ => none

/-- A statement of the prologue, whose contents the given parser reads. -/
def statementParser (contents : Parser Item) : Parser Item := do
  let location := (← next).start
  let item ← untilBefore [';', '{'] contents
  match ← Rule.statementEnd with
  | none => return item
  | some _ => fault .invalidAtRuleBody location

/-- Reads the item that starts at the cursor. Whatever is no statement of the prologue ends the
prologue, even if it is refused. -/
def step (context : Context) (progress : Progress) (c : Cursor) :
    Progress × EStateM.Result ParseError Cursor Item :=
  let first := (c.skip Component.isFiller).rest.head?
  match (if progress.phase = .prologue then first.bind statement? else none) with
  | some contents =>
    match statementParser contents c with
    | .ok item after => (item.apply progress, .ok item after)
    | .error e after => (progress, .error e after)
  | none =>
    let progress := { progress with phase := .body }
    (progress, (Item.rule <$> Rule.parser context progress.namespaces) c)

/-- The component is a mark that hides a stylesheet inside a document from old programs. -/
def isHtmlMark : Component → Bool
  | .leaf ⟨.htmlOpen, _, _⟩ | .leaf ⟨.htmlClose, _, _⟩ => true
  | _ => false

/-- Reads the item of a stylesheet that starts at the cursor, where marks that hide the stylesheet
may stand. -/
def topLevelStep (context : Context) (progress : Progress) (c : Cursor) :
    Progress × EStateM.Result ParseError Cursor Item :=
  match (c.skip Component.isFiller).rest with
  | first :: rest =>
    if isHtmlMark first then (progress, .ok .nothing { c with rest }) else step context progress c
  | [] => step context progress c

end Item

/-- What was read of a rule list, up to its end or to the first fault. -/
abbrev RuleList := Outcome Progress Item

namespace RuleList

/-- The rules that were read. -/
def rules (list : RuleList) : List Rule := list.items.filterMap Item.rule?

/-- Reads the items of a stylesheet. -/
def topLevel (context : Context) (progress : Progress) (c : Cursor) : RuleList :=
  collect (fun c => !c.isExhausted) (Item.topLevelStep context) progress c

/-- Reads the rules in a block. -/
def nested (context : Context) (namespaces : Namespaces) (c : Cursor) : RuleList :=
  let step := fun progress c => (progress, (Item.rule <$> Rule.parser context namespaces) c)
  collect (fun c => !c.isExhausted) step ⟨.body, namespaces⟩ c

end RuleList

end Css
