import Css.Keyframes.Grammar
import Css.Media.Grammar
import Css.Rule.Basic
import Css.Rule.Selector
import Css.Supports.Grammar

/-!
# Grammar of rules

A rule starts with an at-keyword that names its kind, or with selectors. Its prelude ends at its
block. Statements about the character set and about namespaces are no rules and may not stand among
them.
-/

namespace Css

open Css.Parser

/-- The kinds of at-rules. -/
inductive AtRule where
  | charset
  | binding
  | counterStyle
  | media
  | supports
  | keyframes (vendorPrefix : Option VendorPrefix)
  deriving DecidableEq, Repr

/-- The kind of at-rule that a lower-case name stands for. -/
def AtRule.ofName? : String → Option AtRule
  | "charset" => some charset
  | "namespace" => some binding
  | "counter-style" => some counterStyle
  | "media" => some media
  | "supports" => some supports
  | "keyframes" => some (keyframes none)
  | "-webkit-keyframes" => some (keyframes (some .webkit))
  | "-moz-keyframes" => some (keyframes (some .moz))
  | "-o-keyframes" => some (keyframes (some .o))
  | _ => none

/-- The kind of at-rule that a component starts. -/
def AtRule.ofComponent? : Component → Option AtRule
  | .leaf ⟨.atKeyword name, _, _⟩ => ofName? (Text.lowerCase name)
  | _ => none

/-- What stands between the name of an at-rule and its block. -/
inductive Prelude where
  | counterStyle (name : CounterStyleName)
  | media (queries : MediaList)
  | supports (condition : Condition)
  | keyframes (vendorPrefix : Option VendorPrefix) (name : KeyframesName)

namespace Prelude

/-- The prelude of an at-rule of this kind, which starts at the given place. -/
def parser (context : Context) (location : Position) : Option AtRule → Parser Prelude
  | none => fault .unsupportedAtRule location
  | some .charset => fault .lateCharset location
  | some .binding => fault .lateNamespace location
  | some .counterStyle => Prelude.counterStyle <$> entirely CounterStyleName.definition
  | some .media => Prelude.media <$> MediaList.parser (context.inRule .media)
  | some .supports => Prelude.supports <$> Condition.parser (context.inRule .supports)
  | some (.keyframes vendorPrefix) => Prelude.keyframes vendorPrefix <$> KeyframesName.parser

/-- The block of an at-rule with this prelude. The given parser reads the rules in it. -/
def bodyParser (context : Context) (rules : Parser (List Rule)) : Prelude → Parser Rule
  | counterStyle name => Rule.counterStyle <$> CounterStyle.bodyParser context name
  | media queries => Rule.media queries <$> rules
  | supports condition => Rule.supports condition <$> rules
  | keyframes vendorPrefix name =>
    Rule.keyframes <$> Keyframes.bodyParser (context.inRule .keyframes) vendorPrefix name

end Prelude

namespace Rule

/-- The component that ends a statement: its block, or nothing if a semicolon or the end of the
text is there. -/
def statementEnd : Parser (Option Component) := do
  if ← isExhausted then return none
  let component ← next
  match component with
  | .leaf ⟨.semicolon, _, _⟩ => return none
  | _ => return some component

/-- A rule whose at-keyword, of the given kind, stands at the given place. -/
def atRuleParser (context : Context) (rules : Parser (List Rule)) (location : Position)
    (kind : Option AtRule) : Parser Rule := do
  let prelude ← untilBefore [';', '{'] (Prelude.parser context location kind)
  match ← statementEnd with
  | none => fault .invalidAtRule location
  | some body => inside body (prelude.bodyParser context rules)

/-- A rule that starts with selectors. -/
def styleParser (context : Context) (namespaces : Namespaces) : Parser Rule := do
  let selectors ← untilBefore ['{'] (Selector.parser namespaces)
  if ← isExhausted then fault .invalidQualifiedRule (← location)
  let body ← block .curly
  return .style selectors (← inside body (Declarations.parser (context.inRule .style)))

/-- A rule, in which the given parser reads the rules that are grouped. -/
def ruleWith (context : Context) (namespaces : Namespaces) (rules : Parser (List Rule)) :
    Parser Rule := do
  let before ← get
  let component ← next
  match component with
  | .leaf ⟨.atKeyword _, _, start⟩ =>
    atRuleParser context rules start (AtRule.ofComponent? component)
  | _ =>
    set (before.skip Component.isFiller)
    styleParser context namespaces

/-- The rules in the block of a grouping rule. -/
def nestedRules (context : Context) (namespaces : Namespaces) : Parser (List Rule) :=
  recursive fun rules => many (ruleWith context namespaces rules)

/-- A rule that may stand in a block. -/
def parser (context : Context) (namespaces : Namespaces) : Parser Rule :=
  ruleWith context namespaces (nestedRules context namespaces)

end Rule

end Css
