import Css.Proofs.Parser.Extends
import Css.Rule.Grammar

/-!
# Modes that accept more

A mode that has every permission of another one accepts whatever that one accepts, and reads it in
the same way. Permissions are asked for where a value is found too small or without a unit, which is
never inside something that the grammar merely tries: what is tried does not depend on the mode.
-/

namespace Css

open Css.Parser Number

/-- The second mode permits what the first one permits. -/
instance : LE Mode where
  le m other := (m.unitlessLengths = true → other.unitlessLengths = true) ∧
    (m.negativeNumbers = true → other.negativeNumbers = true)

instance (m other : Mode) : Decidable (m ≤ other) :=
  inferInstanceAs (Decidable ((m.unitlessLengths = true → other.unitlessLengths = true) ∧
    (m.negativeNumbers = true → other.negativeNumbers = true)))

namespace Context

/-- The second context is in the same rule, and its mode permits what that of the first permits. -/
structure Extends (context other : Context) : Prop where
  ruleKind : context.ruleKind = other.ruleKind
  mode : context.mode ≤ other.mode

variable {context other : Context}

/-- Contexts extend each other in another kind of rule as well. -/
theorem Extends.inRule (h : context.Extends other) (kind : RuleKind) :
    (context.inRule kind).Extends (other.inRule kind) :=
  ⟨rfl, h.mode⟩

/-- What the second context refuses for its sign, the first one refuses. -/
theorem Extends.refuses_negative (h : context.Extends other)
    (hrefused : (!other.mode.negativeNumbers) = true) : (!context.mode.negativeNumbers) = true := by
  rw [Bool.not_eq_true', Bool.eq_false_iff] at hrefused ⊢
  exact mt h.mode.2 hrefused

/-- Importance is allowed in the same rules. -/
theorem Extends.allowsImportance (h : context.Extends other) :
    context.allowsImportance = other.allowsImportance := by
  rw [Context.allowsImportance, h.ruleKind, Context.allowsImportance]

end Context

variable {context other : Context} (h : context.Extends other)

include h

/-- Declarations do not depend on the mode. -/
theorem Declaration.afterColon_congr : afterColon context = afterColon other := by
  funext name
  simp only [afterColon, h.allowsImportance]

/-- Lists of declarations do not depend on the mode. -/
theorem Declarations.parser_congr : parser context = parser other := by
  simp only [parser, Declaration.afterColon_congr h]

/-- Conditions do not depend on the mode. -/
theorem Condition.parser_congr : parser context = parser other := by
  have hdeclaration : Declaration.parser context = Declaration.parser other := by
    simp only [Declaration.parser, Declaration.afterColon_congr h]
  have hterm : term context = term other := by
    funext condition
    simp only [term, hdeclaration]
  have hbody : conditionWith context = conditionWith other := by
    funext condition
    simp only [conditionWith, hterm]
  rw [parser, parser, hbody]

/-- Keyframes do not depend on the mode. -/
theorem Keyframes.bodyParser_congr (vendorPrefix : Option VendorPrefix) (name : KeyframesName) :
    bodyParser context vendorPrefix name = bodyParser other vendorPrefix name := by
  simp only [bodyParser, Keyframe.parser, Declarations.parser_congr (h.inRule .keyframe)]

/-- An integer may be negative in more modes. -/
theorem extends_nonNegativeInteger :
    Extends (nonNegativeInteger context) (nonNegativeInteger other) := by
  refine extends_bind fun location => extends_bind fun value => ?_
  exact extends_check (And.imp_right h.refuses_negative) (.refl _)

/-- An integer and a symbol are read in more modes. -/
theorem extends_weightAndSymbol : Extends (weightAndSymbol context) (weightAndSymbol other) :=
  extends_bind fun _ => (extends_nonNegativeInteger h).bind fun _ => .refl _

/-- Weighted symbols are read in more modes. -/
theorem AdditiveSymbols.parser_extends : Extends (parser context) (parser other) := by
  have hsymbol : Extends (WeightedSymbol.parser context) (WeightedSymbol.parser other) :=
    (extends_weightAndSymbol h).bind fun _ => .refl _
  exact extends_bind fun _ => hsymbol.commaSeparated.bind fun _ => .refl _

/-- A descriptor is read in more modes. -/
theorem DescriptorName.parser_extends (name : DescriptorName) :
    Extends (name.parser context) (name.parser other) := by
  cases name with
  | pad => exact Extends.map ((extends_weightAndSymbol h).bind fun _ => .refl _)
  | additiveSymbols => exact (AdditiveSymbols.parser_extends h).map
  | system | negative | leading | suffix | range | fallback | symbols | speakAs => exact .refl _

omit h in
/-- Lists of declarations accept more if what follows a colon does. -/
theorem extends_declarationList {α : Type} {afterColon next : String → Parser α}
    (hnext : ∀ name, Extends (afterColon name) (next name)) :
    Extends (declarationList afterColon) (declarationList next) := by
  refine Extends.bind (Extends.many (extends_bind fun component => ?_)) fun _ => .refl _
  split
  · exact .refl _
  · exact (Extends.untilAfter (extends_bind fun _ => hnext _) _).bind fun _ => .refl _
  · exact .refl _

/-- The block of a counter style is read in more modes. -/
theorem CounterStyle.extends_bodyParser (name : CounterStyleName) :
    Extends (bodyParser context name) (bodyParser other name) := by
  refine extends_bind fun location => Extends.bind ?_ fun _ => .refl _
  refine extends_declarationList fun name => ?_
  unfold descriptor
  split
  · exact DescriptorName.parser_extends (h.inRule .counterStyle) _
  · exact .refl _

/-- A value that a ranged feature is compared with is read in more modes. -/
theorem RangedFeature.extends_valueParser (name : RangedFeature) :
    Extends (name.valueParser context) (name.valueParser other) := by
  have hlength : Extends (lengthParser context) (lengthParser other) := by
    refine extends_expect fun component value hvalue => ?_
    split at hvalue
    · exact hvalue
    · rename_i n _ _
      have hunitless := h.mode.1
      split at hvalue
      · rename_i hzero
        have hother : (n.value.isZero || other.mode.unitlessLengths) = true := by
          simp only [Bool.or_eq_true] at hzero ⊢
          exact hzero.imp_right hunitless
        rw [if_pos hother]
        exact hvalue
      · cases hvalue
    · exact hvalue
  have hside : Extends (ratioSide context) (ratioSide other) := by
    refine extends_bind fun location => extends_bind fun value => ?_
    exact extends_check (And.imp_right h.refuses_negative) (.refl _)
  have hratio : Extends (ratioParser context) (ratioParser other) := by
    refine hside.bind fun numerator => extends_bind fun found => ?_
    cases found
    · exact .refl _
    · exact hside.bind fun _ => .refl _
  have hcount : Extends (countParser context) (countParser other) :=
    (extends_nonNegativeInteger h).bind fun _ => .refl _
  cases name with
  | width | height => exact hlength
  | aspectRatio => exact hratio
  | resolution => exact .refl _
  | color | colorIndex | monochrome => exact hcount

/-- A ranged feature after its name is read in more modes. -/
theorem Feature.extends_rangedParser (name : RangedFeature) :
    Extends (rangedParser context name) (rangedParser other name) := by
  have hvalue := RangedFeature.extends_valueParser h name
  refine extends_bind fun exhausted => ?_
  split
  · exact .refl _
  · refine extends_bind fun found => ?_
    split
    · exact extends_bind fun comparison => hvalue.bind fun _ => .refl _
    · exact extends_bind fun comparison => hvalue.bind fun _ => .refl _

/-- A ranged feature after a name that makes it a bound is read in more modes. -/
theorem Feature.extends_boundParser (name : RangedFeature) (bound : Comparison) :
    Extends (boundParser context name bound) (boundParser other name bound) := by
  have hvalue := RangedFeature.extends_valueParser h name
  refine extends_bind fun exhausted => ?_
  split
  · exact extends_bind fun _ => extends_bind fun _ => extends_bind fun _ =>
      hvalue.bind fun _ => .refl _
  · exact extends_bind fun _ => hvalue.bind fun _ => .refl _

/-- A feature whose name stands in front is read in more modes. -/
theorem Feature.extends_namedParser (location : Position) (name : String) :
    Extends (namedParser context location name) (namedParser other location name) := by
  unfold namedParser
  cases splitBound name with | mk bound base
  dsimp only
  split
  · exact extends_boundParser h _ _
  · exact extends_rangedParser h _
  · exact .refl _
  · exact .refl _

/-- A feature whose name stands behind a value is read in more modes. -/
theorem Feature.extends_valueFirstParser (location : Position) :
    Extends (valueFirstParser context location) (valueFirstParser other location) := by
  refine extends_bind fun c => ?_
  split
  · exact .refl _
  · split
    · exact .refl _
    · rename_i name _
      have hvalue := RangedFeature.extends_valueParser h name
      refine hvalue.bind fun value => extends_bind fun comparison => extends_bind fun _ =>
        extends_bind fun exhausted => ?_
      split
      · exact .refl _
      · refine extends_bind fun _ => extends_bind fun second => ?_
        split
        · exact extends_bind fun _ => hvalue.bind fun _ => .refl _
        · exact hvalue.bind fun _ => .refl _

/-- A feature is read in more modes. -/
theorem Feature.parser_extends : Extends (parser context) (parser other) := by
  refine extends_bind fun before => extends_bind fun component => ?_
  split
  · exact extends_namedParser h _ _
  · exact extends_bind fun _ => extends_valueFirstParser h _

/-- A media list is read in more modes. -/
theorem MediaList.parser_extends : Extends (parser context) (parser other) := by
  have hexpression : Extends (Expression.parser context) (Expression.parser other) :=
    extends_bind fun component =>
      ((Feature.parser_extends h).inside component).bind fun _ => .refl _
  -- Both the qualifier and the media type are tried, and neither depends on the mode.
  have hquery : Extends (MediaQuery.parser context) (MediaQuery.parser other) := by
    refine extends_bind fun qualifier => extends_bind fun mediaType => ?_
    have hothers : Extends (many do identMatching "and"; Expression.parser context)
        (many do identMatching "and"; Expression.parser other) :=
      (extends_bind fun _ => hexpression).many
    split
    · exact extends_bind fun _ => hothers.bind fun _ => .refl _
    · split
      · exact extends_bind fun _ => extends_bind fun _ => hothers.bind fun _ => .refl _
      · exact hexpression.bind fun _ => extends_bind fun _ => hothers.bind fun _ => .refl _
  refine extends_bind fun exhausted => ?_
  split
  · exact .refl _
  · exact hquery.commaSeparated.bind fun _ => .refl _

/-- The prelude of an at-rule is read in more modes. -/
theorem Prelude.parser_extends (location : Position) (kind : Option AtRule) :
    Extends (parser context location kind) (parser other location kind) := by
  match kind with
  | some .media => exact (MediaList.parser_extends (h.inRule .media)).map
  | some .supports =>
      rw [parser, parser, Condition.parser_congr (h.inRule .supports)]
      exact .refl _
  | none | some .charset | some .binding | some .counterStyle | some (.keyframes _) =>
      exact .refl _

/-- The block of an at-rule is read in more modes if the rules in it are. -/
theorem Prelude.extends_bodyParser {p q : Parser (List Rule)} (hrules : Extends p q)
    (prelude : Prelude) :
    Extends (prelude.bodyParser context p) (prelude.bodyParser other q) := by
  cases prelude with
  | counterStyle name => exact (CounterStyle.extends_bodyParser h name).map
  | media queries => exact hrules.map
  | supports condition => exact hrules.map
  | keyframes vendorPrefix name =>
      rw [bodyParser, bodyParser, Keyframes.bodyParser_congr (h.inRule .keyframes)]
      exact .refl _

namespace Rule

/-- A rule is read in more modes if the rules that it groups are. -/
theorem extends_ruleWith (namespaces : Namespaces) {p q : Parser (List Rule)}
    (hrules : Extends p q) :
    Extends (ruleWith context namespaces p) (ruleWith other namespaces q) := by
  have hstyle : styleParser context namespaces = styleParser other namespaces := by
    rw [styleParser, styleParser, Declarations.parser_congr (h.inRule .style)]
  refine extends_bind fun before => extends_bind fun component => ?_
  split
  · refine ((Prelude.parser_extends h _ _).untilBefore _).bind fun prelude =>
      extends_bind fun body => ?_
    split
    · exact .refl _
    · exact (Prelude.extends_bodyParser h hrules prelude).inside _
  · rw [hstyle]
    exact .refl _

/-- A rule is read in more modes. -/
theorem parser_extends (namespaces : Namespaces) :
    Extends (parser context namespaces) (parser other namespaces) :=
  extends_ruleWith h namespaces
    (extends_recursive fun hrules => (extends_ruleWith h namespaces hrules).many)

end Rule

end Css
