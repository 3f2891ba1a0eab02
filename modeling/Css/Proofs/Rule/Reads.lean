import Css.Proofs.Parser.Written
import Css.Proofs.Rule.Dispatch

/-!
# Written rules

An at-rule whose prelude and block are read is read as a whole: its at-keyword says which kind of
rule it is, its prelude ends at its block, and nothing else is looked at. A rule with selectors is
read if its selectors and its block are.
-/

namespace Css

open Css.Parser
open Component (written)

/-- Curly brackets around components. -/
def Component.curly (contents : List Component) : Component :=
  .group (.written (.opening .curly)) contents (some (.written (.closing .curly)))

/-- What is read as a row whose first component is no filler starts with that component, behind
fillers. -/
theorem Component.exists_dropWhile_isFiller {components rest : List Component} {first : Component}
    (hfirst : first.isFiller = false) (h : bareOf components = bareOf (first :: rest)) :
    ∃ start behind, components.dropWhile isFiller = start :: behind ∧ start.bare = first.bare ∧
      bareOf (start :: behind) = bareOf (first :: rest) := by
  have hskipped := bareOf_dropWhile_isFiller components
  rw [h, ← bareOf_dropWhile_isFiller, List.dropWhile_cons_of_neg (by simp [hfirst])] at hskipped
  cases hrest : components.dropWhile isFiller with
  | nil => rw [hrest] at hskipped; cases hskipped
  | cons start behind =>
      rw [hrest] at hskipped
      exact ⟨start, behind, rfl, (List.cons.inj hskipped).1, hskipped⟩

namespace Rule

/-- A block ends a statement and is kept. -/
theorem reads_statementEnd (contents rest : List Component) :
    Reads statementEnd (Component.curly contents :: rest) fun found after =>
      (∃ body, found = some body ∧ body.bare = (Component.curly contents).bare) ∧ after = rest := by
  refine (reads_isExhausted _).andThen ?_
  refine (reads_next rfl).bind fun component after hfound => ?_
  obtain ⟨hlook, rfl⟩ := hfound
  cases component with
  | leaf t => cases hlook
  | group opening contents' closing =>
      intro c hc
      exact ⟨_, c, rfl, after, hc, ⟨_, rfl, hlook⟩, rfl⟩

/-- A semicolon ends a statement without a block. -/
theorem reads_statementEnd_semicolon (rest : List Component) :
    Reads statementEnd (written .semicolon :: rest) (Exactly none rest) := by
  refine (reads_isExhausted _).andThen ?_
  refine (reads_next rfl).bind fun component after hfound => ?_
  obtain ⟨hlook, rfl⟩ := hfound
  obtain ⟨text, start, rfl⟩ := exists_leaf_of_bare hlook
  exact reads_pure none after

variable {context : Context} {namespaces : Namespaces} {contents rest : List Component}

/-- An at-rule is read if its prelude and its block are. -/
theorem parser_reads {name : String} {kind : AtRule} {front : List Component} {found : Prelude}
    {rule : Rule} (hkind : AtRule.ofName? (Text.lowerCase name) = some kind)
    (hprelude : ∀ location,
      Reads (entirely (Prelude.parser context location (some kind))) front (Exactly found []))
    (hfront : ∀ component ∈ front, isDelimiter [';', '{'] component = false)
    (hbody : ReadsAll (found.bodyParser context (nestedRules context namespaces)) contents rule) :
    Reads (parser context namespaces)
      (written (.atKeyword name) :: (front ++ Component.curly contents :: rest))
      (Exactly rule rest) := by
  have hrule (location : Position) :
      Reads (atRuleParser context (nestedRules context namespaces) location (some kind))
        (front ++ Component.curly contents :: rest) (Exactly rule rest) := by
    refine (reads_untilBefore (hprelude location) hfront (by rintro _ ⟨⟩; rfl)).andThen ?_
    refine (reads_statementEnd contents rest).bind fun body after hend => ?_
    obtain ⟨⟨body, rfl, hlook⟩, rfl⟩ := hend
    exact reads_inside hlook hbody
  refine (reads_get _).bind fun before after hafter => ?_
  subst hafter
  have hnext : (written (.atKeyword name) :: (front ++ Component.curly contents :: rest)).dropWhile
      Component.isFiller =
          written (.atKeyword name) :: (front ++ Component.curly contents :: rest) := rfl
  refine (reads_next hnext).bind fun component after hfound => ?_
  obtain ⟨hlook, rfl⟩ := hfound
  obtain ⟨text, start, rfl⟩ := exists_leaf_of_bare hlook
  have hcomponent : AtRule.ofComponent? (.leaf ⟨.atKeyword name, text, start⟩) = some kind := hkind
  show Reads (atRuleParser context _ start (AtRule.ofComponent? _)) _ _
  rw [hcomponent]
  exact hrule start

/-- Selectors in front of a block that is read are read with it. -/
theorem reads_styleParser {front : List Component} {selectors : String}
    {declarations : Declarations}
    (hselectors : Reads (entirely (Selector.parser namespaces)) front (Exactly selectors []))
    (hfront : ∀ component ∈ front, isDelimiter ['{'] component = false)
    (hbody : ReadsAll (Declarations.parser (context.inRule .style)) contents declarations) :
    Reads (styleParser context namespaces) (front ++ Component.curly contents :: rest)
      (Exactly (.style selectors declarations) rest) := by
  refine (reads_untilBefore hselectors hfront (by rintro _ ⟨⟩; rfl)).andThen ?_
  refine (reads_isExhausted _).andThen ?_
  have hblock : Reads (do
      let body ← block .curly
      return Rule.style selectors (← inside body (Declarations.parser (context.inRule .style))))
      (Component.curly contents :: rest) (Exactly (.style selectors declarations) rest) := by
    refine (@reads_block [] rest .curly contents rfl).bind fun body after hfound => ?_
    obtain ⟨hlook, rfl⟩ := hfound
    exact (reads_inside hlook hbody).andThen (reads_pure _ after)
  exact hblock

/-- A rule with selectors is read if its selectors and its block are. -/
theorem parser_reads_style {first : Component} {front : List Component} {selectors : String}
    {declarations : Declarations} (hfirst : first.isFiller = false)
    (hkeyword : AtRule.isKeyword first = false)
    (hselectors :
      Reads (entirely (Selector.parser namespaces)) (first :: front) (Exactly selectors []))
    (hfront : ∀ component ∈ first :: front, isDelimiter ['{'] component = false)
    (hbody : ReadsAll (Declarations.parser (context.inRule .style)) contents declarations) :
    Reads (parser context namespaces) (first :: (front ++ Component.curly contents :: rest))
      (Exactly (.style selectors declarations) rest) := by
  intro c hc
  obtain ⟨start, behind, hrest, hbare, hbehind⟩ := Component.exists_dropWhile_isFiller hfirst hc
  have hstart : AtRule.isKeyword start = false := by
    rw [← AtRule.isKeyword_bare, hbare, AtRule.isKeyword_bare, hkeyword]
  rw [parser, ruleWith_of_not_isKeyword hrest hstart]
  exact reads_styleParser hselectors hfront hbody ⟨start :: behind, c.stop⟩ hbehind

end Rule

end Css
