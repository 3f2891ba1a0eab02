import Css.Proofs.CounterStyle.Canonical
import Css.Proofs.Keyframes.Canonical
import Css.Proofs.Media.Canonical
import Css.Proofs.Parser.Run
import Css.Proofs.Rule.Items
import Css.Proofs.Supports.Canonical
import Css.Stylesheet.Basic

/-!
# Canonical rules

Every rule that is accepted is canonical, however deep it is nested: the mode is handed on from a
stylesheet to its rules and from a grouping rule to the rules in it.
-/

namespace Css

open Css.Parser

/-- A rule whose parts are in the form that the grammar yields. -/
inductive Rule.Canonical (mode : Mode) : Rule → Prop where
  | style (selectors : String) (declarations : Declarations) :
      Canonical mode (.style selectors declarations)
  | media (queries : MediaList) (rules : List Rule) (hqueries : queries.Canonical mode)
      (hrules : ∀ rule ∈ rules, Canonical mode rule) : Canonical mode (.media queries rules)
  | supports (condition : Condition) (rules : List Rule)
      (hrules : ∀ rule ∈ rules, Canonical mode rule) : Canonical mode (.supports condition rules)
  | counterStyle (s : CounterStyle) (hstyle : s.Canonical mode) : Canonical mode (.counterStyle s)
  | keyframes (k : Keyframes) (hkeyframes : k.Canonical) : Canonical mode (.keyframes k)

/-- A prelude whose parts are in the form that the grammar yields. -/
def Prelude.Canonical (mode : Mode) : Prelude → Prop
  | .counterStyle name => name.Canonical CounterStyleName.reserved
  | .media queries => queries.Canonical mode
  | .supports _ => True
  | .keyframes _ name => name.Canonical

/-- Reading selectors leaves good components. -/
theorem Selector.parser_yields {good : List Component → Prop} [Hereditary good]
    (namespaces : Namespaces) :
    Yields good (parser namespaces) fun _ => True := by
  refine yields_isExhausted.bind fun _ _ => ?_
  split
  · exact yields_location.bind fun _ _ => yields_fault_bind
  · refine yields_get.bind fun before _ => yields_noErrorToken.bind fun _ _ => ?_
    refine yields_get.bind fun after _ => ?_
    split
    · exact yields_fault
    · exact yields_pure trivial

namespace Prelude

/-- A prelude is read in canonical form. -/
theorem parser_yields (context : Context) (location : Position) (kind : Option AtRule) :
    Yields SoundTokens (parser context location kind) (Canonical context.mode) := by
  unfold parser
  split
  · exact yields_fault
  · exact yields_fault
  · exact yields_fault
  · exact CounterStyleName.yields_definition.entirely.map fun _ h => h
  · exact (MediaList.parser_yields (context.inRule .media)).map fun _ h => h
  · exact (@Condition.parser_yields (fun _ => True) _ _ (fun _ _ => trivial) _).map
      fun _ _ => trivial
  · exact KeyframesName.parser_yields.map fun _ h => h

/-- The block behind a canonical prelude makes up a canonical rule with it. -/
theorem yields_bodyParser (context : Context) {rules : Parser (List Rule)}
    (hrules : Yields SoundTokens rules fun list => ∀ rule ∈ list, rule.Canonical context.mode)
    {found : Prelude} (h : found.Canonical context.mode) :
    Yields SoundTokens (found.bodyParser context rules) (Rule.Canonical context.mode) := by
  cases found with
  | counterStyle name =>
      exact (CounterStyle.yields_bodyParser context h).map fun s hs => .counterStyle s hs.1
  | media queries => exact hrules.map fun _ hlist => .media queries _ h hlist
  | supports condition => exact hrules.map fun _ hlist => .supports condition _ hlist
  | keyframes vendorPrefix name =>
      exact (Keyframes.yields_bodyParser _ vendorPrefix h).map .keyframes

end Prelude

namespace Rule

/-- The end of a statement leaves good components. -/
theorem yields_statementEnd {good : List Component → Prop} [Hereditary good] :
    Yields good statementEnd fun body => ∀ component ∈ body, component.All good := by
  refine yields_isExhausted.bind fun _ _ => ?_
  split
  · exact yields_pure nofun
  · refine yields_next.bind fun component hcomponent => ?_
    split
    · exact yields_pure nofun
    · exact yields_pure (by rintro _ ⟨⟩; exact hcomponent)

variable (context : Context) (namespaces : Namespaces) {rules : Parser (List Rule)}

/-- An at-rule is canonical if the rules in its block are. -/
theorem yields_atRuleParser
    (hrules : Yields SoundTokens rules fun list => ∀ rule ∈ list, rule.Canonical context.mode)
    (location : Position) (kind : Option AtRule) :
    Yields SoundTokens (atRuleParser context rules location kind) (Canonical context.mode) := by
  refine ((Prelude.parser_yields context location kind).untilBefore _).bind fun found hfound => ?_
  refine yields_statementEnd.bind fun body hbody => ?_
  split
  · exact yields_fault
  · rename_i component
    exact (Prelude.yields_bodyParser context hrules hfound).inside (hbody component rfl)

/-- A rule with selectors is canonical. -/
theorem yields_styleParser :
    Yields SoundTokens (styleParser context namespaces) (Canonical context.mode) := by
  refine ((Selector.parser_yields namespaces).untilBefore _).bind fun selectors _ => ?_
  have hblock : Yields SoundTokens (do
      let body ← block .curly
      return Rule.style selectors (← inside body (Declarations.parser (context.inRule .style))))
      (Canonical context.mode) := by
    refine (yields_expect _).bind fun body hbody => ?_
    obtain ⟨component, hcomponent, hblock⟩ := hbody
    split at hblock
    · cases hblock
      refine ((Declarations.parser_yields _).inside hcomponent).bind fun declarations _ => ?_
      exact yields_pure (.style selectors declarations)
    · cases hblock
  refine yields_isExhausted.bind fun _ _ => ?_
  split
  · exact yields_location.bind fun _ _ => yields_fault_bind
  · exact hblock

/-- A rule is canonical if the rules in it are. -/
theorem yields_ruleWith
    (hrules : Yields SoundTokens rules fun list => ∀ rule ∈ list, rule.Canonical context.mode) :
    Yields SoundTokens (ruleWith context namespaces rules) (Canonical context.mode) := by
  refine yields_get.bind fun before hbefore => yields_next.bind fun component _ => ?_
  split
  · exact yields_atRuleParser context hrules _ _
  · exact (yields_set (hbefore.skip _)).bind fun _ _ => yields_styleParser context namespaces

/-- The rules in a block are canonical, at any depth. -/
theorem yields_nestedRules :
    Yields SoundTokens (nestedRules context namespaces)
      fun list => ∀ rule ∈ list, rule.Canonical context.mode :=
  yields_recursive fun _ hinner => (yields_ruleWith context namespaces hinner).many

/-- A rule is canonical. -/
theorem parser_yields :
    Yields SoundTokens (parser context namespaces) (Canonical context.mode) :=
  yields_ruleWith context namespaces (yields_nestedRules context namespaces)

/-- A rule that was read from a text is canonical. -/
theorem canonical_of_ofText {context : Context} {namespaces : Namespaces} {text : String}
    {rule : Rule} (h : ofText context namespaces text = .ok rule) :
    rule.Canonical context.mode :=
  (parser_yields context namespaces).only.of_run h

end Rule

namespace Item

/-- A statement of the prologue is no rule. -/
theorem yields_statementParser {good : List Component → Prop} [Hereditary good]
    {component : Component} {contents : Parser Item} (h : statement? component = some contents) :
    Yields good (statementParser contents) fun item => item.rule? = none := by
  have hcontents : Yields good contents fun item => item.rule? = none := by
    unfold statement? at h
    split at h
    · cases h
      exact (yields_expect_true _).bind fun _ _ => yields_pure rfl
    · cases h
      refine (yields_expect_true _).attempt.bind fun key _ => ?_
      exact yields_urlOrString.bind fun _ _ => yields_pure rfl
    · cases h
  refine yields_next.bind fun _ _ => (hcontents.untilBefore _).bind fun item hitem => ?_
  refine Rule.yields_statementEnd.bind fun body _ => ?_
  split
  · exact yields_pure hitem
  · exact yields_fault

/-- An item at the top level, where marks may stand, is a canonical rule or no rule. -/
theorem yields_topLevelStep (context : Context) (progress : Progress) :
    Yields SoundTokens (fun c => (topLevelStep context progress c).2)
      fun item => ∀ rule ∈ item.rule?, rule.Canonical context.mode := by
  intro c item after hc hrun
  dsimp only at hrun ⊢
  rcases topLevelStep_cases context progress c with ⟨-, hstep⟩ | ⟨first, rest, hrest,
    ⟨-, hstep⟩ | ⟨contents, -, hcontents, hstep⟩ | ⟨-, hstep⟩⟩
  · rw [hstep] at hrun
    cases hrun
  · rw [hstep] at hrun
    cases hrun
    have hsuffix := Component.suffix_of_dropWhile hrest
    exact ⟨by simp [rule?], hc.of_suffix ((List.suffix_cons first rest).trans hsuffix)⟩
  · rw [hstep] at hrun
    cases hparser : statementParser contents c with
    | error e mid =>
        rw [hparser] at hrun
        cases hrun
    | ok found mid =>
        rw [hparser] at hrun
        cases hrun
        obtain ⟨hitem, hafter⟩ := yields_statementParser hcontents hc hparser
        exact ⟨by simp [hitem], hafter⟩
  · rw [hstep] at hrun
    have hrule := (Rule.parser_yields context progress.namespaces).map (f := Item.rule)
      (Q := fun item => ∀ rule ∈ item.rule?, rule.Canonical context.mode)
      (by rintro rule hrule _ ⟨⟩; exact hrule)
    exact hrule hc hrun

end Item

/-- The rules of a stylesheet are canonical. -/
theorem Stylesheet.canonical_of_ofText {mode : Mode} {text : String} {s : Stylesheet}
    (h : ofText mode text = .ok s) : ∀ rule ∈ s.rules, rule.Canonical mode := by
  unfold ofText at h
  split at h
  · cases h
  · rename_i source hsource
    dsimp only at h
    split at h
    · cases h
    · cases h
      intro rule hrule
      obtain ⟨item, hitem, hrule⟩ := List.mem_filterMap.mp hrule
      have hlist := collect_yields (fun c => !c.isExhausted) (Item.topLevelStep (.ofMode mode))
        (Item.yields_topLevelStep (.ofMode mode)) ⟨.prologue, .empty⟩ _
        (Cursor.all_ofSource hsource)
      exact hlist.1 item hitem rule hrule

end Css
