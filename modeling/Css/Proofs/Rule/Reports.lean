import Css.Proofs.CounterStyle.Reports
import Css.Proofs.Media.Reports
import Css.Proofs.Rule.Items

/-!
# What rules report

Faults of a rule are reported where the rule starts, where its block would stand, or inside of it
by the parsers of its parts. A component that is no keyframe selector is named as it stands, and not
by its token.
-/

namespace Css

open Css.Parser

variable {s : Scope}

namespace Condition

/-- A bracketed term reports what is kept as it is written, and whatever is no term. What is tried
inside the brackets is not reported. -/
theorem reports_term (context : Context) {condition : Parser Condition} {P : Condition → Prop}
    (h : Reports s condition P) : Reports s (term context condition) fun _ => True := by
  have henclosed {component : Component} (hcomponent : component.All s.Holds) :
      Reports s (enclosed component) fun _ => True :=
    (reports_noErrorToken.inside hcomponent).then fun _ => reports_pure trivial
  refine reports_next.bind fun component hcomponent => ?_
  split
  · refine (h.inside hcomponent).attempt.then fun nested => ?_
    split
    · exact reports_pure trivial
    · refine ((Declaration.parser_reports context).inside hcomponent).attempt.then fun found => ?_
      split
      · exact reports_pure trivial
      · exact henclosed hcomponent
  · split
    · exact henclosed hcomponent
    · exact reports_unexpected hcomponent

/-- A condition. -/
theorem parser_reports (context : Context) : Reports s (parser context) fun _ => True := by
  refine reports_recursive fun condition h => ?_
  have hterm := reports_term context h
  refine (reports_expect_true _).succeeds.then fun negated => ?_
  split
  · exact hterm.then fun _ => reports_pure trivial
  · refine hterm.then fun first => reports_isExhausted.then fun exhausted => ?_
    split
    · exact reports_pure trivial
    · refine (reports_expect_true _).then fun connective => hterm.then fun second => ?_
      have hothers : Reports s (many do sameConnective connective; term context condition)
          fun _ => True :=
        ((reports_expect_true _).then fun _ => hterm).many.mono fun _ _ => trivial
      exact hothers.then fun _ => reports_pure trivial

end Condition

/-- The name of an animation. -/
theorem KeyframesName.parser_reports : Reports s parser fun _ => True := by
  refine (reports_expect_true _).attempt.then fun value => ?_
  split
  · exact reports_pure trivial
  · exact (reports_expect_true _).then fun _ => reports_pure trivial

/-- A component that is no moment is reported where it stands, and named as it is. -/
theorem KeyframeSelector.reports_momentParser : Reports s momentParser fun _ => True := by
  refine reports_next.bind fun component hcomponent => ?_
  split
  · exact reports_pure trivial
  · refine reports_fault (s.hasPlace_start hcomponent) fun found hfound => ?_
    cases hfound
    exact ⟨hcomponent.token, .inr rfl⟩

/-- The block of an animation. -/
theorem Keyframes.reports_bodyParser (context : Context) (vendorPrefix : Option VendorPrefix)
    (name : KeyframesName) : Reports s (bodyParser context vendorPrefix name) fun _ => True := by
  have hselector : Reports s KeyframeSelector.parser fun _ => True :=
    KeyframeSelector.reports_momentParser.commaSeparated.then fun _ => reports_pure trivial
  have hkeyframe : Reports s (Keyframe.parser context) fun _ => True :=
    (hselector.untilBefore _).then fun _ => (reports_block .curly).bind fun component hcomponent =>
      ((Declarations.parser_reports _).inside hcomponent).then fun _ => reports_pure trivial
  exact hkeyframe.many.then fun _ => reports_pure trivial

namespace Selector

mutual

/-- A prefix that is not bound in a component is one of its tokens. -/
theorem mem_tokens_of_unboundPrefix? {namespaces : Namespaces} {component : Component} {t : Token}
    (h : unboundPrefix? namespaces component = some t) : t ∈ component.tokens := by
  cases component with
  | leaf u => cases h
  | group opening contents closing =>
      rw [unboundPrefix?] at h
      exact List.mem_cons_of_mem _ (List.mem_append_left _ (mem_tokensOf_of_unboundPrefixOf? h))

/-- A prefix that is not bound in components is one of their tokens. -/
theorem mem_tokensOf_of_unboundPrefixOf? {namespaces : Namespaces} {components : List Component}
    {t : Token} (h : unboundPrefixOf? namespaces components = some t) :
    t ∈ Component.tokensOf components := by
  cases components with
  | nil => cases h
  | cons component rest =>
      unfold unboundPrefixOf? at h
      rw [Option.or_eq_some_iff, Option.or_eq_some_iff] at h
      rw [Component.tokensOf]
      rcases h with h | ⟨-, h | ⟨-, h⟩⟩
      · exact List.mem_append_left _ (mem_tokens_of_unboundPrefix? h)
      · split at h
        · split at h
          · cases h
            exact List.mem_append_left _ (List.mem_singleton_self _)
          · cases h
        · cases h
      · exact List.mem_append_right _ (mem_tokensOf_of_unboundPrefixOf? h)

end

/-- A prefix that is not bound is reported where it stands. -/
theorem parser_reports (namespaces : Namespaces) : Reports s (parser namespaces) fun _ => True := by
  refine reports_isExhausted.then fun exhausted => ?_
  split
  · exact reports_location.bind fun _ hplace => reports_fault_bind hplace (s.names_of_none rfl)
  · refine reports_get.bind fun before hbefore => reports_noErrorToken.then fun _ => ?_
    refine reports_get.then fun after => ?_
    split
    · rename_i t ht
      have htoken : s.HasToken t :=
        hbefore.rest.read after t (mem_tokensOf_of_unboundPrefixOf? ht)
      exact reports_fault (s.start htoken) (s.names_of_leaf rfl htoken)
    · exact reports_pure trivial

end Selector

/-- The prelude of an at-rule whose keyword stands at the given place. -/
theorem Prelude.parser_reports (context : Context) {location : Position} (kind : Option AtRule)
    (hlocation : s.HasPlace location) :
    Reports s (parser context location kind) fun _ => True := by
  match kind with
  | none | some .charset | some .binding => exact reports_fault hlocation (s.names_of_none rfl)
  | some .counterStyle =>
      exact CounterStyleName.reports_definition.entirely.map fun _ _ => trivial
  | some .media => exact (MediaList.parser_reports _).map fun _ _ => trivial
  | some .supports => exact (Condition.parser_reports _).map fun _ _ => trivial
  | some (.keyframes _) => exact KeyframesName.parser_reports.map fun _ _ => trivial

/-- The block of an at-rule reports what the rules in it report. -/
theorem Prelude.reports_bodyParser (context : Context) {rules : Parser (List Rule)}
    {P : List Rule → Prop} (hrules : Reports s rules P) (prelude : Prelude) :
    Reports s (prelude.bodyParser context rules) fun _ => True := by
  cases prelude with
  | counterStyle name => exact (CounterStyle.reports_bodyParser context name).map fun _ _ => trivial
  | media queries => exact hrules.map fun _ _ => trivial
  | supports condition => exact hrules.map fun _ _ => trivial
  | keyframes vendorPrefix name =>
      exact (Keyframes.reports_bodyParser _ vendorPrefix name).map fun _ _ => trivial

namespace Rule

/-- The block that ends a statement is in the scope. -/
theorem reports_statementEnd :
    Reports s statementEnd fun body => ∀ component ∈ body, component.All s.Holds := by
  refine reports_isExhausted.then fun exhausted => ?_
  split
  · exact reports_pure (by simp)
  · refine reports_next.bind fun component hcomponent => ?_
    split
    · exact reports_pure (by simp)
    · exact reports_pure (by simpa using hcomponent)

/-- A rule reports what the rules that it groups report. -/
theorem reports_ruleWith (context : Context) (namespaces : Namespaces)
    {rules : Parser (List Rule)} {P : List Rule → Prop} (hrules : Reports s rules P) :
    Reports s (ruleWith context namespaces rules) fun _ => True := by
  have hstyle : Reports s (styleParser context namespaces) fun _ => True := by
    refine ((Selector.parser_reports namespaces).untilBefore _).then fun selectors => ?_
    refine reports_isExhausted.then fun exhausted => ?_
    have hbody : Reports s (block .curly >>= fun body => inside body
        (Declarations.parser (context.inRule .style)) >>= fun declarations =>
          pure (Rule.style selectors declarations)) fun _ => True :=
      (reports_block .curly).bind fun body hbody =>
        ((Declarations.parser_reports _).inside hbody).then fun _ => reports_pure trivial
    split
    · exact reports_location.bind fun _ hplace => reports_fault_bind hplace (s.names_of_none rfl)
    · exact hbody
  refine reports_get.bind fun before hbefore => reports_next.bind fun component hcomponent => ?_
  split
  · have hplace := s.hasPlace_start hcomponent
    refine ((Prelude.parser_reports context _ hplace).untilBefore _).then fun prelude => ?_
    refine reports_statementEnd.bind fun body hbody => ?_
    split
    · exact reports_fault hplace (s.names_of_none rfl)
    · exact (Prelude.reports_bodyParser context hrules prelude).inside (hbody _ rfl)
  · exact (reports_set (hbefore.skip _)).then fun _ => hstyle

/-- A rule. -/
theorem parser_reports (context : Context) (namespaces : Namespaces) :
    Reports s (parser context namespaces) fun _ => True :=
  reports_ruleWith context namespaces (reports_recursive fun _ hrules =>
    (reports_ruleWith context namespaces hrules).many.mono fun _ _ => trivial)

end Rule

namespace Item

/-- A statement of the prologue with a block is reported at its keyword. -/
theorem reports_statementParser {component : Component} {contents : Parser Item}
    (h : statement? component = some contents) :
    Reports s (statementParser contents) fun _ => True := by
  have hcontents : Reports s contents fun _ => True := by
    unfold statement? at h
    split at h
    · cases h
      exact (reports_expect_true _).then fun _ => reports_pure trivial
    · cases h
      exact (reports_expect_true _).attempt.then fun key =>
        reports_urlOrString.then fun _ => reports_pure trivial
    · cases h
  refine reports_next.bind fun keyword hkeyword => (hcontents.untilBefore _).then fun item => ?_
  refine Rule.reports_statementEnd.then fun body => ?_
  split
  · exact reports_pure trivial
  · exact reports_fault (s.hasPlace_start hkeyword) (s.names_of_none rfl)

/-- What stands at the top level of a stylesheet. -/
theorem reports_topLevelStep (context : Context) (progress : Progress) :
    Reports s (fun c => (topLevelStep context progress c).2) fun _ => True := by
  intro c hc
  dsimp only
  rcases topLevelStep_cases context progress c with ⟨-, hstep⟩ | ⟨first, rest, hrest,
    ⟨-, hstep⟩ | ⟨contents, -, hcontents, hstep⟩ | ⟨-, hstep⟩⟩
  · rw [hstep]
    exact ⟨hc.stop, s.names_of_none rfl⟩
  · rw [hstep]
    have hsuffix := Component.suffix_of_dropWhile hrest
    exact ⟨trivial, hc.of_suffix ((List.suffix_cons first rest).trans hsuffix)⟩
  · have hrun := reports_statementParser (s := s) hcontents hc
    rw [hstep]
    cases hparser : statementParser contents c with
    | ok item after =>
        rw [hparser] at hrun
        exact hrun
    | error e after =>
        rw [hparser] at hrun
        exact hrun
  · rw [hstep]
    exact ((Rule.parser_reports context progress.namespaces).map fun _ _ => trivial) hc

end Item

end Css
