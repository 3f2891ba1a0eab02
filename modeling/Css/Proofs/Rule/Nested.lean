import Css.Proofs.Parser.Recursive
import Css.Proofs.Rule.Items

/-!
# Rules in blocks

The rules in the block of a grouping rule are read like any others, `nestedRules_eq`. What is
reached among them is described by `Reaches`: something stands at the cursor, or behind a rule that
is read, or in the block that a grouping rule opens. A statement of the prologue that is reached
ends the run wherever it stands.
-/

namespace Css

open Css.Parser

namespace Rule

variable {context : Context} {namespaces : Namespaces} {rules : Parser (List Rule)}

/-- A body comes from the components in front of which the statement ends. -/
theorem mem_of_statementEnd {c after : Cursor} {body : Component}
    (h : statementEnd c = .ok (some body) after) : body ∈ c.rest := by
  obtain ⟨exhausted, mid, hlook, hrun⟩ := bind_eq_ok.mp h
  cases hlook
  split at hrun
  · cases hrun
  · obtain ⟨component, last, hnext, hrun⟩ := bind_eq_ok.mp hrun
    obtain ⟨rest, hrest, rfl⟩ := next_eq_ok_iff.mp hnext
    split at hrun
    · cases hrun
    · cases hrun
      exact (Component.suffix_of_dropWhile hrest).subset (List.mem_cons_self ..)

/-- Rules agree if the rules that they group do. -/
theorem agreeUpTo_ruleWith {n : Nat} {others : Parser (List Rule)}
    (h : ∀ m < n, AgreeUpTo m rules others) :
    AgreeUpTo n (ruleWith context namespaces rules) (ruleWith context namespaces others) := by
  intro c hc
  rw [ruleWith_eq, ruleWith_eq]
  cases hrest : c.rest.dropWhile Component.isFiller with
  | nil => rfl
  | cons keyword rest =>
      dsimp only
      split
      · have hsuffix : rest <:+ c.rest :=
          (List.suffix_cons keyword rest).trans (Component.suffix_of_dropWhile hrest)
        refine bind_congr_of_ok fun prelude mid huntil =>
          bind_congr_of_ok fun body? after hend => ?_
        cases body? with
        | none => rfl
        | some body =>
            have hmid := (advances_untilBefore _ _ huntil).suffix.trans hsuffix
            have hbody := Component.depth_le_of_mem (hmid.subset (mem_of_statementEnd hend))
            have hagree : ∀ m < n,
                AgreeUpTo m (prelude.bodyParser context rules)
                  (prelude.bodyParser context others) := by
              intro m hm inner hinner
              cases prelude with
              | media queries => exact map_congr_run (h m hm hinner)
              | supports condition => exact map_congr_run (h m hm hinner)
              | counterStyle name => rfl
              | keyframes vendorPrefix name => rfl
            exact AgreeUpTo.inside hagree (hbody.trans hc) after
      · rfl

/-- The rules in a block are rules. -/
theorem nestedRules_eq (context : Context) (namespaces : Namespaces) (c : Cursor) :
    nestedRules context namespaces c = many (parser context namespaces) c :=
  recursive_eq (fun h => (agreeUpTo_ruleWith h).many consumes_ruleWith.advances) c

/-- A grouping rule stands at the first cursor: its keyword, a prelude that can be read, and a
block, in front of whose contents the second cursor stands. -/
inductive Opens (context : Context) : Cursor → Cursor → Prop where
  | intro {c last : Cursor} {keyword : Component} {front contents behind : List Component}
      {opening : Token} {closing : Option Token} {kind : AtRule} {prelude : Prelude}
      (hrest : c.rest.dropWhile Component.isFiller =
        keyword :: (front ++ .group opening contents closing :: behind))
      (hkind : AtRule.ofComponent? keyword = some kind) (hgroup : kind = .media ∨ kind = .supports)
      (hfront : ∀ component ∈ front, isDelimiter [';', '{'] component = false)
      (hcurly : opening.kind = .opening .curly)
      (hprelude : entirely (Prelude.parser context keyword.start (some kind))
        ⟨front, opening.start⟩ = .ok prelude last) :
      Opens context c ⟨contents, Component.contentsStop opening contents closing⟩

/-- A run over the rules of a block comes to stand in front of a component: at once, behind a rule
that it reads, or in the block of a grouping rule. -/
inductive Reaches (context : Context) (namespaces : Namespaces) (component : Component) :
    Cursor → Prop where
  | here {c : Cursor} {rest : List Component}
      (hrest : c.rest.dropWhile Component.isFiller = component :: rest) :
      Reaches context namespaces component c
  | behind {c after : Cursor} {rule : Rule} (hrule : parser context namespaces c = .ok rule after)
      (h : Reaches context namespaces component after) : Reaches context namespaces component c
  | inside {c inner : Cursor} (hopens : Opens context c inner)
      (h : Reaches context namespaces component inner) : Reaches context namespaces component c

/-- The prelude of a grouping rule is that of one. -/
theorem bodyParser_of_group {kind : AtRule} {location : Position} {c last : Cursor}
    {prelude : Prelude} (hgroup : kind = .media ∨ kind = .supports)
    (h : entirely (Prelude.parser context location (some kind)) c = .ok prelude last) :
    ∃ f : List Rule → Rule, ∀ rules, prelude.bodyParser context rules = f <$> rules := by
  obtain ⟨mid, hrun, -, -⟩ := entirely_eq_ok_iff.mp h
  rcases hgroup with rfl | rfl
  · obtain ⟨queries, -, rfl⟩ := map_eq_ok_iff.mp hrun
    exact ⟨Rule.media queries, fun _ => rfl⟩
  · obtain ⟨condition, -, rfl⟩ := map_eq_ok_iff.mp hrun
    exact ⟨Rule.supports condition, fun _ => rfl⟩

/-- A fault in the block of a grouping rule is a fault of the rule. -/
theorem Opens.ruleWith_of_error {c inner last : Cursor} {e : ParseError}
    (h : Opens context c inner) (hrules : rules inner = .error e last) :
    ∃ after, ruleWith context namespaces rules c = .error e after := by
  cases h with
  | intro hrest hkind hgroup hfront hcurly hprelude =>
      rename_i keyword front contents behind opening closing kind prelude
      have hback : ∀ component ∈ (Component.group opening contents closing :: behind).head?,
          isDelimiter [';', '{'] component = true := by
        rintro _ ⟨⟩
        simp [isDelimiter, Component.delimiter?, hcurly]
      have huntil := untilBefore_append c.stop hfront hback hprelude
      have hend : statementEnd ⟨.group opening contents closing :: behind, c.stop⟩ =
          .ok (some (.group opening contents closing)) ⟨behind, c.stop⟩ := rfl
      obtain ⟨f, hbody⟩ := bodyParser_of_group hgroup hprelude
      refine ⟨⟨behind, c.stop⟩, ?_⟩
      rw [ruleWith_of_isKeyword hrest (AtRule.isKeyword_of_ofComponent? hkind), hkind, atRuleParser,
        bind_of_ok huntil, bind_of_ok hend]
      exact inside_of_error (by rw [hbody, map_eq_error_iff.mpr hrules]) _

/-- A grouping rule is neither a mark nor a statement of the prologue. -/
theorem Opens.starts {c inner : Cursor} (h : Opens context c inner) :
    ∃ keyword rest, c.rest.dropWhile Component.isFiller = keyword :: rest ∧
      Item.isHtmlMark keyword = false ∧ AtRule.lateFault? keyword = none := by
  cases h with
  | intro hrest hkind hgroup _ _ _ =>
      refine ⟨_, _, hrest, Item.isHtmlMark_of_ofComponent? hkind, ?_⟩
      rcases hgroup with rfl | rfl <;> rw [AtRule.lateFault?, hkind]

/-- A grouping rule is something. -/
theorem Opens.isExhausted {c inner : Cursor} (h : Opens context c inner) :
    c.isExhausted = false := by
  cases h with
  | intro hrest _ _ _ _ _ => exact Cursor.isExhausted_of_cons hrest

/-- A rule is something. -/
theorem isExhausted_of_rule {c after : Cursor} {rule : Rule}
    (h : parser context namespaces c = .ok rule after) : c.isExhausted = false := by
  cases hc : c.isExhausted with
  | false => rfl
  | true =>
      rw [parser, ruleWith_of_isExhausted hc] at h
      cases h

/-- A fault of the first rule is a fault of the rules. -/
theorem many_of_error {c after : Cursor} {e : ParseError} (hc : c.isExhausted = false)
    (h : parser context namespaces c = .error e after) :
    many (parser context namespaces) c = .error e after := by
  rw [many, repeatWhile_eq, if_pos (by simp [hc]), h]

/-- A statement of the prologue that is reached among rules ends the run. -/
theorem Reaches.many_eq_error {c : Cursor} {component : Component} {f : Fault}
    (h : Reaches context namespaces component c) (hlate : AtRule.lateFault? component = some f) :
    ∃ after, many (parser context namespaces) c = .error ⟨f, component.start⟩ after := by
  induction h with
  | here hrest =>
      exact ⟨_, many_of_error (Cursor.isExhausted_of_cons hrest)
        (ruleWith_of_lateFault? hrest hlate)⟩
  | behind hrule _ ih =>
      obtain ⟨after, hrun⟩ := ih
      have hmore := isExhausted_of_rule hrule
      rw [many] at hrun ⊢
      refine ⟨after, ?_⟩
      rw [repeatWhile_eq, if_pos (by simp [hmore]), hrule]
      simp only [(consumes_rule hrule).2, if_true]
      exact map_eq_error_iff.mpr hrun
  | inside hopens _ ih =>
      obtain ⟨last, hinner⟩ := ih
      rw [← nestedRules_eq] at hinner
      obtain ⟨after, hrule⟩ := hopens.ruleWith_of_error hinner
      exact ⟨after, many_of_error hopens.isExhausted hrule⟩

end Rule

end Css
