import Css.Proofs.Rule.Written
import Css.Proofs.Stylesheet.Namespaces

/-!
# What is written for stylesheets

The rules of a tight source are written one behind the other as a text that a run reads rule by
rule, `RuleList.exists_run_rewritten`. It makes no difference in which phase the run starts, so the
statements of the namespaces may stand in front of them, `RuleList.exists_topLevel_rewritten`.
-/

namespace Css

open Css.Parser
open Component (AreTight bareOf)

variable {context : Context} {namespaces : Namespaces} {c after : Cursor}

/-- What stands behind a part is the end of what it stands in. -/
theorem Part.Stands.suffix {part : Part} (h : part.Stands context namespaces c after) :
    after.rest <:+ c.rest := by
  have hstatement {kind : AtRule} {prelude : List Component}
      (hstands : Item.IsStatement kind prelude c after) : after.rest <:+ c.rest := by
    obtain ⟨keyword, ending, hrest, -, -⟩ := hstands.starts
    exact List.IsSuffix.trans ⟨keyword :: (prelude ++ ending), by simp⟩
      (Component.suffix_of_dropWhile hrest)
  cases part with
  | mark =>
      obtain ⟨first, hrest, -, -⟩ := h
      exact (List.suffix_cons first after.rest).trans (Component.suffix_of_dropWhile hrest)
  | charset =>
      obtain ⟨prelude, hstands, -⟩ := h
      exact hstatement hstands
  | binding key address =>
      obtain ⟨prelude, hstands, -⟩ := h
      exact hstatement hstands
  | rule r =>
      obtain ⟨first, rest, -, -, -, hrule⟩ := h
      exact (Rule.consumes_rule hrule).1.suffix

/-- What is written for a rule among the parts of a tight source is read as a rule that is written
alike, and starts with no mark. -/
theorem Part.Tile.exists_rewritten {parts : List Part} (h : Tile context namespaces parts c after)
    (hgood : AreTight c.rest) {rule : Rule} (hrule : rule ∈ parts.filterMap Part.rule?)
    (hwritable : Rule.AreWritable [rule]) :
    ∃ again start others text,
      IsRewritten Rule.css (Rule.parser context namespaces) rule again (start :: others) text ∧
        start.isFiller = false ∧ Item.isHtmlMark start = false := by
  induction h with
  | nil c => cases hrule
  | @cons part parts c mid after hpart hparts ih =>
      have hrules := ih (Hereditary.of_infix hgood hpart.suffix.isInfix)
      cases part with
      | mark | charset | binding key address => exact hrules hrule
      | rule r =>
          rcases List.mem_cons.mp hrule with rfl | hrule
          · -- the tile looks prefixes up in the table of the whole sheet, which is written in front
            obtain ⟨first, rest, hrest, hmark, -, hread⟩ := hpart
            obtain ⟨_, _, hfirst, again, start, others, text, hrewritten, hstart, hsame⟩ :=
              Rule.exists_returns hgood hread hwritable
                (Rule.yields_rewritable context namespaces).gives
            rw [hrest] at hfirst
            cases hfirst
            exact ⟨again, start, others, text, hrewritten, hstart, hsame.trans hmark⟩
          · exact hrules hrule

/-- Where a rule is read that starts with no mark, a step of a stylesheet reads it. -/
theorem Item.topLevelStep_rewritten {rule again : Rule} {start : Component}
    {others rest : List Component} {text : String}
    (h : IsRewritten Rule.css (Rule.parser context namespaces) rule again (start :: others) text)
    (hstart : start.isFiller = false) (hmark : isHtmlMark start = false) (phase : Phase)
    (hc : bareOf c.rest = bareOf (start :: others ++ rest)) :
    ∃ after, c.isExhausted = false ∧ bareOf after.rest = bareOf rest ∧
      topLevelStep context ⟨phase, namespaces⟩ c =
        (⟨.body, namespaces⟩, .ok (.rule again) after) := by
  obtain ⟨_, after, hrun, _, hafter, rfl, rfl⟩ := h.reads rest c hc
  obtain ⟨first, behind, hrest, hfirst, -⟩ := Component.exists_dropWhile_isFiller hstart hc
  have hnone : isHtmlMark first = false := by
    rw [← isSeen_isHtmlMark.bare, hfirst, isSeen_isHtmlMark.bare, hmark]
  refine ⟨after, by simp [Cursor.isExhausted_of_cons hrest], hafter, ?_⟩
  rw [topLevelStep_of_rule hrest hnone (.inr (lateFault?_of_rule hrest hrun))]
  exact Prod.ext rfl (map_eq_ok_iff.mpr ⟨_, hrun, rfl⟩)

/-- A run over what is written for rules reads those that are written alike. -/
theorem RuleList.exists_run_rewritten {rules : List Rule} {again : Rule → Rule}
    {start : Rule → Component} {others : Rule → List Component} {text : Rule → String}
    (h : ∀ rule ∈ rules, IsRewritten Rule.css (Rule.parser context namespaces) rule (again rule)
        (start rule :: others rule) (text rule) ∧
      (start rule).isFiller = false ∧ Item.isHtmlMark (start rule) = false)
    (phase : Phase)
    (hc : bareOf c.rest = bareOf (rules.flatMap fun rule => start rule :: others rule)) :
    ∃ last after, bareOf after.rest = bareOf [] ∧ last.namespaces = namespaces ∧
      Run context ⟨phase, namespaces⟩ c (rules.map fun rule => .rule (again rule)) last after := by
  induction rules generalizing phase c with
  | nil => exact ⟨_, c, hc, rfl, .refl _ c⟩
  | cons rule rules ih =>
      obtain ⟨⟨hrule, hstart, hmark⟩, hrules⟩ := List.forall_mem_cons.mp h
      rw [List.flatMap_cons] at hc
      obtain ⟨mid, hmore, hmid, hstep⟩ := Item.topLevelStep_rewritten hrule hstart hmark phase hc
      obtain ⟨last, after, hafter, hlast, hrun⟩ := ih hrules .body hmid
      exact ⟨last, after, hafter, hlast, .cons (by simp [hmore]) hstep hrun⟩

/-- Statements of bindings and behind them what is written for rules are read as the bindings and as
rules that are written alike. -/
theorem RuleList.exists_topLevel_rewritten {bindings : List (Option String × String)}
    {rules : List Rule} {again : Rule → Rule} {start : Rule → Component}
    {others : Rule → List Component} {text : Rule → String}
    (hnamespaces : Namespaces.ofList bindings = namespaces)
    (h : ∀ rule ∈ rules, IsRewritten Rule.css (Rule.parser context namespaces) rule (again rule)
        (start rule :: others rule) (text rule) ∧
      (start rule).isFiller = false ∧ Item.isHtmlMark (start rule) = false)
    (hc : bareOf c.rest = bareOf (bindings.flatMap Namespaces.statement ++
      rules.flatMap fun rule => start rule :: others rule)) :
    ∃ last after, last.namespaces = namespaces ∧ topLevel context ⟨.prologue, .empty⟩ c =
      ⟨(bindings.map fun binding => .binding binding.1 binding.2) ++
        rules.map fun rule => .rule (again rule), none, last, after⟩ := by
  obtain ⟨mid, hmid, hstatements⟩ := exists_run_statements context .empty bindings hc
  have hbound : Namespaces.empty.insertAll bindings = namespaces := hnamespaces
  rw [hbound] at hstatements
  obtain ⟨last, after, hafter, hlast, hrun⟩ := exists_run_rewritten h .prologue hmid
  refine ⟨last, after, hlast, ?_⟩
  rw [hstatements.topLevel_eq, hrun.topLevel_eq_of_nil hafter]

end Css
