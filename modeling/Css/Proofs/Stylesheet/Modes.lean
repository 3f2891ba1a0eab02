import Css.Proofs.Rule.Modes
import Css.Proofs.Stylesheet.Prologue

/-!
# Stylesheets in modes that accept more

A stylesheet that is read in one mode is read in each mode with more permissions, and its rules, its
namespaces and its origin are the same. Statements of the prologue do not depend on the mode at all,
so only the rules have to be compared.
-/

namespace Css

open Css.Parser

variable {context other : Context}

/-- What stands at the top level stands there in more modes. -/
theorem Item.Stands.extend {progress next : Progress} {c after : Cursor} {item : Item}
    (h : Stands context progress c item next after) (hextends : context.Extends other) :
    Stands other progress c item next after := by
  cases h with
  | mark hrest hmark => exact .mark hrest hmark
  | statement hphase hstatement hitem => exact .statement hphase hstatement hitem
  | rule hrest hmark hlate hrule =>
      exact .rule hrest hmark hlate (Rule.parser_extends hextends _ hrule)

/-- A run over the items of a stylesheet that meets no fault is the same in more modes. -/
theorem RuleList.topLevel_of_extends {progress : Progress} {c : Cursor}
    (hextends : context.Extends other) (herror : (topLevel context progress c).error? = none) :
    topLevel other progress c = topLevel context progress c :=
  collect_of_extends (fun hstep => Item.topLevelStep_eq_ok_iff.mpr
    ((Item.topLevelStep_eq_ok_iff.mp hstep).extend hextends)) herror

/-- Modes are monotone: what is a stylesheet in one mode is the same stylesheet in every mode that
permits as much. -/
theorem Stylesheet.ofText_of_le {mode mode' : Mode} {text : String} {s : Stylesheet}
    (hle : mode ≤ mode') (h : ofText mode text = .ok s) :
    ofText mode' text = .ok { s with mode := mode' } := by
  obtain ⟨source, hsource, herror, rfl⟩ := ofText_eq_ok_iff.mp h
  have hextends : (Context.ofMode mode).Extends (.ofMode mode') := ⟨rfl, hle⟩
  have hlist := RuleList.topLevel_of_extends hextends herror
  refine ofText_eq_ok_iff.mpr ⟨source, hsource, ?_⟩
  rw [hlist]
  exact ⟨herror, rfl⟩

/-- A query for a width of zero without a unit is the same in the mode that permits every number. -/
theorem Stylesheet.ofText_of_le_zero_width :
    Mode.strict ≤ ⟨true, true⟩ ∧
    ∃ s, ofText .strict "@namespace 'n';@media (width:0)\x7ba\x7bb:c\x7d\x7d/*# sourceURL=u*/" =
      .ok s ∧
      ofText ⟨true, true⟩ "@namespace 'n';@media (width:0)\x7ba\x7bb:c\x7d\x7d/*# sourceURL=u*/" =
        .ok { s with mode := ⟨true, true⟩ } := by
  have hle : Mode.strict ≤ ⟨true, true⟩ := by decide
  have hread : ∃ s, ofText .strict
      "@namespace 'n';@media (width:0)\x7ba\x7bb:c\x7d\x7d/*# sourceURL=u*/" = .ok s :=
    ⟨_, by cbv⟩
  obtain ⟨s, hs⟩ := hread
  exact ⟨hle, s, hs, ofText_of_le hle hs⟩

end Css
