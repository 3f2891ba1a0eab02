import Css.Proofs.Parser.Run
import Css.Proofs.Stylesheet.Prologue

/-!
# The ways of reading rules agree

Where neither marks nor statements of the prologue stand, the rules of a stylesheet are read like
those of a block, step by step and so throughout. A text that is a rule is a stylesheet with that
rule and no other.
-/

namespace Css

open Css.Parser

/-- The component is neither a mark nor the keyword of a statement of the prologue. -/
structure Component.IsOrdinary (component : Component) : Prop where
  mark : Item.isHtmlMark component = false
  late : AtRule.lateFault? component = none

instance (component : Component) : Decidable component.IsOrdinary :=
  decidable_of_iff
    (Item.isHtmlMark component = false ∧ (AtRule.lateFault? component).isNone = true)
    ⟨fun h => ⟨h.1, Option.isNone_iff_eq_none.mp h.2⟩,
      fun h => ⟨h.mark, Option.isNone_iff_eq_none.mpr h.late⟩⟩

/-- All components that are left to read are ordinary. -/
def Cursor.IsOrdinary (c : Cursor) : Prop := ∀ component ∈ c.rest, component.IsOrdinary

instance (c : Cursor) : Decidable c.IsOrdinary :=
  inferInstanceAs (Decidable (∀ component ∈ c.rest, component.IsOrdinary))

/-- What stands further on is ordinary as well. -/
theorem Cursor.IsOrdinary.of_leads {c after : Cursor} (h : c.IsOrdinary) (hleads : c.Leads after) :
    after.IsOrdinary :=
  fun component hmem => h component (hleads.suffix.subset hmem)

namespace Item

variable {context : Context} {progress : Progress} {c : Cursor}

/-- Ordinary components are read as a rule. -/
theorem topLevelStep_of_isOrdinary (hc : c.IsOrdinary) (hmore : c.isExhausted = false) :
    topLevelStep context progress c =
      (⟨.body, progress.namespaces⟩,
        (Item.rule <$> Rule.parser context progress.namespaces) c) := by
  cases hrest : c.rest.dropWhile Component.isFiller with
  | nil =>
      rw [c.isExhausted_iff.mpr hrest] at hmore
      cases hmore
  | cons first rest =>
      have hmem : first ∈ c.rest :=
        (Component.suffix_of_dropWhile hrest).subset (List.mem_cons_self ..)
      exact topLevelStep_of_rule hrest (hc first hmem).mark (.inr (hc first hmem).late)

end Item

namespace RuleList

variable {context : Context} {progress last : Progress} {c after : Cursor} {items : List Item}

/-- Ordinary components are read at the top level as in a block. -/
theorem topLevel_eq_nested (context : Context) (progress : Progress) (hc : c.IsOrdinary) :
    (topLevel context progress c).items = (nested context progress.namespaces c).items ∧
      (topLevel context progress c).error? = (nested context progress.namespaces c).error? ∧
      (topLevel context progress c).cursor = (nested context progress.namespaces c).cursor ∧
      (topLevel context progress c).state.namespaces =
        (nested context progress.namespaces c).state.namespaces := by
  -- The block passes its table on, so the states agree as long as both tables are the first one.
  have hcollect := collect_congr (fun c => !c.isExhausted) (Item.topLevelStep context)
    (fun (other : Progress) c =>
      (other, (Item.rule <$> Rule.parser context progress.namespaces) c))
    (fun first second => first.namespaces = progress.namespaces ∧
      second.namespaces = progress.namespaces) Cursor.IsOrdinary
    (fun {first second c} hrel hc hmore => by
      rw [Item.topLevelStep_of_isOrdinary hc (by simpa using hmore), hrel.1]
      exact ⟨rfl, rfl, hrel.2⟩)
    (fun hc hstep => hc.of_leads (Item.topLevelStep_eq_ok_iff.mp hstep).leads.1)
    (s := progress) (t := ⟨.body, progress.namespaces⟩) ⟨rfl, rfl⟩ hc
  obtain ⟨hitems, herror, hcursor, hfirst, hsecond⟩ := hcollect
  exact ⟨hitems, herror, hcursor, hfirst.trans hsecond.symm⟩

/-- Nothing but rules is read from ordinary components. -/
theorem Run.eq_map_rule (h : Run context progress c items last after) (hc : c.IsOrdinary) :
    items = (items.filterMap Item.rule?).map Item.rule := by
  induction h with
  | refl progress c => rfl
  | cons hmore hstep hrest ih =>
      have hleads := (Item.topLevelStep_eq_ok_iff.mp hstep).leads.1
      rw [Item.topLevelStep_of_isOrdinary hc (by simpa using hmore), Prod.mk.injEq] at hstep
      obtain ⟨rule, -, rfl⟩ := map_eq_ok_iff.mp hstep.2
      rw [List.filterMap_cons_some (f := Item.rule?) rfl, List.map_cons, ← ih (hc.of_leads hleads)]

/-- A run over ordinary components reads one rule and nothing else if the rule is all there is. -/
theorem rules_eq_singleton_iff {namespaces : Namespaces} {rule : Rule} (hc : c.IsOrdinary) :
    (topLevel context ⟨.prologue, namespaces⟩ c).error? = none ∧
        (topLevel context ⟨.prologue, namespaces⟩ c).rules = [rule] ↔
      ∃ after, only (Rule.parser context namespaces) c = .ok rule after := by
  constructor
  · rintro ⟨herror, hrules⟩
    obtain ⟨hrun, hend⟩ := exists_run herror
    have hitems := hrun.eq_map_rule hc
    rw [rules] at hrules
    rw [hrules] at hitems
    rw [hitems] at hrun
    cases hrun with
    | cons hmore hstep hrest =>
        have hexhausted : c.isExhausted = false := by simpa using hmore
        rw [Item.topLevelStep_of_isOrdinary hc hexhausted, Prod.mk.injEq] at hstep
        obtain ⟨_, hrule, ⟨⟩⟩ := map_eq_ok_iff.mp hstep.2
        cases hrest
        exact ⟨_, only_eq_ok_iff.mpr ⟨hexhausted, entirely_eq_ok_iff.mpr ⟨_, hrule, hend, rfl⟩⟩⟩
  · rintro ⟨after, honly⟩
    obtain ⟨hmore, hall⟩ := only_eq_ok_iff.mp honly
    obtain ⟨mid, hrule, hend, -⟩ := entirely_eq_ok_iff.mp hall
    have hstep : Item.topLevelStep context ⟨.prologue, namespaces⟩ c =
        (⟨.body, namespaces⟩, .ok (.rule rule) mid) := by
      rw [Item.topLevelStep_of_isOrdinary hc hmore, map_eq_ok_iff.mpr ⟨rule, hrule, rfl⟩]
    have hrun : Run context ⟨.prologue, namespaces⟩ c [.rule rule] ⟨.body, namespaces⟩ mid :=
      .cons (by simp [hmore]) hstep (.refl _ mid)
    rw [hrun.topLevel_eq, topLevel, collect_of_not_more (by simp [hend])]
    exact ⟨rfl, rfl⟩

end RuleList

/-- The ways of reading rules agree where neither marks nor statements of the prologue stand. The
top level of a stylesheet, from either phase, and a block yield the same rules, the same fault, the
same place and the same table. A text is a rule if and only if it is a stylesheet with that rule
alone. -/
theorem RuleList.topLevel_agrees :
    (∀ context progress c, c.IsOrdinary →
      let list := topLevel context progress c
      let block := nested context progress.namespaces c
      list.rules = block.rules ∧ list.error? = block.error? ∧ list.cursor = block.cursor ∧
        list.state.namespaces = block.state.namespaces) ∧
    ∀ mode text, (∀ c, Cursor.ofText text = .ok c → c.IsOrdinary) → ∀ rule,
      Rule.ofText (.ofMode mode) .empty text = .ok rule ↔
        ∃ s, Stylesheet.ofText mode text = .ok s ∧ s.rules = [rule] := by
  constructor
  · intro context progress c hc
    obtain ⟨hitems, htail⟩ := topLevel_eq_nested context progress hc
    exact ⟨congrArg (List.filterMap Item.rule?) hitems, htail⟩
  · intro mode text htext rule
    rw [Rule.ofText, run_eq_ok_iff]
    constructor
    · rintro ⟨source, hsource, honly⟩
      have hc := htext _ (Cursor.ofText_eq_ok_iff.mpr ⟨source, hsource, rfl⟩)
      obtain ⟨herror, hrules⟩ := (rules_eq_singleton_iff hc).mpr honly
      exact ⟨_, Stylesheet.ofText_eq_ok_iff.mpr ⟨source, hsource, herror, rfl⟩, hrules⟩
    · rintro ⟨s, hs, hrules⟩
      obtain ⟨source, hsource, herror, rfl⟩ := Stylesheet.ofText_eq_ok_iff.mp hs
      have hc := htext _ (Cursor.ofText_eq_ok_iff.mpr ⟨source, hsource, rfl⟩)
      exact ⟨source, hsource, (rules_eq_singleton_iff hc).mp ⟨herror, hrules⟩⟩

/-- A grouping rule is read alike by itself, at the top level and in a block. -/
theorem RuleList.topLevel_agrees_media :
    ∃ c rule, Cursor.ofText "@media all{a{b:c}}" = .ok c ∧
      (topLevel (.ofMode .strict) ⟨.prologue, .empty⟩ c).rules =
        (nested (.ofMode .strict) .empty c).rules ∧
      Rule.ofText (.ofMode .strict) .empty "@media all{a{b:c}}" = .ok rule ∧
      ∃ s, Stylesheet.ofText .strict "@media all{a{b:c}}" = .ok s ∧ s.rules = [rule] := by
  obtain ⟨c, rule, hc, hordinary, hrule⟩ : ∃ c rule,
      Cursor.ofText "@media all{a{b:c}}" = .ok c ∧ decide c.IsOrdinary = true ∧
        Rule.ofText (.ofMode .strict) .empty "@media all{a{b:c}}" = .ok rule :=
    ⟨_, _, by cbv, by cbv, by cbv⟩
  have hall := of_decide_eq_true hordinary
  refine ⟨c, rule, hc, (topLevel_agrees.1 _ ⟨.prologue, .empty⟩ c hall).1, hrule, ?_⟩
  refine (topLevel_agrees.2 .strict _ (fun other hother => ?_) rule).mp hrule
  rw [hc] at hother
  cases hother
  exact hall

end Css
