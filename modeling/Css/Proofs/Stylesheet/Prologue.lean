import Css.Proofs.Rule.Namespace
import Css.Proofs.Rule.Nested
import Css.Stylesheet.Basic

/-!
# The prologue of a stylesheet

A run over a stylesheet is a row of steps, and what a step keeps is kept by the run. The prologue
ends once, bindings are made in the prologue only, and a statement of the prologue that the run
reaches later is a fault. So a stylesheet that is read falls into parts: marks and statements of the
prologue, then marks and rules. The rules are those of the parts, and the namespaces are their
bindings in order.
-/

namespace Css

open Css.Parser

/-- What stands at the top level of a stylesheet, with the two kinds of statements and the marks
kept apart. -/
inductive Part where
  | mark
  | charset
  | binding (key : Option String) (address : String)
  | rule (rule : Rule)

namespace Part

/-- The rule that a part is. -/
def rule? : Part → Option Rule
  | rule r => some r
  | _ => none

/-- The binding that a part makes. -/
def binding? : Part → Option (Option String × String)
  | binding key address => some (key, address)
  | _ => none

/-- The part is a statement of the prologue. -/
def IsStatement : Part → Prop
  | charset | binding _ _ => True
  | mark | rule _ => False

/-- The part stands between the cursors. -/
def Stands (context : Context) (namespaces : Namespaces) (c after : Cursor) : Part → Prop
  | mark => ∃ first, c.rest.dropWhile Component.isFiller = first :: after.rest ∧
      Item.isHtmlMark first = true ∧ after.stop = c.stop
  | charset => ∃ prelude, Item.IsStatement .charset prelude c after ∧
      Item.ofPrelude? .charset prelude = some .nothing
  | binding key address => ∃ prelude, Item.IsStatement .binding prelude c after ∧
      Item.ofPrelude? .binding prelude = some (.binding key address)
  | rule r => ∃ first rest, c.rest.dropWhile Component.isFiller = first :: rest ∧
      Item.isHtmlMark first = false ∧ AtRule.lateFault? first = none ∧
        Rule.parser context namespaces c = .ok r after

/-- The parts stand one behind the other between the cursors. -/
inductive Tile (context : Context) (namespaces : Namespaces) :
    List Part → Cursor → Cursor → Prop where
  | nil (c : Cursor) : Tile context namespaces [] c c
  | cons {part : Part} {parts : List Part} {c mid after : Cursor}
      (hpart : part.Stands context namespaces c mid)
      (hparts : Tile context namespaces parts mid after) :
      Tile context namespaces (part :: parts) c after

variable {context : Context} {namespaces others : Namespaces} {c after : Cursor}

/-- Only rules look prefixes up. -/
theorem Stands.of_rule?_eq_none {part : Part} (h : part.Stands context namespaces c after)
    (hpart : part.rule? = none) : part.Stands context others c after := by
  cases part with
  | mark => exact h
  | charset => exact h
  | binding key address => exact h
  | rule r => cases hpart

/-- What is no statement binds nothing. -/
theorem binding?_of_not_isStatement {part : Part} (h : ¬part.IsStatement) :
    part.binding? = none := by
  cases part with
  | mark => rfl
  | charset => rfl
  | binding key address => exact absurd trivial h
  | rule r => rfl

/-- Rules bind nothing. -/
theorem binding?_of_rule? {part : Part} {r : Rule} (h : part.rule? = some r) :
    part.binding? = none := by
  cases part with
  | rule r' => rfl
  | mark | charset | binding key address => cases h

/-- Without statements, there are no bindings. -/
theorem filterMap_binding?_eq_nil {parts : List Part} (h : ∀ part ∈ parts, ¬part.IsStatement) :
    parts.filterMap binding? = [] := by
  rw [List.filterMap_eq_nil_iff]
  exact fun part hpart => binding?_of_not_isStatement (h part hpart)

end Part

/-- A step reads a part. Statements stand in the prologue, and a rule is the end of it. -/
theorem Item.Stands.exists_part {context : Context} {progress next : Progress} {c after : Cursor}
    {item : Item} (h : Stands context progress c item next after) :
    ∃ part : Part, part.Stands context progress.namespaces c after ∧ part.rule? = item.rule? ∧
      next.namespaces = progress.namespaces.insertAll part.binding?.toList ∧
      (part.IsStatement → progress.phase = .prologue) ∧
      (progress.phase = .body ∨ part.rule?.isSome → next.phase = .body) := by
  cases h with
  | mark hrest hmark =>
      exact ⟨.mark, ⟨_, hrest, hmark, rfl⟩, rfl, rfl, nofun, by simp [Part.rule?]⟩
  | rule hrest hmark hlate hrule =>
      exact ⟨.rule _, ⟨_, _, hrest, hmark, hlate, hrule⟩, rfl, rfl, nofun, fun _ => rfl⟩
  | statement hphase hstatement hitem =>
      rename_i kind prelude
      cases item with
      | rule r => exact absurd hitem ofPrelude?_ne_rule
      | nothing =>
          have hkind := kind_of_ofPrelude?_eq_nothing hitem
          subst hkind
          exact ⟨.charset, ⟨prelude, hstatement, hitem⟩, rfl, rfl, fun _ => hphase,
            by simp [hphase, Part.rule?]⟩
      | binding key address =>
          have hkind := kind_of_ofPrelude? hitem
          subst hkind
          exact ⟨.binding key address, ⟨prelude, hstatement, hitem⟩, rfl, rfl, fun _ => hphase,
            by simp [hphase, Part.rule?]⟩

namespace RuleList

variable {context : Context} {progress last : Progress} {c after : Cursor} {items : List Item}

/-- A run over a stylesheet: some steps, and what they read. -/
abbrev Run (context : Context) : Progress → Cursor → List Item → Progress → Cursor → Prop :=
  Steps (fun c => !c.isExhausted) (Item.topLevelStep context)

/-- A run that has come this far stands in front of a component among rules: in the body, or in a
block that a grouping rule opens. -/
inductive Reaches (context : Context) (progress : Progress) (component : Component) (c : Cursor) :
    Prop where
  | body {rest : List Component} (hphase : progress.phase = .body)
      (hrest : c.rest.dropWhile Component.isFiller = component :: rest)
  | inside {inner : Cursor} (hopens : Rule.Opens context c inner)
      (h : Rule.Reaches context progress.namespaces component inner)

/-- A run is the beginning of the whole one. -/
theorem Run.topLevel_eq (h : Run context progress c items last after) :
    topLevel context progress c =
      { topLevel context last after with items := items ++ (topLevel context last after).items } :=
  h.collect_eq Item.shrinks_topLevelStep

/-- A statement of the prologue that is reached among rules is a fault at once. -/
theorem Reaches.topLevel_eq {component : Component} {f : Fault}
    (h : Reaches context progress component c) (hlate : AtRule.lateFault? component = some f) :
    ∃ after, topLevel context progress c =
      ⟨[], some ⟨f, component.start⟩, ⟨.body, progress.namespaces⟩, after⟩ := by
  cases h with
  | body hphase hrest =>
      have hmore : (!c.isExhausted) = true := by simp [Cursor.isExhausted_of_cons hrest]
      exact ⟨_, collect_of_error hmore (Item.topLevelStep_of_lateFault? hrest hphase hlate)⟩
  | inside hopens h =>
      have hmore : (!c.isExhausted) = true := by simp [hopens.isExhausted]
      obtain ⟨last, hinner⟩ := h.many_eq_error hlate
      rw [← Rule.nestedRules_eq] at hinner
      obtain ⟨after, hrule⟩ := hopens.ruleWith_of_error hinner
      obtain ⟨first, rest, hrest, hmark, hfirst⟩ := hopens.starts
      have hstep : Item.topLevelStep context progress c = _ :=
        Item.topLevelStep_of_rule hrest hmark (.inr hfirst)
      exact ⟨after, collect_of_error hmore
        (hstep.trans (Prod.ext rfl (map_eq_error_iff.mpr hrule)))⟩

/-- The parts of a run. -/
theorem Run.exists_tile (h : Run context progress c items last after) :
    ∃ parts, Part.Tile context last.namespaces parts c after ∧
      items.filterMap Item.rule? = parts.filterMap Part.rule? ∧
      last.namespaces = progress.namespaces.insertAll (parts.filterMap Part.binding?) ∧
      (progress.phase = .body → ∀ part ∈ parts, ¬part.IsStatement) ∧
      parts.Pairwise fun part later => part.rule?.isSome → ¬later.IsStatement := by
  induction h with
  | refl progress c => exact ⟨[], .nil c, rfl, rfl, by simp, .nil⟩
  | cons hmore hstep hrest ih =>
      obtain ⟨parts, htile, hrules, hnamespaces, hbody, hpairs⟩ := ih
      obtain ⟨part, hpart, hrule, hbinding, hstatement, hphase⟩ :=
        (Item.topLevelStep_eq_ok_iff.mp hstep).exists_part
      refine ⟨part :: parts, .cons ?_ htile, ?_, ?_, ?_, ?_⟩
      · cases hr : part.rule? with
        | none => exact hpart.of_rule?_eq_none hr
        | some r =>
            have hlater := hbody (hphase (.inr (by simp [hr])))
            rw [hnamespaces, hbinding, Part.filterMap_binding?_eq_nil hlater,
              Part.binding?_of_rule? hr]
            exact hpart
      · rw [List.filterMap_cons, List.filterMap_cons, ← hrule, hrules]
      · rw [hnamespaces, hbinding, ← Namespaces.insertAll_append, List.filterMap_cons]
        cases part.binding? <;> rfl
      · intro hstart other hother
        rcases List.mem_cons.mp hother with rfl | hmem
        · exact fun h => by simp [hstatement h] at hstart
        · exact hbody (hphase (.inl hstart)) other hmem
      · exact .cons (fun other hother hr => hbody (hphase (.inr hr)) other hother) hpairs

/-- A run without a fault comes to the end. -/
theorem exists_run (h : (topLevel context progress c).error? = none) :
    Run context progress c (topLevel context progress c).items
        (topLevel context progress c).state (topLevel context progress c).cursor ∧
      (topLevel context progress c).cursor.isExhausted = true := by
  obtain ⟨last, after, hrun, ⟨hmore, -, hlast, hafter⟩ | ⟨e, -, herror, -⟩⟩ :=
    steps_collect (fun c => !c.isExhausted) Item.shrinks_topLevelStep progress c
  · rw [topLevel, hlast, hafter]
    exact ⟨hrun, by simpa using hmore⟩
  · rw [topLevel, herror] at h
    cases h

end RuleList

namespace Stylesheet

/-- A text is a stylesheet if its tokens can be read and the run over it meets no fault. -/
theorem ofText_eq_ok_iff {mode : Mode} {text : String} {s : Stylesheet} :
    ofText mode text = .ok s ↔ ∃ source, Source.ofString text = .ok source ∧
      let list := RuleList.topLevel (.ofMode mode) ⟨.prologue, .empty⟩ (.ofSource source)
      list.error? = none ∧
        s = ⟨list.rules, source.sourceMapUrl?, source.sourceUrl?, list.state.namespaces, mode⟩ := by
  unfold ofText
  cases Source.ofString text with
  | error e => simp
  | ok source =>
      simp only [Except.ok.injEq, exists_eq_left']
      cases (RuleList.topLevel (.ofMode mode) ⟨.prologue, .empty⟩ (.ofSource source)).error? with
      | none => simp [eq_comm]
      | some e => simp

/-- A stylesheet that is read consists of parts: statements of the prologue, and behind all of them
its rules. Its namespaces are the bindings in order. -/
theorem exists_tile_of_ofText {mode : Mode} {text : String} {s : Stylesheet}
    (h : ofText mode text = .ok s) :
    ∃ source parts after, Source.ofString text = .ok source ∧
      Part.Tile (.ofMode mode) s.namespaces parts (.ofSource source) after ∧
      after.isExhausted = true ∧
      (parts.Pairwise fun part later => part.rule?.isSome → ¬later.IsStatement) ∧
      s.rules = parts.filterMap Part.rule? ∧
      s.namespaces = .ofList (parts.filterMap Part.binding?) := by
  obtain ⟨source, hsource, herror, rfl⟩ := ofText_eq_ok_iff.mp h
  obtain ⟨hrun, hend⟩ := RuleList.exists_run herror
  obtain ⟨parts, htile, hrules, hnamespaces, -, hpairs⟩ := hrun.exists_tile
  exact ⟨source, parts, _, hsource, htile, hend, hpairs, hrules, hnamespaces⟩

end Stylesheet

/-- The prologue of a stylesheet. At every stage of a run, the body does not become the prologue
again, only a binding in the prologue changes the namespaces, and it binds its own prefix only, and
a statement of the prologue that the run reaches among rules, at any depth, ends the run with its
fault. So in a stylesheet that is read all statements precede the rules and none is a rule, and the
namespaces are the bindings in order, each of which overwrites the address of its prefix and keeps
its place. -/
theorem RuleList.topLevel_prologue :
    (∀ context namespaces c items progress mid,
      Run context ⟨.prologue, namespaces⟩ c items progress mid →
        let next := Item.topLevelStep context progress mid
        (progress.phase = .body → next.1.phase = .body) ∧
        (next.1.namespaces ≠ progress.namespaces → progress.phase = .prologue ∧
          ∃ prelude key address after, Item.IsStatement .binding prelude mid after ∧
            Item.ofPrelude? .binding prelude = some (.binding key address) ∧
            next = (⟨.prologue, progress.namespaces.insert key address⟩,
              .ok (.binding key address) after)) ∧
        ∀ component f, Reaches context progress component mid →
          AtRule.lateFault? component = some f →
          ∃ after, topLevel context ⟨.prologue, namespaces⟩ c =
            ⟨items, some ⟨f, component.start⟩, ⟨.body, progress.namespaces⟩, after⟩) ∧
    (∀ mode text s, Stylesheet.ofText mode text = .ok s → ∃ source parts after,
      Source.ofString text = .ok source ∧
      Part.Tile (.ofMode mode) s.namespaces parts (.ofSource source) after ∧
      after.isExhausted = true ∧
      (parts.Pairwise fun part later => part.rule?.isSome → ¬later.IsStatement) ∧
      s.rules = parts.filterMap Part.rule? ∧
      s.namespaces = .ofList (parts.filterMap Part.binding?)) ∧
    ∀ (n : Namespaces) key address,
      (∀ k, (n.insert key address).get? k = if k = key then some address else n.get? k) ∧
        (n.insert key address).keys = if n.binds key then n.keys else n.keys ++ [key] := by
  refine ⟨?_, fun mode text s h => Stylesheet.exists_tile_of_ofText h, ?_⟩
  · intro context namespaces c items progress mid hrun
    refine ⟨Item.phase_topLevelStep, Item.namespaces_topLevelStep, ?_⟩
    intro component f hreaches hlate
    obtain ⟨after, hend⟩ := hreaches.topLevel_eq hlate
    exact ⟨after, by rw [hrun.topLevel_eq, hend, List.append_nil]⟩
  · intro n key address
    exact ⟨fun k => n.get?_insert key k address, n.keys_insert key address⟩

/-- A charset behind a rule ends the run. -/
theorem RuleList.topLevel_prologue_late_charset :
    ∃ source rule after, Source.ofString "@media all{}@charset \"x\";" = .ok source ∧
      topLevel (.ofMode .strict) ⟨.prologue, .empty⟩ (.ofSource source) =
        ⟨[.rule rule], some ⟨.lateCharset, ⟨12, 1, 13⟩⟩, ⟨.body, .empty⟩, after⟩ := by
  obtain ⟨source, rule, mid, component, rest, hsource, hmore, hstep, hrest, hlate, hstart⟩ :
      ∃ source rule mid component rest, Source.ofString "@media all{}@charset \"x\";" = .ok source ∧
        (Cursor.ofSource source).isExhausted = false ∧
        Item.topLevelStep (.ofMode .strict) ⟨.prologue, .empty⟩ (.ofSource source) =
          (⟨.body, .empty⟩, .ok (.rule rule) mid) ∧
        mid.rest.dropWhile Component.isFiller = component :: rest ∧
        AtRule.lateFault? component = some .lateCharset ∧ component.start = ⟨12, 1, 13⟩ :=
    ⟨_, _, _, _, _, by cbv, by cbv, by cbv, by cbv, by cbv, by cbv⟩
  have hrun : Run (.ofMode .strict) ⟨.prologue, .empty⟩ (.ofSource source) [.rule rule]
      ⟨.body, .empty⟩ mid := .cons (by simp [hmore]) hstep (.refl _ mid)
  obtain ⟨after, hend⟩ :=
    (topLevel_prologue.1 _ _ _ _ _ _ hrun).2.2 component .lateCharset (.body rfl hrest) hlate
  exact ⟨source, rule, after, hsource, by rw [hend, hstart]⟩

end Css
