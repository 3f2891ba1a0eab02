import Css.Proofs.Parser.Significant
import Css.Proofs.Rule.Dispatch

/-!
# The items of a stylesheet

`Item.Stands` says what a step at the top level reads: a mark, a statement of the prologue, or a
rule. The executable step succeeds exactly where an item stands, `topLevelStep_eq_ok_iff`. Whether
it succeeds or not, it goes from the prologue to the body and never back, and nothing but a binding
changes the table of namespaces.
-/

namespace Css

open Css.Parser

open Component (significant significant_eq_nil_iff significant_eq_cons_iff)

namespace Rule

/-- What ends a statement: a semicolon, or the end. -/
def Ends (ending rest : List Component) : Prop :=
  ending = [] ∧ rest = [] ∨ ∃ t : Token, t.kind = .semicolon ∧ ending = [.leaf t]

/-- In front of the end of a statement there is a delimiter, or nothing. -/
theorem Ends.isDelimiter_head? {ending rest : List Component} (h : Ends ending rest) :
    ∀ component ∈ (ending ++ rest).head?, isDelimiter [';', '{'] component = true := by
  obtain ⟨rfl, rfl⟩ | ⟨⟨_, text, start⟩, rfl, rfl⟩ := h
  · simp
  · rintro component ⟨⟩
    rfl

/-- A statement ends at a semicolon or at the end. -/
theorem statementEnd_eq_ok_none_iff {c after : Cursor}
    (hfirst : ∀ component ∈ c.rest.head?, isDelimiter [';', '{'] component = true) :
    statementEnd c = .ok none after ↔
      after.stop = c.stop ∧ ∃ ending, c.rest = ending ++ after.rest ∧ Ends ending after.rest := by
  obtain ⟨components, stop⟩ := c
  obtain ⟨others, stop'⟩ := after
  cases components with
  | nil =>
      have hrun : statementEnd ⟨[], stop⟩ = .ok none ⟨[], stop⟩ := rfl
      simp only [hrun, EStateM.Result.ok.injEq, Cursor.mk.injEq, true_and]
      constructor
      · rintro ⟨rfl, rfl⟩
        exact ⟨rfl, [], rfl, .inl ⟨rfl, rfl⟩⟩
      · rintro ⟨rfl, ending, hending, -⟩
        exact ⟨(List.append_eq_nil_iff.mp hending.symm).2.symm, rfl⟩
  | cons first rest =>
      have hfiller := isFiller_of_isDelimiter (hfirst first rfl)
      have hrun : (∃ t : Token, t.kind = .semicolon ∧ first = .leaf t) ∧
            statementEnd ⟨first :: rest, stop⟩ = .ok none ⟨rest, stop⟩ ∨
          (∀ t : Token, first = .leaf t → t.kind ≠ .semicolon) ∧
            statementEnd ⟨first :: rest, stop⟩ = .ok (some first) ⟨rest, stop⟩ := by
        cases first with
        | group opening contents closing => exact .inr ⟨nofun, rfl⟩
        | leaf t =>
            obtain ⟨kind, text, start⟩ := t
            cases kind
            case semicolon => exact .inl ⟨⟨_, rfl, rfl⟩, rfl⟩
            all_goals first
              | exact .inr ⟨by rintro _ ⟨⟩; simp, rfl⟩
              | cases hfiller
      obtain ⟨⟨t, ht, rfl⟩, hrun⟩ | ⟨hother, hrun⟩ := hrun
      · rw [hrun]
        constructor
        · rintro ⟨⟩
          exact ⟨rfl, [_], rfl, .inr ⟨t, ht, rfl⟩⟩
        · rintro ⟨rfl, ending, hending, ⟨rfl, rfl⟩ | ⟨u, -, rfl⟩⟩
          · cases hending
          · cases hending
            rfl
      · rw [hrun]
        constructor
        · rintro ⟨⟩
        · rintro ⟨rfl, ending, hending, ⟨rfl, rfl⟩ | ⟨u, hu, rfl⟩⟩
          · cases hending
          · cases hending
            exact absurd hu (hother u rfl)

end Rule

namespace Item

/-- The item that a statement of the prologue is, from its kind and what stands behind its
keyword. -/
def ofPrelude? (kind : AtRule) (prelude : List Component) : Option Item :=
  match kind, significant prelude with
  | .charset, [name] => (stringValue? name).map fun _ => .nothing
  | .binding, [address] => address.address?.map (.binding none)
  | .binding, [key, address] => do return .binding (some (← identName? key)) (← address.address?)
  | _, _ => none

variable {context : Context} {progress next : Progress} {c after : Cursor} {item : Item}

/-- Only a binding binds. -/
theorem kind_of_ofPrelude? {kind : AtRule} {prelude : List Component} {key : Option String}
    {address : String} (h : ofPrelude? kind prelude = some (.binding key address)) :
    kind = .binding := by
  unfold ofPrelude? at h
  split at h
  · simp at h
  · rfl
  · rfl
  · cases h

/-- Only a charset leaves nothing behind. -/
theorem kind_of_ofPrelude?_eq_nothing {kind : AtRule} {prelude : List Component}
    (h : ofPrelude? kind prelude = some .nothing) : kind = .charset := by
  unfold ofPrelude? at h
  split at h
  · rfl
  · simp at h
  · simp [Option.bind_eq_some_iff] at h
  · cases h

/-- A statement of the prologue is no rule. -/
theorem ofPrelude?_ne_rule {kind : AtRule} {prelude : List Component} {r : Rule} :
    ofPrelude? kind prelude ≠ some (.rule r) := by
  unfold ofPrelude?
  split <;> simp [Option.bind_eq_some_iff]

/-- A charset is read from what is one. -/
theorem entirely_charsetParser_eq_ok_iff :
    entirely charsetParser c = .ok item after ↔
      ofPrelude? .charset c.rest = some item ∧ after = ⟨[], c.stop⟩ := by
  rw [entirely_eq_ok_iff]
  constructor
  · rintro ⟨mid, hrun, hend, rfl⟩
    obtain ⟨name, behind, hname, hpure⟩ := bind_eq_ok.mp hrun
    cases hpure
    obtain ⟨component, hcomponent, hvalue, hlast⟩ :=
      entirely_expect_eq_ok_iff.mp (entirely_eq_ok_iff.mpr ⟨mid, hname, hend, rfl⟩)
    exact ⟨by simp [ofPrelude?, hcomponent, hvalue], hlast⟩
  · rintro ⟨hitem, rfl⟩
    unfold ofPrelude? at hitem
    split at hitem
    · rename_i component _ hcomponent
      obtain ⟨name, hvalue, rfl⟩ := Option.map_eq_some_iff.mp hitem
      obtain ⟨mid, hname, hend, hlast⟩ := entirely_eq_ok_iff.mp
        (entirely_expect_eq_ok_iff.mpr ⟨component, hcomponent, hvalue, rfl⟩)
      exact ⟨mid, bind_eq_ok.mpr ⟨name, mid, hname, rfl⟩, hend, hlast⟩
    · contradiction
    · contradiction
    · cases hitem

/-- A binding is read from what is one. -/
theorem entirely_bindingParser_eq_ok_iff :
    entirely bindingParser c = .ok item after ↔
      ofPrelude? .binding c.rest = some item ∧ after = ⟨[], c.stop⟩ := by
  rw [entirely_eq_ok_iff]
  constructor
  · rintro ⟨mid, hrun, hend, rfl⟩
    obtain ⟨key, behind, hkey, hrest⟩ := bind_eq_ok.mp hrun
    obtain ⟨address, last, haddress, hpure⟩ := bind_eq_ok.mp hrest
    cases hpure
    obtain ⟨component, rest, hcomponent, hvalue, rfl⟩ := urlOrString_eq_ok_iff.mp haddress
    have hnone := significant_eq_nil_iff.mpr ((Cursor.isExhausted_iff _).mp hend)
    have hlast := significant_eq_cons_iff.mpr ⟨rest, hcomponent, hnone⟩
    rcases attempt_eq_ok_iff.mp hkey with ⟨name, rfl, hident⟩ | ⟨rfl, rfl, -⟩
    · obtain ⟨first, others, hfirst, hname, rfl⟩ := expect_eq_ok_iff.mp hident
      have hboth := significant_eq_cons_iff.mpr ⟨others, hfirst, hlast⟩
      exact ⟨by simp [ofPrelude?, hboth, hname, hvalue], rfl⟩
    · exact ⟨by simp [ofPrelude?, hlast, hvalue], rfl⟩
  · rintro ⟨hitem, rfl⟩
    unfold ofPrelude? at hitem
    split at hitem
    · contradiction
    · rename_i component _ hcomponent
      obtain ⟨address, haddress, rfl⟩ := Option.map_eq_some_iff.mp hitem
      obtain ⟨rest, hrest, hnone⟩ := significant_eq_cons_iff.mp hcomponent
      have hkey : attempt ident c = .ok none c := by
        refine attempt_eq_ok_iff.mpr (.inr ⟨rfl, rfl, ?_⟩)
        simp [ident, expect_eq, hrest, identName?_of_address? haddress]
      have hread := urlOrString_eq_ok_iff.mpr ⟨component, rest, hrest, haddress, rfl⟩
      refine ⟨⟨rest, c.stop⟩, ?_, ?_, rfl⟩
      · exact bind_eq_ok.mpr ⟨none, c, hkey, bind_eq_ok.mpr ⟨address, _, hread, rfl⟩⟩
      · exact (Cursor.isExhausted_iff _).mpr (significant_eq_nil_iff.mp hnone)
    · rename_i key component _ hcomponents
      obtain ⟨name, hname, hitem⟩ := Option.bind_eq_some_iff.mp hitem
      obtain ⟨address, haddress, hitem⟩ := Option.bind_eq_some_iff.mp hitem
      cases hitem
      obtain ⟨behind, hbehind, hcomponent⟩ := significant_eq_cons_iff.mp hcomponents
      obtain ⟨rest, hrest, hnone⟩ := significant_eq_cons_iff.mp hcomponent
      have hkey : attempt ident c = .ok (some name) ⟨behind, c.stop⟩ :=
        attempt_eq_ok_iff.mpr (.inl ⟨name, rfl, expect_eq_ok_iff.mpr
          ⟨key, behind, hbehind, hname, rfl⟩⟩)
      have hread : urlOrString ⟨behind, c.stop⟩ = .ok address ⟨rest, c.stop⟩ :=
        urlOrString_eq_ok_iff.mpr ⟨component, rest, hrest, haddress, rfl⟩
      refine ⟨⟨rest, c.stop⟩, ?_, ?_, rfl⟩
      · exact bind_eq_ok.mpr ⟨some name, _, hkey, bind_eq_ok.mpr ⟨address, _, hread, rfl⟩⟩
      · exact (Cursor.isExhausted_iff _).mpr (significant_eq_nil_iff.mp hnone)
    · cases hitem

/-- A statement of the prologue consists of its keyword, its prelude, and its end. -/
theorem statementParser_eq_ok_iff {contents : Parser Item} {item? : List Component → Option Item}
    (hcontents : ∀ {c item after}, entirely contents c = .ok item after ↔
      item? c.rest = some item ∧ after = ⟨[], c.stop⟩) :
    statementParser contents c = .ok item after ↔ ∃ keyword prelude ending,
      c.rest.dropWhile Component.isFiller = keyword :: (prelude ++ (ending ++ after.rest)) ∧
      (∀ component ∈ prelude, isDelimiter [';', '{'] component = false) ∧
      Rule.Ends ending after.rest ∧ after.stop = c.stop ∧ item? prelude = some item := by
  constructor
  · intro hrun
    obtain ⟨keyword, mid, hnext, hrun⟩ := bind_eq_ok.mp hrun
    obtain ⟨rest, hrest, rfl⟩ := next_eq_ok_iff.mp hnext
    obtain ⟨found, last, huntil, hrun⟩ := bind_eq_ok.mp hrun
    obtain ⟨rfl, _, hread⟩ := untilBefore_eq_ok.mp huntil
    obtain ⟨body, behind, hend, hrun⟩ := bind_eq_ok.mp hrun
    cases body with
    | some body => cases hrun
    | none =>
        cases hrun
        rw [Cursor.read_skip] at hread
        obtain ⟨hstop, ending, hending, hends⟩ :=
          (Rule.statementEnd_eq_ok_none_iff (Cursor.isDelimiter_head?_skip _)).mp hend
        refine ⟨keyword, _, ending, ?_, ?_, hends, hstop, (hcontents.mp hread).1⟩
        · rw [hrest, ← hending]
          exact congrArg _ List.takeWhile_append_dropWhile.symm
        · intro component hmem
          simpa using List.mem_takeWhile_imp hmem
  · rintro ⟨keyword, prelude, ending, hrest, hprelude, hends, hstop, hitem⟩
    have huntil := untilBefore_append c.stop hprelude hends.isDelimiter_head?
      (hcontents.mpr ⟨hitem, rfl⟩)
    have hend : Rule.statementEnd ⟨ending ++ after.rest, c.stop⟩ = .ok none after := by
      refine (Rule.statementEnd_eq_ok_none_iff ?_).mpr ⟨hstop, ending, rfl, hends⟩
      exact hends.isDelimiter_head?
    refine bind_eq_ok.mpr ⟨keyword, _, next_eq_ok_iff.mpr ⟨_, hrest, rfl⟩, ?_⟩
    exact bind_eq_ok.mpr ⟨item, _, huntil, bind_eq_ok.mpr ⟨none, after, hend, rfl⟩⟩

/-- A statement of the prologue: a keyword of the given kind, a prelude without a delimiter, and a
semicolon or the end. -/
structure IsStatement (kind : AtRule) (prelude : List Component) (c after : Cursor) : Prop where
  starts : ∃ keyword ending,
    c.rest.dropWhile Component.isFiller = keyword :: (prelude ++ (ending ++ after.rest)) ∧
      AtRule.ofComponent? keyword = some kind ∧ Rule.Ends ending after.rest
  undelimited : ∀ component ∈ prelude, isDelimiter [';', '{'] component = false
  stop : after.stop = c.stop

/-- What a successful step at the top level of a stylesheet reads. -/
inductive Stands (context : Context) : Progress → Cursor → Item → Progress → Cursor → Prop where
  | mark {progress : Progress} {c : Cursor} {first : Component} {rest : List Component}
      (hrest : c.rest.dropWhile Component.isFiller = first :: rest)
      (hmark : isHtmlMark first = true) :
      Stands context progress c .nothing progress ⟨rest, c.stop⟩
  | statement {progress : Progress} {c after : Cursor} {kind : AtRule} {prelude : List Component}
      {item : Item} (hphase : progress.phase = .prologue)
      (hstatement : IsStatement kind prelude c after)
      (hitem : ofPrelude? kind prelude = some item) :
      Stands context progress c item (item.apply progress) after
  | rule {progress : Progress} {c after : Cursor} {first : Component} {rest : List Component}
      {rule : Rule} (hrest : c.rest.dropWhile Component.isFiller = first :: rest)
      (hmark : isHtmlMark first = false) (hlate : AtRule.lateFault? first = none)
      (hrule : Rule.parser context progress.namespaces c = .ok rule after) :
      Stands context progress c (.rule rule) ⟨.body, progress.namespaces⟩ after

/-- A statement of the prologue is what would be late among rules. -/
theorem statement?_eq_none_iff {component : Component} :
    statement? component = none ↔ AtRule.lateFault? component = none := by
  unfold statement? AtRule.lateFault?
  cases AtRule.ofComponent? component with
  | none => simp
  | some kind => cases kind <;> simp

/-- The statement of a component is read from what is one. -/
theorem entirely_statement?_eq_ok_iff {component : Component} {contents : Parser Item}
    (h : statement? component = some contents) :
    ∃ kind, AtRule.ofComponent? component = some kind ∧ ∀ {c item after},
      entirely contents c = .ok item after ↔
        ofPrelude? kind c.rest = some item ∧ after = ⟨[], c.stop⟩ := by
  unfold statement? at h
  split at h
  · rename_i hkind
    cases h
    exact ⟨.charset, hkind, entirely_charsetParser_eq_ok_iff⟩
  · rename_i hkind
    cases h
    exact ⟨.binding, hkind, entirely_bindingParser_eq_ok_iff⟩
  · cases h

/-- What has the prelude of a statement is read as the statement. -/
theorem statement?_of_ofPrelude? {component : Component} {kind : AtRule}
    {prelude : List Component} (hkind : AtRule.ofComponent? component = some kind)
    (hitem : ofPrelude? kind prelude = some item) :
    ∃ contents, statement? component = some contents ∧ ∀ {c item after},
      entirely contents c = .ok item after ↔
        ofPrelude? kind c.rest = some item ∧ after = ⟨[], c.stop⟩ := by
  unfold ofPrelude? at hitem
  split at hitem
  · exact ⟨charsetParser, by simp [statement?, hkind], entirely_charsetParser_eq_ok_iff⟩
  · exact ⟨bindingParser, by simp [statement?, hkind], entirely_bindingParser_eq_ok_iff⟩
  · exact ⟨bindingParser, by simp [statement?, hkind], entirely_bindingParser_eq_ok_iff⟩
  · cases hitem

section

variable {first : Component} {rest : List Component}
  (hrest : c.rest.dropWhile Component.isFiller = first :: rest)

include hrest

/-- In the prologue, a statement is read as one. -/
theorem step_of_statement? {contents : Parser Item} (hphase : progress.phase = .prologue)
    (h : statement? first = some contents) :
    step context progress c =
      match statementParser contents c with
      | .ok item after => (item.apply progress, .ok item after)
      | .error e after => (progress, .error e after) := by
  cases hparser : statementParser contents c <;> simp [step, Cursor.skip, hrest, hphase, h, hparser]

/-- Everything else is read as a rule, and the prologue is over. -/
theorem step_of_rule (h : progress.phase = .body ∨ AtRule.lateFault? first = none) :
    step context progress c =
      (⟨.body, progress.namespaces⟩,
        (Item.rule <$> Rule.parser context progress.namespaces) c) := by
  rw [← statement?_eq_none_iff] at h
  rcases h with h | h <;> simp [step, Cursor.skip, hrest, h]

/-- A mark is passed. -/
theorem topLevelStep_of_isHtmlMark (hmark : isHtmlMark first = true) :
    topLevelStep context progress c = (progress, .ok .nothing ⟨rest, c.stop⟩) := by
  simp [topLevelStep, Cursor.skip, hrest, hmark]

/-- What is no mark is read as an item. -/
theorem topLevelStep_eq_step (hmark : isHtmlMark first = false) :
    topLevelStep context progress c = step context progress c := by
  simp [topLevelStep, Cursor.skip, hrest, hmark]

/-- In the prologue of a stylesheet, a statement is read as one. -/
theorem topLevelStep_of_statement? {contents : Parser Item} (hmark : isHtmlMark first = false)
    (hphase : progress.phase = .prologue) (h : statement? first = some contents) :
    topLevelStep context progress c =
      match statementParser contents c with
      | .ok item after => (item.apply progress, .ok item after)
      | .error e after => (progress, .error e after) :=
  (topLevelStep_eq_step hrest hmark).trans (step_of_statement? hrest hphase h)

/-- Everything else in a stylesheet is read as a rule, and the prologue is over. -/
theorem topLevelStep_of_rule (hmark : isHtmlMark first = false)
    (h : progress.phase = .body ∨ AtRule.lateFault? first = none) :
    topLevelStep context progress c =
      (⟨.body, progress.namespaces⟩,
        (Item.rule <$> Rule.parser context progress.namespaces) c) :=
  (topLevelStep_eq_step hrest hmark).trans (step_of_rule hrest h)

end

/-- What is read as a rule starts with no statement of the prologue. -/
theorem lateFault?_of_rule {namespaces : Namespaces} {first : Component}
    {rest : List Component} {rule : Rule}
    (hrest : c.rest.dropWhile Component.isFiller = first :: rest)
    (hrule : Rule.parser context namespaces c = .ok rule after) :
    AtRule.lateFault? first = none := by
  cases hlate : AtRule.lateFault? first with
  | none => rfl
  | some f =>
      rw [Rule.parser, Rule.ruleWith_of_lateFault? hrest hlate] at hrule
      cases hrule

/-- Where nothing is left, there is no rule. -/
theorem step_of_isExhausted (h : c.isExhausted = true) :
    step context progress c =
      (⟨.body, progress.namespaces⟩, .error ⟨.endOfInput, c.stop⟩ ⟨[], c.stop⟩) := by
  have hrest := c.isExhausted_iff.mp h
  have hrule : (Item.rule <$> Rule.parser context progress.namespaces) c =
      .error ⟨.endOfInput, c.stop⟩ ⟨[], c.stop⟩ :=
    map_eq_error_iff.mpr (Rule.ruleWith_of_isExhausted h)
  simp [step, Cursor.skip, hrest, hrule]

/-- The contents of a statement of the prologue are no rule. -/
theorem statementParser_ne_rule {first : Component} {contents : Parser Item} {rule : Rule}
    (h : statement? first = some contents) :
    statementParser contents c ≠ .ok (.rule rule) after := by
  intro hparser
  obtain ⟨kind, -, hread⟩ := entirely_statement?_eq_ok_iff h
  obtain ⟨_, _, _, -, -, -, -, hitem⟩ := (statementParser_eq_ok_iff hread).mp hparser
  exact ofPrelude?_ne_rule hitem

/-- A step reads a rule where the rule is read by itself. -/
theorem step_eq_ok_rule_iff {rule : Rule} :
    step context progress c = (next, .ok (.rule rule) after) ↔
      next = ⟨.body, progress.namespaces⟩ ∧
        Rule.parser context progress.namespaces c = .ok rule after := by
  cases hrest : c.rest.dropWhile Component.isFiller with
  | nil =>
      have hend := c.isExhausted_iff.mpr hrest
      rw [step_of_isExhausted hend, Rule.parser, Rule.ruleWith_of_isExhausted hend]
      simp
  | cons first rest =>
      by_cases hbody : progress.phase = .body ∨ AtRule.lateFault? first = none
      · rw [step_of_rule hrest hbody, Prod.mk.injEq, map_eq_ok_iff]
        constructor
        · rintro ⟨rfl, _, hrule, ⟨⟩⟩
          exact ⟨rfl, hrule⟩
        · rintro ⟨rfl, hrule⟩
          exact ⟨rfl, rule, hrule, rfl⟩
      · obtain ⟨hphase, hlate⟩ := not_or.mp hbody
        have hprologue : progress.phase = .prologue := by
          cases h : progress.phase with
          | prologue => rfl
          | body => exact absurd h hphase
        obtain ⟨contents, hcontents⟩ :=
          Option.ne_none_iff_exists'.mp (mt statement?_eq_none_iff.mp hlate)
        rw [step_of_statement? hrest hprologue hcontents]
        constructor
        · intro h
          split at h
          · rename_i hparser
            cases h
            exact absurd hparser (statementParser_ne_rule hcontents)
          · cases h
        · rintro ⟨-, hrule⟩
          exact absurd (lateFault?_of_rule hrest hrule) hlate

/-- A mark is no keyword. -/
theorem isHtmlMark_of_ofComponent? {component : Component} {kind : AtRule}
    (h : AtRule.ofComponent? component = some kind) : isHtmlMark component = false := by
  unfold AtRule.ofComponent? at h
  split at h
  · rfl
  · cases h

/-- Nothing can be read where nothing is left. -/
theorem topLevelStep_of_isExhausted (h : c.isExhausted = true) :
    topLevelStep context progress c =
      (⟨.body, progress.namespaces⟩, .error ⟨.endOfInput, c.stop⟩ ⟨[], c.stop⟩) := by
  have hstep : topLevelStep context progress c = step context progress c := by
    simp [topLevelStep, Cursor.skip, c.isExhausted_iff.mp h]
  exact hstep.trans (step_of_isExhausted h)

/-- A step finds nothing, a mark, a statement of the prologue, or a rule. -/
theorem topLevelStep_cases (context : Context) (progress : Progress) (c : Cursor) :
    c.isExhausted = true ∧ topLevelStep context progress c =
        (⟨.body, progress.namespaces⟩, .error ⟨.endOfInput, c.stop⟩ ⟨[], c.stop⟩) ∨
      ∃ first rest, c.rest.dropWhile Component.isFiller = first :: rest ∧
        (isHtmlMark first = true ∧
            topLevelStep context progress c = (progress, .ok .nothing ⟨rest, c.stop⟩) ∨
          (∃ contents, progress.phase = .prologue ∧ statement? first = some contents ∧
            topLevelStep context progress c =
              match statementParser contents c with
              | .ok item after => (item.apply progress, .ok item after)
              | .error e after => (progress, .error e after)) ∨
          isHtmlMark first = false ∧ topLevelStep context progress c =
            (⟨.body, progress.namespaces⟩,
              (Item.rule <$> Rule.parser context progress.namespaces) c)) := by
  cases hrest : c.rest.dropWhile Component.isFiller with
  | nil =>
      have hexhausted := c.isExhausted_iff.mpr hrest
      exact .inl ⟨hexhausted, topLevelStep_of_isExhausted hexhausted⟩
  | cons first rest =>
      refine .inr ⟨first, rest, rfl, ?_⟩
      cases hmark : isHtmlMark first with
      | true => exact .inl ⟨rfl, topLevelStep_of_isHtmlMark hrest hmark⟩
      | false =>
          refine .inr ?_
          cases hphase : progress.phase with
          | body => exact .inr ⟨rfl, topLevelStep_of_rule hrest hmark (.inl hphase)⟩
          | prologue =>
              cases hstatement : statement? first with
              | none =>
                  have hlate := statement?_eq_none_iff.mp hstatement
                  exact .inr ⟨rfl, topLevelStep_of_rule hrest hmark (.inr hlate)⟩
              | some contents =>
                  exact .inl ⟨contents, rfl, rfl,
                    topLevelStep_of_statement? hrest hmark hphase hstatement⟩

/-- A step succeeds exactly where an item stands. -/
theorem topLevelStep_eq_ok_iff :
    topLevelStep context progress c = (next, .ok item after) ↔
      Stands context progress c item next after := by
  constructor
  · intro h
    rcases topLevelStep_cases context progress c with ⟨-, hstep⟩ | ⟨first, rest, hrest,
      ⟨hmark, hstep⟩ | ⟨contents, hphase, hcontents, hstep⟩ | ⟨hmark, hstep⟩⟩
    · rw [hstep] at h
      cases h
    · rw [hstep] at h
      cases h
      exact .mark hrest hmark
    · obtain ⟨kind, hkind, hread⟩ := entirely_statement?_eq_ok_iff hcontents
      rw [hstep] at h
      split at h
      · rename_i hparser
        cases h
        obtain ⟨keyword, prelude, ending, hkeyword, hprelude, hends, hstop, hitem⟩ :=
          (statementParser_eq_ok_iff hread).mp hparser
        rw [hrest] at hkeyword
        cases hkeyword
        exact .statement hphase ⟨⟨first, ending, hrest, hkind, hends⟩, hprelude, hstop⟩ hitem
      · cases h
    · rw [hstep, Prod.mk.injEq] at h
      obtain ⟨rfl, hmap⟩ := h
      obtain ⟨rule, hrule, rfl⟩ := map_eq_ok_iff.mp hmap
      exact .rule hrest hmark (lateFault?_of_rule hrest hrule) hrule
  · intro hstands
    cases hstands with
    | mark hrest hmark => exact topLevelStep_of_isHtmlMark hrest hmark
    | statement hphase hstatement hitem =>
        rename_i kind prelude
        obtain ⟨⟨keyword, ending, hrest, hkind, hends⟩, hprelude, hstop⟩ := hstatement
        obtain ⟨contents, hcontents, hread⟩ := statement?_of_ofPrelude? hkind hitem
        have hparser := (statementParser_eq_ok_iff hread).mpr
          ⟨keyword, prelude, ending, hrest, hprelude, hends, hstop, hitem⟩
        rw [topLevelStep_of_statement? hrest (isHtmlMark_of_ofComponent? hkind) hphase hcontents,
          hparser]
    | rule hrest hmark hlate hrule =>
        rw [topLevelStep_of_rule hrest hmark (.inr hlate), map_eq_ok_iff.mpr ⟨_, hrule, rfl⟩]

/-- A step that fails changes no namespaces, and ends the prologue at most. -/
theorem topLevelStep_of_error {e : ParseError}
    (h : topLevelStep context progress c = (next, .error e after)) :
    next = progress ∨ next = ⟨.body, progress.namespaces⟩ := by
  rcases topLevelStep_cases context progress c with ⟨-, hstep⟩ | ⟨first, rest, -,
    ⟨-, hstep⟩ | ⟨contents, -, -, hstep⟩ | ⟨-, hstep⟩⟩
  · rw [hstep] at h
    cases h
    exact .inr rfl
  · rw [hstep] at h
    cases h
  · rw [hstep] at h
    split at h
    · cases h
    · cases h
      exact .inl rfl
  · rw [hstep] at h
    exact .inr (congrArg Prod.fst h).symm

/-- The body does not become the prologue again. -/
theorem phase_topLevelStep (h : progress.phase = .body) :
    (topLevelStep context progress c).1.phase = .body := by
  cases hstep : topLevelStep context progress c with
  | mk next result =>
      cases result with
      | error e after =>
          rcases topLevelStep_of_error hstep with rfl | rfl
          · exact h
          · rfl
      | ok item after =>
          cases topLevelStep_eq_ok_iff.mp hstep with
          | mark _ _ => exact h
          | statement hphase _ _ => simp [h] at hphase
          | rule _ _ _ _ => rfl

/-- Only a binding in the prologue changes the namespaces. -/
theorem namespaces_topLevelStep
    (h : (topLevelStep context progress c).1.namespaces ≠ progress.namespaces) :
    progress.phase = .prologue ∧ ∃ prelude key address after,
      IsStatement .binding prelude c after ∧
        ofPrelude? .binding prelude = some (.binding key address) ∧
        topLevelStep context progress c =
          (⟨.prologue, progress.namespaces.insert key address⟩,
            .ok (.binding key address) after) := by
  cases hstep : topLevelStep context progress c with
  | mk next result =>
      rw [hstep] at h
      cases result with
      | error e after => rcases topLevelStep_of_error hstep with rfl | rfl <;> exact absurd rfl h
      | ok item after =>
          cases topLevelStep_eq_ok_iff.mp hstep with
          | mark _ _ => exact absurd rfl h
          | rule _ _ _ _ => exact absurd rfl h
          | statement hphase hstatement hitem =>
              rename_i kind prelude
              cases item with
              | rule r => exact absurd rfl h
              | nothing => exact absurd rfl h
              | binding key address =>
                  have hkind : kind = .binding := kind_of_ofPrelude? hitem
                  subst hkind
                  refine ⟨hphase, prelude, key, address, after, hstatement, hitem, ?_⟩
                  simp [apply, hphase]

/-- A step leads on over something. -/
theorem Stands.leads (h : Stands context progress c item next after) :
    c.Leads after ∧ after.rest.length < c.rest.length := by
  cases h with
  | mark hrest _ => exact consumes_next (next_eq_ok_iff.mpr ⟨_, hrest, rfl⟩)
  | rule _ _ _ hrule => exact Rule.consumes_rule hrule
  | statement hphase hstatement hitem =>
      rename_i kind prelude
      obtain ⟨⟨keyword, ending, hrest, -, -⟩, -, hstop⟩ := hstatement
      obtain ⟨hbehind, hlength⟩ := consumes_next (next_eq_ok_iff.mpr ⟨_, hrest, rfl⟩)
      rw [← List.append_assoc] at hbehind hlength
      refine ⟨⟨(List.suffix_append (prelude ++ ending) after.rest).trans hbehind.suffix, hstop⟩, ?_⟩
      simp only [List.length_append] at hlength
      omega

/-- Every step of a stylesheet leaves less than there was. -/
theorem shrinks_topLevelStep : Shrinks (topLevelStep context) :=
  fun _ _ _ _ _ hstep => (topLevelStep_eq_ok_iff.mp hstep).leads.2

/-- In the body, a statement of the prologue is refused. -/
theorem topLevelStep_of_lateFault? {first : Component} {rest : List Component} {f : Fault}
    (hrest : c.rest.dropWhile Component.isFiller = first :: rest)
    (hphase : progress.phase = .body) (hlate : AtRule.lateFault? first = some f) :
    topLevelStep context progress c =
      (⟨.body, progress.namespaces⟩, .error ⟨f, first.start⟩ ⟨rest, c.stop⟩) := by
  have hmark : isHtmlMark first = false := by
    unfold AtRule.lateFault? at hlate
    split at hlate
    · exact isHtmlMark_of_ofComponent? ‹_›
    · exact isHtmlMark_of_ofComponent? ‹_›
    · cases hlate
  rw [topLevelStep_of_rule hrest hmark (.inl hphase)]
  exact Prod.ext rfl (map_eq_error_iff.mpr (Rule.ruleWith_of_lateFault? hrest hlate))

end Item

end Css
