import Css.Proofs.Parser.Run
import Css.Proofs.Rule.Items
import Css.Proofs.Rule.Namespace
import Css.Stylesheet.Edit

/-!
# What calls do to a stylesheet

A call that is refused changes nothing. A deletion takes one rule away, an insertion puts one rule
among the others, and a statement adds bindings to a stylesheet without rules, `perform_eq_ok_iff`.
What one call keeps is kept by every sequence of calls.
-/

namespace Css

open Css.Parser

namespace Rule

variable {rules : List Rule} {index : Option Int}

/-- A place among rules splits them. -/
theorem insertionIndex_eq_ok_iff {i : Nat} :
    insertionIndex rules index = .ok i ↔
      ∃ front back, rules = front ++ back ∧ front.length = i ∧
        index.getD rules.length = front.length := by
  have hsplit : (∃ front back, rules = front ++ back ∧ front.length = i ∧
      index.getD rules.length = front.length) ↔ i ≤ rules.length ∧ index.getD rules.length = i := by
    constructor
    · rintro ⟨front, back, hrules, rfl, hindex⟩
      exact ⟨by simp [hrules], hindex⟩
    · rintro ⟨hi, hindex⟩
      have hlength : (rules.take i).length = i := by simpa using hi
      exact ⟨rules.take i, rules.drop i, (List.take_append_drop i rules).symm, hlength, by
        rw [hlength, hindex]⟩
  rw [hsplit]
  cases index with
  | none =>
      simp only [insertionIndex, Except.ok.injEq, Option.getD_none]
      omega
  | some n =>
      simp only [insertionIndex, Option.getD_some]
      split
      · simp only [Except.ok.injEq]
        omega
      · simp only [reduceCtorEq, false_iff]
        omega

/-- Behind the first rules, a new one stands in front of the others. -/
theorem insertIdx_length_append (front back : List Rule) (rule : Rule) :
    (front ++ back).insertIdx front.length rule = front ++ rule :: back := by
  induction front with
  | nil => rfl
  | cons first front ih =>
      simp only [List.cons_append, List.length_cons, List.insertIdx_succ_cons, ih]

/-- A rule is put among others at its place. -/
theorem insert_eq_ok_iff {rule : Rule} {after : List Rule} {i : Nat} :
    insert rules rule index = .ok (after, i) ↔
      ∃ front back, rules = front ++ back ∧ index.getD rules.length = front.length ∧
        i = front.length ∧ after = front ++ rule :: back := by
  have hopen : insert rules rule index = .ok (after, i) ↔
      insertionIndex rules index = .ok i ∧ after = rules.insertIdx i rule := by
    unfold insert
    cases insertionIndex rules index with
    | error e => simp [bind, Except.bind]
    | ok n =>
        simp only [bind, Except.bind, pure, Except.pure, Except.ok.injEq, Prod.mk.injEq]
        constructor
        · rintro ⟨rfl, rfl⟩
          exact ⟨rfl, rfl⟩
        · rintro ⟨rfl, rfl⟩
          exact ⟨rfl, rfl⟩
  rw [hopen, insertionIndex_eq_ok_iff]
  constructor
  · rintro ⟨⟨front, back, rfl, rfl, hindex⟩, rfl⟩
    exact ⟨front, back, rfl, hindex, rfl, insertIdx_length_append front back rule⟩
  · rintro ⟨front, back, rfl, hindex, rfl, rfl⟩
    exact ⟨⟨front, back, rfl, rfl, hindex⟩, (insertIdx_length_append front back rule).symm⟩

/-- A rule is taken away if there is one at the index. -/
theorem delete_eq_ok_iff {i : Int} {left : List Rule} :
    delete rules i = .ok left ↔
      ∃ front rule back, rules = front ++ rule :: back ∧ i = front.length ∧
        left = front ++ back := by
  unfold delete
  constructor
  · intro h
    split at h
    · rename_i hi
      obtain ⟨n, rfl⟩ := Int.eq_ofNat_of_zero_le hi.1
      have hn : n < rules.length := by omega
      cases h
      refine ⟨rules.take n, rules[n], rules.drop (n + 1), ?_, ?_, ?_⟩
      · rw [List.getElem_cons_drop, List.take_append_drop]
      · rw [List.length_take, Nat.min_eq_left hn.le]
      · exact List.eraseIdx_eq_take_drop_succ rules n
    · cases h
  · rintro ⟨front, rule, back, rfl, rfl, rfl⟩
    have hi : (0 : Int) ≤ front.length ∧
        (front.length : Int) < ((front ++ rule :: back).length : Int) := by
      simp
    rw [if_pos hi]
    simp [List.eraseIdx_append_of_length_le]

end Rule

namespace Item

variable {context : Context} {progress after : Progress} {text : String}

/-- A text is an item if the item is something, and nothing but fillers is left behind it. -/
theorem ofText_eq_ok_iff {item : Item} :
    ofText context progress text = (after, .ok item) ↔ ∃ c mid, Cursor.ofText text = .ok c ∧
      c.isExhausted = false ∧ step context progress c = (after, .ok item mid) ∧
        mid.isExhausted = true := by
  unfold ofText
  cases Cursor.ofText text with
  | error e => simp
  | ok c =>
      simp only [Except.ok.injEq, exists_and_left, exists_eq_left']
      cases hc : c.isExhausted with
      | true => simp
      | false =>
          cases step context progress c with
          | mk next result =>
              cases result with
              | error e mid => simp
              | ok found mid =>
                  cases hend : atEnd mid with
                  | ok u last => simp [hend, (atEnd_eq_ok_iff.mp hend).1]
                  | error e last =>
                      have hmid : mid.isExhausted = false := by
                        cases hmid : mid.isExhausted with
                        | false => rfl
                        | true =>
                            rw [(atEnd_eq_ok_iff (u := ())).mpr ⟨hmid, rfl⟩] at hend
                            cases hend
                      simp [hend, hmid]

/-- A text is an item that is a rule where it is a rule. -/
theorem ofText_eq_ok_rule_iff {rule : Rule} :
    ofText context progress text = (after, .ok (.rule rule)) ↔
      after = ⟨.body, progress.namespaces⟩ ∧
        Rule.ofText context progress.namespaces text = .ok rule := by
  rw [ofText_eq_ok_iff, Rule.ofText, run_eq_ok_iff]
  constructor
  · rintro ⟨c, mid, hc, hmore, hstep, hend⟩
    obtain ⟨source, hsource, rfl⟩ := Cursor.ofText_eq_ok_iff.mp hc
    obtain ⟨rfl, hrule⟩ := step_eq_ok_rule_iff.mp hstep
    have hall := entirely_eq_ok_iff.mpr ⟨mid, hrule, hend, rfl⟩
    exact ⟨rfl, source, hsource, _, only_eq_ok_iff.mpr ⟨hmore, hall⟩⟩
  · rintro ⟨rfl, source, hsource, last, honly⟩
    obtain ⟨hmore, hall⟩ := only_eq_ok_iff.mp honly
    obtain ⟨mid, hrule, hend, -⟩ := entirely_eq_ok_iff.mp hall
    exact ⟨.ofSource source, mid, Cursor.ofText_eq_ok_iff.mpr ⟨source, hsource, rfl⟩, hmore,
      step_eq_ok_rule_iff.mpr ⟨rfl, hrule⟩, hend⟩

end Item

namespace Edit

/-- The second stylesheet is the first one with a rule in front of the index, or at the end without
one, and the answer is the index of the rule. -/
def Puts (sheet : Stylesheet) (rule : Rule) (index : Option Int) (answer : Option Nat)
    (after : Stylesheet) : Prop :=
  ∃ front back, sheet.rules = front ++ back ∧ index.getD sheet.rules.length = front.length ∧
    answer = some front.length ∧ after = { sheet with rules := front ++ rule :: back }

/-- A text is a statement of the prologue, the first stylesheet has no rules, and the second one is
the first one with what the statement binds. -/
def Binds (sheet : Stylesheet) (table : Namespaces) (text : String) (index : Option Int)
    (answer : Option Nat) (after : Stylesheet) : Prop :=
  sheet.rules = [] ∧ index.getD 0 = 0 ∧ answer = some 0 ∧
    ∃ progress item, Item.ofText (.ofMode sheet.mode) ⟨.prologue, table⟩ text =
      (progress, .ok item) ∧
      item.rule? = none ∧
      after = { sheet with
        namespaces := sheet.namespaces.insertAll (progress.namespaces.newSince table) }

/-- What a call that is not refused answers, and what it makes of a stylesheet. -/
def Changes (sheet : Stylesheet) (passed : Option Namespaces) (answer : Option Nat)
    (after : Stylesheet) : Edit → Prop
  | delete i => ∃ front rule back, sheet.rules = front ++ rule :: back ∧ i = front.length ∧
      answer = none ∧ after = { sheet with rules := front ++ back }
  | insertRule rule index => Puts sheet rule index answer after
  | insertText text index =>
      let table := passed.getD sheet.namespaces
      (∃ rule, Rule.ofText (.ofMode sheet.mode) table text = .ok rule ∧
        Puts sheet rule index answer after) ∨
      Binds sheet table text index answer after

end Edit

namespace Editor

variable {α β : Type} {state after : EditState}

/-- A call that edits the rules changes nothing else, and nothing at all if it is refused. -/
theorem onRules_eq (edit : List Rule → Except EditError (List Rule × α)) (state : EditState) :
    onRules edit state =
      match edit state.sheet.rules with
      | .error e => .error e state
      | .ok (rules, a) => .ok a { state with sheet := { state.sheet with rules } } := by
  simp only [onRules, bind, EStateM.bind, get, getThe, MonadStateOf.get, EStateM.get]
  cases edit state.sheet.rules <;> rfl

/-- A call that edits the rules answers what the edit does. -/
theorem onRules_eq_ok_iff {edit : List Rule → Except EditError (List Rule × α)} {a : α} :
    onRules edit state = .ok a after ↔ ∃ rules, edit state.sheet.rules = .ok (rules, a) ∧
      after = { state with sheet := { state.sheet with rules } } := by
  rw [onRules_eq]
  rcases edit state.sheet.rules with e | ⟨rules, b⟩
  · simp
  · simp only [EStateM.Result.ok.injEq, Except.ok.injEq, Prod.mk.injEq]
    constructor
    · rintro ⟨rfl, rfl⟩
      exact ⟨rules, ⟨rfl, rfl⟩, rfl⟩
    · rintro ⟨_, ⟨rfl, rfl⟩, rfl⟩
      exact ⟨rfl, rfl⟩

/-- A call that inserts a text changes nothing if it is refused. Otherwise it inserts a rule, or
adds the bindings of a statement. -/
theorem insertText_eq (text : String) (index : Option Int) (state : EditState) :
    Editor.insertText text index state =
      match Rule.insertionIndex state.sheet.rules index with
      | .error e => .error e state
      | .ok i =>
        let table := state.passed.getD state.sheet.namespaces
        match Item.ofText (.ofMode state.sheet.mode) ⟨.prologue, table⟩ text with
        | (_, .error e) => .error (.unreadable e) state
        | (_, .ok (.rule rule)) =>
          .ok i { state with sheet.rules := state.sheet.rules.insertIdx i rule }
        | (progress, .ok _) =>
          if state.sheet.rules.isEmpty then
            .ok 0 { state with sheet.namespaces :=
              state.sheet.namespaces.insertAll (progress.namespaces.newSince table) }
          else .error .statementAfterRules state := by
  simp only [insertText, bind, EStateM.bind, get, getThe, MonadStateOf.get, EStateM.get]
  cases Rule.insertionIndex state.sheet.rules index with
  | error e => rfl
  | ok i =>
      dsimp only
      rcases Item.ofText (.ofMode state.sheet.mode)
        ⟨.prologue, state.passed.getD state.sheet.namespaces⟩ text with ⟨progress, e | item⟩
      · rfl
      · cases item with
        | rule rule => rfl
        | binding key address => cases state.sheet.rules.isEmpty <;> rfl
        | nothing => cases state.sheet.rules.isEmpty <;> rfl

end Editor

namespace Edit

variable {state after : EditState} {answer : Option Nat}

/-- A call that is refused changes nothing. -/
theorem perform_of_error {edit : Edit} {e : EditError} (h : edit.perform state = .error e after) :
    after = state := by
  cases edit with
  | insertText text index =>
      rw [perform, map_eq_error_iff, Editor.insertText_eq] at h
      split at h
      · cases h; rfl
      · dsimp only at h
        split at h
        · cases h; rfl
        · cases h
        · split at h
          · cases h
          · cases h; rfl
  | insertRule rule index =>
      rw [perform, map_eq_error_iff, Editor.onRules_eq] at h
      split at h
      · cases h; rfl
      · cases h
  | delete index =>
      rw [perform, Editor.onRules_eq] at h
      split at h
      · cases h; rfl
      · cases h

/-- A text that is inserted is a rule among the others, or a statement without any. -/
theorem changes_of_insertText {text : String} {index : Option Int} {i : Nat}
    (h : Editor.insertText text index state = .ok i after) :
    after.passed = state.passed ∧
      (insertText text index).Changes state.sheet state.passed (some i) after.sheet := by
  rw [Editor.insertText_eq] at h
  split at h
  · cases h
  · rename_i place hplace
    obtain ⟨front, back, hrules, rfl, hindex⟩ := Rule.insertionIndex_eq_ok_iff.mp hplace
    dsimp only at h
    split at h
    · cases h
    · rename_i progress rule hitem
      cases h
      have hrule := (Item.ofText_eq_ok_rule_iff.mp hitem).2
      refine ⟨rfl, .inl ⟨rule, hrule, front, back, hrules, hindex, rfl, ?_⟩⟩
      simp only [hrules, Rule.insertIdx_length_append]
    · rename_i progress item hnorule hitem
      split at h
      · rename_i hempty
        cases h
        have hnil := List.isEmpty_iff.mp hempty
        obtain ⟨rfl, rfl⟩ := List.append_eq_nil_iff.mp (hrules.symm.trans hnil)
        rw [hrules] at hindex
        refine ⟨rfl, .inr ⟨hnil, hindex, rfl, progress, item, hitem, ?_, rfl⟩⟩
        cases item with
        | rule rule => exact absurd rfl (hnorule rule)
        | binding key address => rfl
        | nothing => rfl
      · cases h

/-- A rule is inserted among the others, and a statement without any. -/
theorem insertText_of_changes {text : String} {index : Option Int} {sheet after : Stylesheet}
    {passed : Option Namespaces} {answer : Option Nat}
    (h : (insertText text index).Changes sheet passed answer after) :
    ∃ i, answer = some i ∧ Editor.insertText text index ⟨sheet, passed⟩ =
      .ok i ⟨after, passed⟩ := by
  dsimp only [Changes, Puts, Binds] at h
  rcases h with ⟨rule, hrule, front, back, hrules, hindex, rfl, rfl⟩ |
    ⟨hnil, hindex, rfl, progress, item, hitem, hnone, rfl⟩
  · have hplace := Rule.insertionIndex_eq_ok_iff.mpr ⟨front, back, hrules, rfl, hindex⟩
    have hitem :
        Item.ofText (.ofMode sheet.mode) ⟨.prologue, passed.getD sheet.namespaces⟩ text = _ :=
      Item.ofText_eq_ok_rule_iff.mpr ⟨rfl, hrule⟩
    refine ⟨front.length, rfl, ?_⟩
    simp only [Editor.insertText_eq, hplace, hitem]
    simp only [hrules, Rule.insertIdx_length_append]
  · have hplace : Rule.insertionIndex sheet.rules index = .ok 0 :=
      Rule.insertionIndex_eq_ok_iff.mpr ⟨[], [], hnil, rfl, by rw [hnil]; exact hindex⟩
    refine ⟨0, rfl, ?_⟩
    simp only [Editor.insertText_eq, hplace, hitem]
    cases item with
    | rule rule => cases hnone
    | binding key address => simp [hnil]
    | nothing => simp [hnil]

/-- A call that is not refused does what it is for, and leaves the table that is passed along. -/
theorem perform_eq_ok_iff {edit : Edit} :
    edit.perform state = .ok answer after ↔
      after.passed = state.passed ∧ edit.Changes state.sheet state.passed answer after.sheet := by
  obtain ⟨sheet, passed⟩ := state
  obtain ⟨sheet', passed'⟩ := after
  cases edit with
  | insertRule rule index =>
      simp only [perform, map_eq_ok_iff, Editor.onRules_eq_ok_iff, Rule.insert_eq_ok_iff, Changes,
        Puts, EditState.mk.injEq]
      constructor
      · rintro ⟨i, ⟨rules, ⟨front, back, hrules, hindex, rfl, rfl⟩, rfl, rfl⟩, rfl⟩
        exact ⟨rfl, front, back, hrules, hindex, rfl, rfl⟩
      · rintro ⟨rfl, front, back, hrules, hindex, rfl, rfl⟩
        exact ⟨_, ⟨_, ⟨front, back, hrules, hindex, rfl, rfl⟩, rfl, rfl⟩, rfl⟩
  | delete i =>
      have hopen (rules left : List Rule) :
          (do return (← Rule.delete rules i, none) : Except EditError (List Rule × Option Nat)) =
            .ok (left, answer) ↔ Rule.delete rules i = .ok left ∧ answer = none := by
        cases Rule.delete rules i <;> simp [bind, Except.bind, pure, Except.pure, eq_comm]
      simp only [perform, Editor.onRules_eq_ok_iff, hopen, Rule.delete_eq_ok_iff, Changes,
        EditState.mk.injEq]
      constructor
      · rintro ⟨left, ⟨⟨front, rule, back, hrules, rfl, rfl⟩, rfl⟩, rfl, rfl⟩
        exact ⟨rfl, front, rule, back, hrules, rfl, rfl, rfl⟩
      · rintro ⟨rfl, front, rule, back, hrules, rfl, rfl, rfl⟩
        exact ⟨_, ⟨⟨front, rule, back, hrules, rfl, rfl⟩, rfl⟩, rfl, rfl⟩
  | insertText text index =>
      rw [perform, map_eq_ok_iff]
      constructor
      · rintro ⟨i, hrun, rfl⟩
        exact changes_of_insertText hrun
      · rintro ⟨hpassed, hchanges⟩
        dsimp only at hpassed hchanges
        obtain ⟨i, rfl, hrun⟩ := insertText_of_changes hchanges
        rw [hpassed]
        exact ⟨i, hrun, rfl⟩

variable {sheet sheet' : Stylesheet} {passed : Option Namespaces} {edit : Edit}

/-- A call leaves every prefix in its place. -/
theorem Changes.keys_prefix (h : edit.Changes sheet passed answer sheet') :
    sheet.namespaces.keys <+: sheet'.namespaces.keys := by
  cases edit with
  | delete i =>
      obtain ⟨front, rule, back, -, -, -, rfl⟩ := h
      exact List.prefix_rfl
  | insertRule rule index =>
      obtain ⟨front, back, -, -, -, rfl⟩ := h
      exact List.prefix_rfl
  | insertText text index =>
      obtain ⟨rule, -, front, back, -, -, -, rfl⟩ | ⟨-, -, -, progress, item, -, -, rfl⟩ := h
      · exact List.prefix_rfl
      · exact sheet.namespaces.keys_prefix_insertAll _

/-- A call changes the namespaces of a stylesheet without rules only. -/
theorem Changes.rules_eq_nil (h : edit.Changes sheet passed answer sheet')
    (hnamespaces : sheet'.namespaces ≠ sheet.namespaces) : sheet.rules = [] := by
  cases edit with
  | delete i =>
      obtain ⟨front, rule, back, -, -, -, rfl⟩ := h
      exact absurd rfl hnamespaces
  | insertRule rule index =>
      obtain ⟨front, back, -, -, -, rfl⟩ := h
      exact absurd rfl hnamespaces
  | insertText text index =>
      obtain ⟨rule, -, front, back, -, -, -, rfl⟩ | ⟨hnil, -⟩ := h
      · exact absurd rfl hnamespaces
      · exact hnil

/-- A call changes nothing, or it is not refused. -/
theorem after_eq_or_changes (edit : Edit) (state : EditState) :
    edit.after state = state ∨
      ∃ answer, edit.Changes state.sheet state.passed answer (edit.after state).sheet := by
  unfold after
  cases h : edit.perform state with
  | error e state' => exact .inl (perform_of_error h)
  | ok answer state' => exact .inr ⟨answer, (perform_eq_ok_iff.mp h).2⟩

end Edit

namespace Stylesheet

/-- Calls leave every prefix in its place. -/
theorem keys_prefix_afterCalls (s : Stylesheet) (calls : List (Edit × Option Namespaces)) :
    s.namespaces.keys <+: (s.afterCalls calls).namespaces.keys := by
  induction calls generalizing s with
  | nil => exact List.prefix_rfl
  | cons call calls ih =>
      obtain ⟨edit, passed⟩ := call
      refine List.IsPrefix.trans ?_ (ih (edit.after ⟨s, passed⟩).sheet)
      rcases edit.after_eq_or_changes ⟨s, passed⟩ with h | ⟨answer, h⟩
      · rw [h]
      · exact h.keys_prefix

/-- Calls change the namespaces only if one of them is made while there are no rules. -/
theorem exists_rules_eq_nil_of_afterCalls {s : Stylesheet}
    {calls : List (Edit × Option Namespaces)}
    (h : (s.afterCalls calls).namespaces ≠ s.namespaces) :
    ∃ before call rest, calls = before ++ call :: rest ∧ (s.afterCalls before).rules = [] := by
  induction calls generalizing s with
  | nil => exact absurd rfl h
  | cons call calls ih =>
      obtain ⟨edit, passed⟩ := call
      by_cases hfirst : (edit.after ⟨s, passed⟩).sheet.namespaces = s.namespaces
      · obtain ⟨before, call, rest, rfl, hrules⟩ :=
          ih (s := (edit.after ⟨s, passed⟩).sheet) (fun hsame => h (hsame.trans hfirst))
        exact ⟨(edit, passed) :: before, call, rest, rfl, hrules⟩
      · refine ⟨[], (edit, passed), calls, rfl, ?_⟩
        rcases edit.after_eq_or_changes ⟨s, passed⟩ with hsame | ⟨answer, hchanges⟩
        · rw [hsame] at hfirst
          exact absurd rfl hfirst
        · exact hchanges.rules_eq_nil hfirst

/-- What a sequence of calls does to a stylesheet. Each call that is refused leaves the stylesheet
and the table that is passed along as they were, and each other call takes away, puts in or binds
what it is for and nothing else. The namespaces change only in a call that is made while there are
no rules, and no prefix is lost. -/
theorem calls_keep (s : Stylesheet) (calls : List (Edit × Option Namespaces)) :
    (∀ before edit passed rest, calls = before ++ (edit, passed) :: rest →
      match edit.perform ⟨s.afterCalls before, passed⟩ with
      | .error _ state => state = ⟨s.afterCalls before, passed⟩
      | .ok answer state => state.passed = passed ∧
          edit.Changes (s.afterCalls before) passed answer state.sheet ∧
          (s.afterCalls before).namespaces.keys <+: state.sheet.namespaces.keys ∧
          (state.sheet.namespaces ≠ (s.afterCalls before).namespaces →
            (s.afterCalls before).rules = [])) ∧
    s.namespaces.keys <+: (s.afterCalls calls).namespaces.keys ∧
    ((s.afterCalls calls).namespaces ≠ s.namespaces →
      ∃ before call rest, calls = before ++ call :: rest ∧ (s.afterCalls before).rules = []) := by
  refine ⟨?_, s.keys_prefix_afterCalls calls, exists_rules_eq_nil_of_afterCalls⟩
  intro before edit passed rest _
  cases h : edit.perform ⟨s.afterCalls before, passed⟩ with
  | error e state => exact Edit.perform_of_error h
  | ok answer state =>
      obtain ⟨hpassed, hchanges⟩ := Edit.perform_eq_ok_iff.mp h
      exact ⟨hpassed, hchanges, hchanges.keys_prefix, hchanges.rules_eq_nil⟩

/-- A rule with something behind it is refused, and the stylesheet keeps what the calls before have
made of it. -/
theorem calls_keep_trailing_text :
    ∃ sheet e, Stylesheet.empty.afterCalls [(.insertText "@namespace p \"u\";" none, none),
        (.insertText "p|a{}" none, none)] = sheet ∧
      sheet.namespaces = ⟨[(some "p", "u")]⟩ ∧ sheet.rules.length = 1 ∧
      (Edit.insertText "b{}c" (some 0)).perform ⟨sheet, none⟩ = .error e ⟨sheet, none⟩ := by
  obtain ⟨sheet, e, state, hsheet, hnamespaces, hrules, herror⟩ : ∃ sheet e state,
      Stylesheet.empty.afterCalls [(.insertText "@namespace p \"u\";" none, none),
        (.insertText "p|a{}" none, none)] = sheet ∧
      sheet.namespaces = ⟨[(some "p", "u")]⟩ ∧ sheet.rules.length = 1 ∧
      (Edit.insertText "b{}c" (some 0)).perform ⟨sheet, none⟩ = .error e state :=
    ⟨_, _, _, by cbv, by cbv, by cbv, by cbv⟩
  have hspec := (calls_keep .empty [(.insertText "@namespace p \"u\";" none, none),
    (.insertText "p|a{}" none, none), (.insertText "b{}c" (some 0), none)]).1
    [_, _] (.insertText "b{}c" (some 0)) none [] rfl
  rw [hsheet, herror] at hspec
  exact ⟨sheet, e, hsheet, hnamespaces, hrules, by rw [herror, hspec]⟩

end Stylesheet

end Css
