import Css.Stylesheet.Basic

/-!
# Editing stylesheets

Rules are inserted into a stylesheet or a group of rules, as they are or as text, and deleted. A
call on a stylesheet works on the stylesheet in place: what it has changed when it is refused stays
changed. Statements about the character set and namespaces can only be inserted while there are no
rules.
-/

namespace Css

/-- The reason why an edit is refused. -/
inductive EditError where
  /-- The index is not in the range from zero to `last`. -/
  | indexOutOfRange (index last : Int)
  | statementAfterRules
  | unreadable (error : ReadError)
  /-- There is no rule to take away. -/
  | nothingLeft
  /-- A path does not lead to a group of rules. -/
  | noSuchGroup

namespace EditError

/-- The wording of the reasons that are not faults of a text. -/
def message? : EditError → Option String
  | indexOutOfRange index last =>
    some ("rule index " ++ toString index ++ " is out of range 0.." ++ toString last)
  | statementAfterRules => some "@namespace and @charset must precede all other rules"
  | unreadable _ => none
  | nothingLeft => some "pop from empty list"
  | noSuchGroup => some "list index out of range"

end EditError

namespace Rule

/-- The place for a new rule among others: in front of the index, or at the end without one. -/
def insertionIndex (rules : List Rule) (index : Option Int) : Except EditError Nat :=
  match index with
  | none => .ok rules.length
  | some i =>
    if 0 ≤ i ∧ i ≤ rules.length then .ok i.toNat else .error (.indexOutOfRange i rules.length)

/-- Rules with a new one, and the index of the new one. -/
def insert (rules : List Rule) (rule : Rule) (index : Option Int) :
    Except EditError (List Rule × Nat) := do
  let i ← insertionIndex rules index
  return (rules.insertIdx i rule, i)

/-- Rules in a group with a new one that is read from a text, and its index. -/
def insertText (rules : List Rule) (text : String) (index : Option Int) (namespaces : Namespaces) :
    Except EditError (List Rule × Nat) := do
  let i ← insertionIndex rules index
  match Rule.ofText (.ofMode .strict) namespaces text with
  | .ok rule => .ok (rules.insertIdx i rule, i)
  | .error e => .error (.unreadable e)

/-- Rules without the one at an index. -/
def delete (rules : List Rule) (index : Int) : Except EditError (List Rule) :=
  if 0 ≤ index ∧ index < rules.length then .ok (rules.eraseIdx index.toNat)
  else .error (.indexOutOfRange index (rules.length - 1))

/-- Rules without the last one, and the last one. -/
def pop (rules : List Rule) : Except EditError (List Rule × Rule) :=
  match rules.getLast? with
  | some rule => .ok (rules.dropLast, rule)
  | none => .error .nothingLeft

/-- Edits the rules in the group that a path of indexes leads to. -/
def editAt {α : Type} (edit : List Rule → Except EditError (List Rule × α)) :
    List Nat → List Rule → Except EditError (List Rule × α)
  | [], rules => edit rules
  | i :: path, rules =>
    match rules[i]? with
    | none => .error .noSuchGroup
    | some rule =>
      match rule.nested? with
      | none => .error .noSuchGroup
      | some inner => do
        let (inner, a) ← editAt edit path inner
        return (rules.set i (rule.withNested inner), a)

end Rule

/-- What a call can change: the stylesheet, and the table of namespaces that is passed along. -/
structure EditState where
  sheet : Stylesheet
  passed : Option Namespaces

/-- A call on a stylesheet. -/
abbrev Editor := EStateM EditError EditState

namespace Editor

variable {α : Type}

/-- Edits the rules of the stylesheet. -/
def onRules (edit : List Rule → Except EditError (List Rule × α)) : Editor α := do
  let state ← get
  match edit state.sheet.rules with
  | .error e => throw e
  | .ok (rules, a) =>
    set { state with sheet := { state.sheet with rules } }
    return a

/-- Inserts a rule that is read from a text. Prefixes are looked up in the table that is passed
along, or in that of the stylesheet; what the text binds goes into a copy. A statement adds the new
bindings of the copy to the stylesheet, but only if there are no rules yet. -/
def insertText (text : String) (index : Option Int) : Editor Nat := do
  let ⟨sheet, passed⟩ ← get
  match Rule.insertionIndex sheet.rules index with
  | .error e => throw e
  | .ok i =>
    let table := passed.getD sheet.namespaces
    let (progress, result) := Item.ofText (.ofMode sheet.mode) ⟨.prologue, table⟩ text
    match result with
    | .error e => throw (.unreadable e)
    | .ok (.rule rule) =>
      set (EditState.mk { sheet with rules := sheet.rules.insertIdx i rule } passed)
      return i
    | .ok _ =>
      if !sheet.rules.isEmpty then throw .statementAfterRules
      let namespaces := sheet.namespaces.insertAll (progress.namespaces.newSince table)
      set (EditState.mk { sheet with namespaces } passed)
      return 0

/-- The stylesheet after a call and what the call answers, unless it is refused. -/
def on (p : Editor α) (s : Stylesheet) (passed : Option Namespaces) :
    Except EditError (Stylesheet × α) :=
  match p ⟨s, passed⟩ with
  | .ok a after => .ok (after.sheet, a)
  | .error e _ => .error e

end Editor

/-- The calls on a stylesheet. -/
inductive Edit where
  | insertText (text : String) (index : Option Int)
  | insertRule (rule : Rule) (index : Option Int)
  | delete (index : Int)

namespace Edit

/-- Makes a call. The answer to an insertion is an index. -/
def perform : Edit → Editor (Option Nat)
  | insertText text index => some <$> Editor.insertText text index
  | insertRule rule index => some <$> Editor.onRules fun rules => Rule.insert rules rule index
  | delete index => Editor.onRules fun rules => do return (← Rule.delete rules index, none)

/-- The state after a call, whether it was refused or not. -/
def after (edit : Edit) (state : EditState) : EditState :=
  match edit.perform state with
  | .ok _ state | .error _ state => state

end Edit

namespace Stylesheet

/-- Edits the rules of the stylesheet or of the group that a path leads to. -/
def editRules {α : Type} (s : Stylesheet) (path : List Nat)
    (edit : List Rule → Except EditError (List Rule × α)) : Except EditError (Stylesheet × α) :=
  (Editor.onRules (Rule.editAt edit path)).on s none

/-- The stylesheet with a namespace bound. -/
def bind (s : Stylesheet) (key : Option String) (address : String) : Stylesheet :=
  { s with namespaces := s.namespaces.insert key address }

/-- The stylesheet with a rule that is read from a text, and the index of the rule. -/
def insertText (s : Stylesheet) (text : String) (index : Option Int)
    (namespaces : Option Namespaces) : Except EditError (Stylesheet × Nat) :=
  (Editor.insertText text index).on s namespaces

/-- The stylesheet after calls, each with the table that is passed along. -/
def afterCalls (s : Stylesheet) (calls : List (Edit × Option Namespaces)) : Stylesheet :=
  calls.foldl (fun s (edit, passed) => (edit.after ⟨s, passed⟩).sheet) s

end Stylesheet

end Css
