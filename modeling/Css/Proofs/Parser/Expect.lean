import Css.Parser.Expect
import Css.Proofs.Parser.Yields
import Css.Proofs.Token.Sound

/-!
# What the parsers of single components yield

A parser that expects a component finds its value in the next component that is no filler, so its
result says what the token of that component says. With tokens of a source, names are names, and
integers are within the limit on digits.
-/

namespace Css.Parser

variable {α : Type} {good : List Component → Prop} [Hereditary good]

/-- Expecting a value looks at the first component that is no filler. -/
theorem expect_eq (value? : Component → Option α) (c : Cursor) :
    expect value? c =
      match c.rest.dropWhile Component.isFiller with
      | [] => .error ⟨.endOfInput, c.stop⟩ ⟨[], c.stop⟩
      | component :: rest =>
        match value? component with
        | some value => .ok value ⟨rest, c.stop⟩
        | none => .error ⟨.unexpectedToken component.token, component.start⟩ ⟨rest, c.stop⟩ := by
  show EStateM.bind next _ c = _
  unfold EStateM.bind next
  rw [nextAfter_eq]
  cases c.rest.dropWhile Component.isFiller with
  | nil => rfl
  | cons component rest =>
      dsimp only
      cases value? component <;> rfl

/-- Expecting succeeds if the first component that is no filler has a value. -/
theorem expect_eq_ok_iff {value? : Component → Option α} {c after : Cursor} {a : α} :
    expect value? c = .ok a after ↔ ∃ component rest,
      c.rest.dropWhile Component.isFiller = component :: rest ∧ value? component = some a ∧
        after = ⟨rest, c.stop⟩ := by
  rw [expect_eq]
  cases c.rest.dropWhile Component.isFiller with
  | nil => simp
  | cons component rest =>
      cases h : value? component with
      | none => simp [h]
      | some value => simp [h, eq_comm]

/-- An attempt to expect a value fails if the first component that is no filler has none. -/
theorem attempt_expect_eq_none {value? : Component → Option α} {c after : Cursor}
    (h : attempt (expect value?) c = .ok none after) :
    c = after ∧ ∀ component rest,
      c.rest.dropWhile Component.isFiller = component :: rest → value? component = none := by
  unfold attempt at h
  cases hexpect : expect value? c with
  | ok a mid => rw [hexpect] at h; cases h
  | error e mid =>
      rw [hexpect] at h
      cases h
      refine ⟨rfl, fun component rest hrest => ?_⟩
      rw [expect_eq, hrest] at hexpect
      cases hvalue : value? component with
      | none => rfl
      | some value => simp [hvalue] at hexpect

/-- What is expected is found in a good component. -/
theorem yields_expect (value? : Component → Option α) :
    Yields good (expect value?)
      fun a => ∃ component, component.All good ∧ value? component = some a := by
  refine yields_next.bind fun component hcomponent => ?_
  split
  · exact yields_pure ⟨component, hcomponent, ‹_›⟩
  · exact yields_unexpected

/-- An expectation leaves good components. -/
theorem yields_expect_true (value? : Component → Option α) :
    Yields good (expect value?) fun _ => True :=
  (yields_expect value?).mono fun _ _ => trivial

/-- Reading an address leaves good components. -/
theorem yields_urlOrString : Yields good urlOrString fun _ => True := by
  refine yields_next.bind fun component hcomponent => ?_
  split
  · exact yields_pure trivial
  · exact yields_pure trivial
  · split
    · exact (yields_expect_true _).inside hcomponent
    · exact yields_unexpected

/-- A component with the name of an identifier is an identifier. -/
theorem identName?_eq_some {component : Component} {name : String}
    (h : identName? component = some name) :
    ∃ t, component = .leaf t ∧ t.kind = .ident name := by
  unfold identName? at h
  split at h
  · cases h
    exact ⟨_, rfl, rfl⟩
  · cases h

/-- A component with the value of a string is a string. -/
theorem stringValue?_eq_some {component : Component} {value : String}
    (h : stringValue? component = some value) :
    ∃ t closed, component = .leaf t ∧ t.kind = .string value closed := by
  unfold stringValue? at h
  split at h
  · cases h
    exact ⟨_, _, rfl, rfl⟩
  · cases h

/-- A component with the value of a number is a number. -/
theorem number?_eq_some {component : Component} {value : Number.Numeric}
    (h : number? component = some value) :
    ∃ t n, component = .leaf t ∧ t.kind = .number n ∧ n.value = value := by
  unfold number? at h
  split at h
  · cases h
    exact ⟨_, _, rfl, rfl, rfl⟩
  · cases h

/-- A component with the value of an integer is an integer. -/
theorem integer?_eq_some {component : Component} {n : Int} :
    integer? component = some n ↔ number? component = some (.integer n) := by
  unfold integer?
  split
  · rename_i hnumber
    simp [hnumber]
  · rename_i hnumber
    simp only [reduceCtorEq, false_iff]
    exact hnumber n

/-- Every token of the components says something sound. -/
abbrev SoundTokens : List Component → Prop := Component.AllTokens fun t => t.kind.Sound

/-- A number that is expected is one that a token can have. -/
theorem yields_number : Yields SoundTokens number Number.Numeric.IsRead := by
  refine (yields_expect _).mono ?_
  rintro value ⟨component, hcomponent, hvalue⟩
  obtain ⟨t, n, rfl, hkind, rfl⟩ := number?_eq_some hvalue
  have hsound := hcomponent.token
  simp only [Component.token, hkind] at hsound
  exact hsound

/-- An integer that is expected is within the limit on digits. -/
theorem yields_integer : Yields SoundTokens integer fun n => n.natAbs < 10 ^ digitLimit := by
  refine (yields_expect _).mono ?_
  rintro value ⟨component, hcomponent, hvalue⟩
  obtain ⟨t, n, rfl, hkind, hn⟩ := number?_eq_some (integer?_eq_some.mp hvalue)
  have hsound := hcomponent.token
  simp only [Component.token, hkind, Token.Kind.Sound, hn] at hsound
  exact hsound

/-- An integer that may be refused for being negative is within the limit on digits, and negative
only if the mode allows it. -/
theorem yields_nonNegativeInteger (context : Context) :
    Yields SoundTokens (nonNegativeInteger context) fun n =>
      n.natAbs < 10 ^ digitLimit ∧ (context.mode.negativeNumbers = false → 0 ≤ n) := by
  refine yields_location.bind fun location _ => yields_integer.bind fun n hn => ?_
  dsimp only
  split
  · exact yields_fault_bind
  · rename_i hsign
    refine yields_pure ⟨hn, fun hmode => ?_⟩
    simpa [hmode] using hsign

/-- A name that an author may choose if the given ones are excluded. -/
structure IsCustomName (excluded : List String) (name : String) : Prop where
  isName : IsName name
  ne_default : Text.lowerCase name ≠ "default"
  notMem_excluded : Text.lowerCase name ∉ excluded
  not_wide : Vocabulary.find? WideKeyword (Text.lowerCase name) = none

/-- A custom name is the name of the first component that is no filler. -/
theorem identName?_of_customIdent {excluded : List String} {name : String} {c after : Cursor}
    (h : customIdent excluded c = .ok name after) : ∃ component rest,
      c.rest.dropWhile Component.isFiller = component :: rest ∧
        identName? component = some name := by
  obtain ⟨component, rest, hrest, hname, _⟩ := expect_eq_ok_iff.mp h
  simp only [bind, Option.bind_eq_some_iff] at hname
  obtain ⟨found, hfound, hname⟩ := hname
  split at hname
  · cases hname
  · cases hname
    exact ⟨component, rest, hrest, hfound⟩

/-- A custom name is found in an identifier that is not excluded. -/
theorem yields_customIdent (excluded : List String) :
    Yields SoundTokens (customIdent excluded) (IsCustomName excluded) := by
  refine (yields_expect _).mono ?_
  rintro name ⟨component, hcomponent, hname⟩
  simp only [bind, Option.bind_eq_some_iff] at hname
  obtain ⟨found, hfound, hname⟩ := hname
  obtain ⟨t, rfl, hkind⟩ := identName?_eq_some hfound
  split at hname
  · cases hname
  · rename_i hallowed
    cases hname
    have hsound := hcomponent.token
    simp only [Component.token, hkind] at hsound
    simp only [not_or, Option.not_isSome_iff_eq_none] at hallowed
    exact ⟨hsound, hallowed.1, hallowed.2.1, hallowed.2.2⟩

end Css.Parser
