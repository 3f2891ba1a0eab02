import Css.Media.Grammar
import Css.Proofs.Parser.Significant

/-!
# What a media feature tests

A feature in brackets spells a test: its name alone, a value or a bound behind a colon, or one or
two comparisons. `FeatureTest.Spelled` lists the spellings, without regard to fillers, and
`RangeTest.Holds` says when a test is true of a value. Values are compared by what they measure in
any linear order, in which different values may measure the same.
-/

namespace Css

open Css.Parser
open Component (significant)

section

variable {α : Type*} [LinearOrder α]

/-- The first value compares in this way with the second one. -/
def Comparison.Holds : Comparison → α → α → Prop
  | less, a, b => a < b
  | atMost, a, b => a ≤ b
  | greater, a, b => b < a
  | atLeast, a, b => b ≤ a
  | equal, a, b => a = b

/-- The value is not below the bound, and not at it unless the bound is inclusive. -/
def Bound.IsBelow (measure : RangeValue → α) (bound : Bound) (x : α) : Prop :=
  if bound.inclusive then measure bound.value ≤ x else measure bound.value < x

/-- The value is not above the bound, and not at it unless the bound is inclusive. -/
def Bound.IsAbove (measure : RangeValue → α) (bound : Bound) (x : α) : Prop :=
  if bound.inclusive then x ≤ measure bound.value else x < measure bound.value

/-- The value is within the bounds of the range. -/
def Range.Contains (measure : RangeValue → α) (r : Range) (x : α) : Prop :=
  (∀ bound ∈ r.lower, bound.IsBelow measure x) ∧ ∀ bound ∈ r.upper, bound.IsAbove measure x

end

/-- What is asked of the value of a ranged feature: whether it is positive, whether it is a given
value, at least or at most that, or how it compares with one value or with two. -/
inductive RangeTest where
  | positive
  | equal (value : RangeValue)
  | minimum (value : RangeValue)
  | maximum (value : RangeValue)
  | compared (comparison : Comparison) (value : RangeValue)
  | reversed (value : RangeValue) (comparison : Comparison)
  | between (value : RangeValue) (first second : Comparison) (other : RangeValue)

/-- What is asked of the output device: a test of a ranged feature, or whether a discrete feature
has a value, or has the given one. -/
inductive FeatureTest where
  | ranged (name : RangedFeature) (test : RangeTest)
  | discrete (name : DiscreteFeature) (value : Option DiscreteValue)

/-- The components are one word, in any case. -/
def IsWord (word : String) (part : List Component) : Prop :=
  ∃ component, significant part = [component] ∧ keyword? component = some word

/-- The components are a colon. -/
def IsColon (part : List Component) : Prop :=
  ∃ text start, significant part = [.leaf ⟨.colon, text, start⟩]

/-- The components are a comparison sign. Only comments may stand between its two characters. -/
inductive Comparison.Spelled : Comparison → List Component → Prop where
  | one {c : Char} {comparison : Comparison} {part : List Component} {sign : Component}
      (hc : (c, comparison) ∈ [('=', equal), ('<', less), ('>', greater)])
      (hpart : significant part = [sign]) (hsign : isSign c sign) : Spelled comparison part
  | two {c : Char} {comparison : Comparison} {lead comments trail : List Component}
      {sign second : Component} (hc : (c, comparison) ∈ [('<', atMost), ('>', atLeast)])
      (hlead : significant lead = []) (hsign : isSign c sign)
      (hcomments : ∀ component ∈ comments, component.isComment) (hsecond : isSign '=' second)
      (htrail : significant trail = []) :
      Spelled comparison (lead ++ sign :: (comments ++ second :: trail))

/-- The feature accepts the components as this value. -/
def RangedFeature.IsValue (context : Context) (name : RangedFeature) (value : RangeValue)
    (part : List Component) : Prop :=
  ∃ stop last, entirely (name.valueParser context) ⟨part, stop⟩ = .ok value last

/-- The domain accepts the components as this value. -/
def DiscreteDomain.IsValue (domain : DiscreteDomain) (value : DiscreteValue)
    (part : List Component) : Prop :=
  ∃ stop last, entirely domain.parser ⟨part, stop⟩ = .ok value last

/-- Both comparisons point to the left, or both to the right. -/
def Comparison.SameWay (first second : Comparison) : Prop :=
  (first ∈ [less, atMost] ∧ second ∈ [less, atMost]) ∨
    (first ∈ [greater, atLeast] ∧ second ∈ [greater, atLeast])

/-- The components spell the test of the feature. -/
inductive RangeTest.Spelled (context : Context) (name : RangedFeature) :
    RangeTest → List Component → Prop where
  | positive {word : List Component} (hword : IsWord (Vocabulary.word name) word) :
      Spelled context name positive word
  | equal {word colon part : List Component} {value : RangeValue}
      (hword : IsWord (Vocabulary.word name) word) (hcolon : IsColon colon)
      (hvalue : name.IsValue context value part) :
      Spelled context name (equal value) (word ++ (colon ++ part))
  | minimum {word colon part : List Component} {value : RangeValue}
      (hword : IsWord ("min-" ++ Vocabulary.word name) word) (hcolon : IsColon colon)
      (hvalue : name.IsValue context value part) :
      Spelled context name (minimum value) (word ++ (colon ++ part))
  | maximum {word colon part : List Component} {value : RangeValue}
      (hword : IsWord ("max-" ++ Vocabulary.word name) word) (hcolon : IsColon colon)
      (hvalue : name.IsValue context value part) :
      Spelled context name (maximum value) (word ++ (colon ++ part))
  | compared {word sign part : List Component} {comparison : Comparison} {value : RangeValue}
      (hword : IsWord (Vocabulary.word name) word) (hsign : comparison.Spelled sign)
      (hvalue : name.IsValue context value part) :
      Spelled context name (compared comparison value) (word ++ (sign ++ part))
  | reversed {part sign word : List Component} {value : RangeValue} {comparison : Comparison}
      (hvalue : name.IsValue context value part) (hsign : comparison.Spelled sign)
      (hword : IsWord (Vocabulary.word name) word) :
      Spelled context name (reversed value comparison) (part ++ (sign ++ word))
  | between {part sign word sign' part' : List Component} {value other : RangeValue}
      {first second : Comparison} (hvalue : name.IsValue context value part)
      (hsign : first.Spelled sign) (hword : IsWord (Vocabulary.word name) word)
      (hsign' : second.Spelled sign') (hvalue' : name.IsValue context other part')
      (hway : first.SameWay second) :
      Spelled context name (between value first second other)
        (part ++ (sign ++ (word ++ (sign' ++ part'))))

/-- The components spell what is asked of the output device. -/
inductive FeatureTest.Spelled (context : Context) : FeatureTest → List Component → Prop where
  | ranged {name : RangedFeature} {test : RangeTest} {part : List Component}
      (htest : test.Spelled context name part) : Spelled context (ranged name test) part
  | bare {name : DiscreteFeature} {word : List Component}
      (hword : IsWord (Vocabulary.word name) word) : Spelled context (discrete name none) word
  | equal {name : DiscreteFeature} {word colon part : List Component} {value : DiscreteValue}
      (hword : IsWord (Vocabulary.word name) word) (hcolon : IsColon colon)
      (hvalue : name.domain.IsValue value part) :
      Spelled context (discrete name (some value)) (word ++ (colon ++ part))

namespace RangeTest

/-- The range of the values that pass the test. -/
def range (zero : RangeValue) : RangeTest → Range
  | positive => .above zero
  | equal value => .exactly value
  | minimum value => Comparison.atLeast.range value
  | maximum value => Comparison.atMost.range value
  | compared comparison value => comparison.range value
  | reversed value comparison => comparison.flip.range value
  | between value first second other =>
    Feature.between (first.flip.range value) (second.range other)

/-- The comparisons that a test is written with are true of the value. -/
def Holds {α : Type*} [LinearOrder α] (measure : RangeValue → α) (zero : RangeValue) (x : α) :
    RangeTest → Prop
  | positive => measure zero < x
  | equal value => x = measure value
  | minimum value => measure value ≤ x
  | maximum value => x ≤ measure value
  | compared comparison value => comparison.Holds x (measure value)
  | reversed value comparison => comparison.Holds (measure value) x
  | between value first second other =>
    first.Holds (measure value) x ∧ second.Holds x (measure other)

end RangeTest

/-- What the parser answers to a test. -/
def FeatureTest.feature : FeatureTest → Feature
  | ranged name test => .ranged name (test.range name.zero)
  | discrete name value => .discrete name value

/-- The feature contains what passes the test: a range, the values of which the comparisons are
true; a discrete feature, the value that is asked for. -/
def FeatureTest.Means {α : Type*} [LinearOrder α] (measure : RangeValue → α) :
    FeatureTest → Feature → Prop
  | ranged name test, .ranged name' range =>
    name' = name ∧ ∀ x, range.Contains measure x ↔ test.Holds measure name.zero x
  | discrete name value, .discrete name' value' => name' = name ∧ value' = value
  | _, _ => False

section

variable {α : Type*} [LinearOrder α] {measure : RangeValue → α} {x : α}

/-- A comparison with exchanged sides holds for the values in exchanged order. -/
theorem Comparison.holds_flip (comparison : Comparison) (a b : α) :
    comparison.flip.Holds a b ↔ comparison.Holds b a := by
  cases comparison with
  | equal => exact eq_comm
  | less | atMost | greater | atLeast => exact Iff.rfl

/-- The range of a comparison with a value contains what compares so with the value. -/
theorem Comparison.contains_range (comparison : Comparison) (value : RangeValue) :
    (comparison.range value).Contains measure x ↔ comparison.Holds x (measure value) := by
  cases comparison with
  | equal =>
      simp only [range, Range.exactly, Range.Contains, Option.mem_def,
        Option.some.injEq, forall_eq', Bound.IsBelow, Bound.IsAbove, if_true, Holds]
      exact antisymm_iff.trans eq_comm
  | less | atMost | greater | atLeast =>
      simp [range, Range.Contains, Bound.IsBelow, Bound.IsAbove, Holds]

/-- Two ranges of which each is open where the other one is bounded contain together what is
between their bounds. -/
theorem Feature.contains_between {a b : Range} (hlower : a.lower = none ∨ b.lower = none)
    (hupper : a.upper = none ∨ b.upper = none) :
    (between a b).Contains measure x ↔ a.Contains measure x ∧ b.Contains measure x := by
  obtain ⟨lower, upper⟩ := a
  obtain ⟨lower', upper'⟩ := b
  have hor {bound bound' : Option Bound} (h : bound = none ∨ bound' = none) (P : Bound → Prop) :
      (∀ b ∈ bound.or bound', P b) ↔ (∀ b ∈ bound, P b) ∧ ∀ b ∈ bound', P b := by
    rcases h with rfl | rfl
    · simp
    · cases bound <;> simp
  simp only [between, Range.Contains, hor hlower, hor hupper]
  exact and_and_and_comm

/-- Of two comparisons that point the same way, one bounds from below and one from above. -/
theorem Comparison.SameWay.bounds {first second : Comparison} (h : first.SameWay second)
    (value other : RangeValue) :
    ((first.flip.range value).lower = none ∨ (second.range other).lower = none) ∧
      ((first.flip.range value).upper = none ∨ (second.range other).upper = none) := by
  cases first <;> cases second <;> simp [SameWay] at h <;> simp [flip, range]

/-- Two comparisons agree if they point the same way. -/
theorem Comparison.agrees_iff {first second : Comparison} :
    first.agrees second = true ↔ first.SameWay second := by
  cases first <;> cases second <;> simp [agrees, SameWay]

/-- The range of a test contains what passes the test. -/
theorem RangeTest.contains_range {context : Context} {name : RangedFeature} {test : RangeTest}
    {part : List Component} (h : test.Spelled context name part) (zero : RangeValue) :
    (test.range zero).Contains measure x ↔ test.Holds measure zero x := by
  cases h with
  | positive => simp [range, Range.above, Range.Contains, Bound.IsBelow, Holds]
  | @equal _ _ _ value => exact Comparison.equal.contains_range value
  | @minimum _ _ _ value => exact Comparison.atLeast.contains_range value
  | @maximum _ _ _ value => exact Comparison.atMost.contains_range value
  | @compared _ _ _ comparison value => exact comparison.contains_range value
  | @reversed _ _ _ value comparison =>
      exact (comparison.flip.contains_range value).trans (comparison.holds_flip x _)
  | @between _ _ _ _ _ value other first second _ _ _ _ _ hway =>
      obtain ⟨hlower, hupper⟩ := hway.bounds value other
      refine (Feature.contains_between hlower hupper).trans (and_congr ?_ ?_)
      · exact (first.flip.contains_range value).trans (first.holds_flip x _)
      · exact second.contains_range other

/-- The feature of a test that is spelled contains what passes the test. -/
theorem FeatureTest.Spelled.means_feature {context : Context} {test : FeatureTest}
    {part : List Component} (h : test.Spelled context part) : test.Means measure test.feature := by
  cases h with
  | ranged htest => exact ⟨rfl, fun x => RangeTest.contains_range htest _⟩
  | bare | equal => exact ⟨rfl, rfl⟩

end

end Css
