import Css.Media.Grammar
import Css.Proofs.Number.Order
import Css.Proofs.Parser.Expect

/-!
# Canonical media lists

The grammar of media queries yields ranges of three forms: all values above zero, the values that
compare with a given one, and the values between two given ones. Every value that is compared with
has the type of its feature and is within the limits of the mode.
-/

namespace Css

open Css.Parser Number

/-- A value that a feature can be compared with in a mode. -/
def RangedFeature.Accepts (mode : Mode) : RangedFeature → RangeValue → Prop
  | width, .length value _ | height, .length value _ => value.IsRead
  | aspectRatio, .ratio numerator denominator =>
    (numerator.IsRead ∧ denominator.IsRead) ∧
      (mode.negativeNumbers = false →
        (Numeric.integer 0).le numerator = true ∧ (Numeric.integer 0).le denominator = true)
  | resolution, .resolution value _ => value.IsRead ∧ value.isPositive = true
  | color, .count n | colorIndex, .count n | monochrome, .count n =>
    n.natAbs < 10 ^ digitLimit ∧ (mode.negativeNumbers = false → 0 ≤ n)
  | _, _ => False

/-- The ranges of values that can be asked for. -/
inductive RangedFeature.Asks (mode : Mode) (feature : RangedFeature) : Range → Prop where
  | above : feature.Asks mode (.above feature.zero)
  | compared (comparison : Comparison) (value : RangeValue) (hvalue : feature.Accepts mode value) :
      feature.Asks mode (comparison.range value)
  | between (first second : Comparison) (value other : RangeValue)
      (hagrees : first.agrees second = true) (hvalue : feature.Accepts mode value)
      (hother : feature.Accepts mode other) :
      feature.Asks mode (Feature.between (first.flip.range value) (second.range other))

/-- A feature that can be asked for. -/
def Feature.Canonical (mode : Mode) : Feature → Prop
  | .ranged name range => name.Asks mode range
  | .discrete name value => ∀ v ∈ value, v ∈ name.domain.values

/-- A media query that can be asked: a qualifier stands in front of a media type, and without a
media type there is a feature. -/
structure MediaQuery.Canonical (mode : Mode) (q : MediaQuery) : Prop where
  mediaType : ∀ word ∈ q.mediaType,
    (∃ name, IsName name ∧ word = Text.lowerCase name) ∧ word ∉ MediaQuery.reserved
  expressions : ∀ expression ∈ q.expressions, expression.feature.Canonical mode
  qualified : q.qualifier.isSome → q.mediaType.isSome
  nonempty : q.mediaType = none → q.expressions ≠ []

/-- A media list whose queries can be asked. -/
def MediaList.Canonical (mode : Mode) (l : MediaList) : Prop :=
  ∀ q ∈ l.queries, q.Canonical mode

/-- A number that was read is a number. -/
theorem Number.Numeric.IsRead.ne_nan {a : Numeric} (h : a.IsRead) : a ≠ .real .nan := by
  rintro rfl
  exact h

/-- A length is a number with a unit, or zero. -/
theorem yields_lengthParser (context : Context) :
    Yields SoundTokens (lengthParser context) fun value =>
      ∃ n unit, value = .length n unit ∧ n.IsRead := by
  refine (yields_expect _).mono ?_
  rintro value ⟨component, hcomponent, hvalue⟩
  have hsound := hcomponent.token
  split at hvalue
  · obtain ⟨unit, _, rfl⟩ := Option.map_eq_some_iff.mp hvalue
    exact ⟨_, _, rfl, hsound.1⟩
  · split at hvalue
    · cases hvalue
      exact ⟨_, _, rfl, hsound⟩
    · cases hvalue
  · cases hvalue

/-- A side of a ratio is negative only if the mode allows it. -/
theorem yields_ratioSide (context : Context) :
    Yields SoundTokens (ratioSide context) fun value =>
      value.IsRead ∧
        (context.mode.negativeNumbers = false → (Numeric.integer 0).le value = true) := by
  refine yields_location.bind fun location _ => yields_number.bind fun value hvalue => ?_
  split
  · exact yields_fault_bind
  · rename_i hsign
    refine yields_pure ⟨hvalue, fun hmode => ?_⟩
    exact Numeric.zero_le_of_isNegative_eq_false hvalue.ne_nan (by simpa [hmode] using hsign)

/-- A ratio has two sides. -/
theorem yields_ratioParser (context : Context) :
    Yields SoundTokens (ratioParser context) (RangedFeature.aspectRatio.Accepts context.mode) := by
  refine (yields_ratioSide context).bind fun numerator hnumerator => ?_
  refine Yields.bind (P := fun _ => True) ?_ fun hasSecond _ => ?_
  · exact (yields_expect_true _).succeeds
  · split
    · refine (yields_ratioSide context).bind fun denominator hdenominator => yields_pure ?_
      exact ⟨⟨hnumerator.1, hdenominator.1⟩,
        fun hmode => ⟨hnumerator.2 hmode, hdenominator.2 hmode⟩⟩
    · refine yields_pure ⟨⟨hnumerator.1, ?_⟩, fun hmode => ⟨hnumerator.2 hmode, rfl⟩⟩
      exact Nat.one_lt_pow (by decide) (by decide)

/-- A resolution is positive. -/
theorem yields_resolutionParser :
    Yields SoundTokens resolutionParser fun value =>
      ∃ n unit, value = .resolution n unit ∧ n.IsRead ∧ n.isPositive = true := by
  refine (yields_expect _).mono ?_
  rintro value ⟨component, hcomponent, hvalue⟩
  have hsound := hcomponent.token
  split at hvalue
  · split at hvalue
    · obtain ⟨unit, _, rfl⟩ := Option.map_eq_some_iff.mp hvalue
      exact ⟨_, _, rfl, hsound.1, ‹_›⟩
    · cases hvalue
  · cases hvalue

/-- The value of a ranged feature is one that the feature accepts. -/
theorem RangedFeature.yields_valueParser (context : Context) (feature : RangedFeature) :
    Yields SoundTokens (feature.valueParser context) (feature.Accepts context.mode) := by
  have hcount : Yields SoundTokens (countParser context) fun value => ∃ n, value = .count n ∧
      n.natAbs < 10 ^ digitLimit ∧ (context.mode.negativeNumbers = false → 0 ≤ n) :=
    (yields_nonNegativeInteger context).bind fun n hn => yields_pure ⟨n, rfl, hn⟩
  cases feature with
  | width | height =>
      refine (yields_lengthParser context).mono ?_
      rintro _ ⟨n, unit, rfl, hn⟩
      exact hn
  | aspectRatio => exact yields_ratioParser context
  | resolution =>
      refine yields_resolutionParser.mono ?_
      rintro _ ⟨n, unit, rfl, hn⟩
      exact hn
  | color | colorIndex | monochrome =>
      refine hcount.mono ?_
      rintro _ ⟨n, rfl, hn⟩
      exact hn

/-- The value of a discrete feature belongs to its domain. -/
theorem DiscreteDomain.parser_yields (domain : DiscreteDomain) :
    Yields SoundTokens domain.parser fun value => value ∈ domain.values := by
  refine (yields_expect _).mono ?_
  rintro value ⟨component, _, hvalue⟩
  split at hvalue
  · have hbinary : domain = .grid ∨ domain = .transform3D := by
      cases domain <;> simp_all [isBinary]
    split at hvalue
    · cases hvalue
      rcases hbinary with rfl | rfl <;> decide
    · cases hvalue
      rcases hbinary with rfl | rfl <;> decide
    · cases hvalue
  · obtain ⟨word, _, hfind⟩ := Option.bind_eq_some_iff.mp hvalue
    exact List.mem_of_find?_eq_some hfind

/-- Reading a comparison leaves good components. -/
theorem Comparison.parser_yields : Yields SoundTokens parser fun _ => True := by
  refine yields_next.bind fun component _ => ?_
  split
  · exact yields_pure trivial
  · split
    · refine Yields.bind (P := fun _ => True) ?_ fun orEqual _ => ?_
      · refine Yields.succeeds (P := fun _ => True) ?_
        refine (yields_nextAfter _).bind fun second _ => ?_
        split
        · exact yields_unexpected
        · exact yields_pure trivial
      · split <;> exact yields_pure trivial
    · exact yields_unexpected

namespace Feature

/-- A ranged feature after its name asks for a range. -/
theorem yields_rangedParser (context : Context) (name : RangedFeature) :
    Yields SoundTokens (rangedParser context name) (Canonical context.mode) := by
  refine yields_isExhausted.bind fun _ _ => ?_
  dsimp only
  split
  · exact yields_pure .above
  · have hvalue (comparison : Comparison) := (name.yields_valueParser context).bind
      fun value h => yields_pure (P := Canonical context.mode)
        (a := .ranged name (comparison.range value)) (.compared comparison value h)
    refine Yields.bind (P := fun _ => True) ?_ fun hasColon _ => ?_
    · exact (yields_expect_true _).succeeds
    · split
      · exact hvalue .equal
      · exact Comparison.parser_yields.bind fun comparison _ => hvalue comparison

/-- A ranged feature after a name that makes it a bound asks for a range. -/
theorem yields_boundParser (context : Context) (name : RangedFeature) (bound : Comparison) :
    Yields SoundTokens (boundParser context name bound) (Canonical context.mode) := by
  refine yields_isExhausted.bind fun _ _ => ?_
  dsimp only
  split
  · exact yields_location.bind fun _ _ => yields_fault_bind
  · refine Yields.bind (P := fun _ => True) ?_ fun _ _ => ?_
    · exact yields_expect_true _
    · exact (name.yields_valueParser context).bind fun value hvalue =>
        yields_pure (.compared bound value hvalue)

/-- A discrete feature after its name has a value of its domain, if any. -/
theorem yields_discreteParser (mode : Mode) (name : DiscreteFeature) :
    Yields SoundTokens (discreteParser name) (Canonical mode) := by
  refine yields_isExhausted.bind fun _ _ => ?_
  split
  · exact yields_pure nofun
  · refine Yields.bind (P := fun _ => True) ?_ fun _ _ => ?_
    · exact yields_expect_true _
    · exact name.domain.parser_yields.bind fun value hvalue =>
        yields_pure (by rintro _ ⟨⟩; exact hvalue)

/-- A feature after its name can be asked for. -/
theorem yields_namedParser (context : Context) (location : Position) (name : String) :
    Yields SoundTokens (namedParser context location name) (Canonical context.mode) := by
  unfold namedParser
  dsimp only
  split
  · exact yields_boundParser context _ _
  · exact yields_rangedParser context _
  · exact yields_discreteParser _ _
  · exact yields_fault

/-- A feature behind a value can be asked for. -/
theorem yields_valueFirstParser (context : Context) (location : Position) :
    Yields SoundTokens (valueFirstParser context location) (Canonical context.mode) := by
  refine yields_get.bind fun c _ => ?_
  split
  · exact yields_fault
  · split
    · exact yields_fault
    · rename_i name _
      refine (name.yields_valueParser context).bind fun value hvalue => ?_
      refine Comparison.parser_yields.bind fun first _ => ?_
      refine Yields.bind (P := fun _ => True) ?_ fun _ _ => ?_
      · exact yields_expect_true _
      · refine yields_isExhausted.bind fun _ _ => ?_
        dsimp only
        split
        · exact yields_pure (.compared first.flip value hvalue)
        · refine yields_location.bind fun _ _ => Comparison.parser_yields.bind fun second _ => ?_
          split
          · exact yields_fault_bind
          · rename_i hagrees
            exact (name.yields_valueParser context).bind fun other hother =>
              yields_pure (.between first second value other (by simpa using hagrees) hvalue hother)

/-- A feature can be asked for. -/
theorem parser_yields (context : Context) :
    Yields SoundTokens (parser context) (Canonical context.mode) := by
  refine yields_get.bind fun before hbefore => yields_next.bind fun component _ => ?_
  split
  · exact yields_namedParser context _ _
  · exact (yields_set hbefore).bind fun _ _ => yields_valueFirstParser context _

end Feature

/-- A feature in brackets can be asked for. -/
theorem Expression.parser_yields (context : Context) :
    Yields SoundTokens (parser context) fun e => e.feature.Canonical context.mode := by
  refine (yields_expect _).bind fun component hcomponent => ?_
  obtain ⟨found, hfound, hblock⟩ := hcomponent
  split at hblock
  · cases hblock
    exact ((Feature.parser_yields context).inside hfound).bind fun _ h => yields_pure h
  · cases hblock

namespace MediaQuery

/-- A media type is a word in lower case that is not reserved. -/
theorem yields_mediaTypeParser :
    Yields SoundTokens mediaTypeParser fun word =>
      (∃ name, IsName name ∧ word = Text.lowerCase name) ∧ word ∉ reserved := by
  refine (yields_expect _).mono ?_
  rintro word ⟨component, hcomponent, hword⟩
  obtain ⟨hkeyword, hreserved⟩ := Option.filter_eq_some_iff.mp hword
  obtain ⟨name, hname, rfl⟩ := Option.map_eq_some_iff.mp hkeyword
  obtain ⟨t, rfl, hkind⟩ := identName?_eq_some hname
  have hsound := hcomponent.token
  simp only [Component.token, hkind] at hsound
  exact ⟨⟨name, hsound, rfl⟩, by simpa using hreserved⟩

/-- A media query can be asked. -/
theorem parser_yields (context : Context) :
    Yields SoundTokens (parser context) (Canonical context.mode) := by
  refine (yields_expect _).attempt.bind fun qualifier _ => ?_
  refine yields_mediaTypeParser.attempt.bind fun mediaType hmediaType => ?_
  have hothers (first : List Expression)
      (hfirst : ∀ e ∈ first, e.feature.Canonical context.mode)
      (hqualified : qualifier.isSome → mediaType.isSome)
      (hnonempty : mediaType = none → first ≠ []) :
      Yields SoundTokens (do
        let others ← many do
          identMatching "and"
          Expression.parser context
        return MediaQuery.mk qualifier mediaType (first ++ others)) (Canonical context.mode) := by
    refine Yields.bind (Yields.many (P := fun e => e.feature.Canonical context.mode) ?_)
      fun others hothers => yields_pure ⟨hmediaType, ?_, hqualified, ?_⟩
    · refine Yields.bind (P := fun _ => True) ?_ fun _ _ => Expression.parser_yields context
      exact yields_expect_true _
    · intro e he
      rcases List.mem_append.mp he with he | he
      · exact hfirst e he
      · exact hothers e he
    · exact fun h => List.append_ne_nil_of_left_ne_nil (hnonempty h) others
  dsimp only
  split
  · rename_i hsome
    refine hothers [] (by simp) (fun _ => hsome) fun hnone => ?_
    rw [hnone] at hsome
    cases hsome
  · split
    · exact yields_next.bind fun _ _ => yields_fault_bind
    · rename_i hqualifier
      refine (Expression.parser_yields context).bind fun e he => hothers [e] ?_ ?_ ?_
      · simpa using he
      · exact fun h => absurd h hqualifier
      · exact fun _ => List.cons_ne_nil _ _

end MediaQuery

/-- The queries of a media list can be asked. -/
theorem MediaList.parser_yields (context : Context) :
    Yields SoundTokens (parser context) (Canonical context.mode) := by
  refine yields_isExhausted.bind fun _ _ => ?_
  split
  · exact yields_pure nofun
  · exact (MediaQuery.parser_yields context).commaSeparated.bind fun _ h => yields_pure h.2

end Css
