import Css.CounterStyle.Rule
import Css.Keyframes.Grammar
import Css.Media.Grammar
import Css.Proofs.Parser.Mirrors

/-!
# Comments between the parts of values

Media lists, the names and selectors of keyframes, and counter styles are read from components in
which comments stand as they are read from the same components without them. A parser either skips
the fillers in front of what it reads, or stops in front of a delimiter, or looks among the
components for something that is no comment, so none of them meets a comment. Only the places of
errors may be those of comments.
-/

namespace Css

open Css.Parser Number

/-- The name of an animation does not depend on comments. -/
theorem KeyframesName.parser_transparent : Transparent parser := by
  refine transparent_string.attempt.bind fun value => ?_
  cases value with
  | some value => exact transparent_pure _
  | none => exact (transparent_customIdent _).bind fun _ => transparent_pure _

/-- The moments of a keyframe do not depend on comments. -/
theorem KeyframeSelector.parser_transparent : Transparent parser := by
  have hmoment : Transparent momentParser := by
    refine mirrors_next.bind ?_
    rintro component _ rfl
    have hsame : moment? component.withoutComments = moment? component := by
      cases component <;> rfl
    rw [hsame]
    cases moment? component with
    | some moment => exact transparent_pure moment
    | none => exact mirrors_fault _ _ _ _
  exact hmoment.commaSeparated.bind fun _ => transparent_pure _

/-- The name of a counter style does not depend on comments. -/
theorem CounterStyleName.parser_transparent : Transparent parser :=
  (transparent_customIdent _).bind fun _ => transparent_pure _

/-- A symbol does not depend on comments. -/
theorem Symbol.parser_transparent : Transparent parser :=
  transparent_expect fun component => by cases component <;> rfl

/-- Symbols do not depend on comments. -/
theorem Symbols.parser_transparent : Transparent parser :=
  Symbol.parser_transparent.bind fun _ =>
    (Symbol.parser_transparent.many (consumes_expect _)).bind fun _ => transparent_pure _

/-- An integer and a symbol do not depend on comments. -/
theorem transparent_weightAndSymbol (context : Context) :
    Transparent (weightAndSymbol context) := by
  refine Symbol.parser_transparent.attempt.bind fun leading =>
    (transparent_nonNegativeInteger context).bind fun weight => ?_
  cases leading with
  | some symbol => exact transparent_pure _
  | none => exact Symbol.parser_transparent.bind fun _ => transparent_pure _

/-- Weighted symbols do not depend on comments. -/
theorem AdditiveSymbols.parser_transparent (context : Context) : Transparent (parser context) := by
  have hsymbol : Transparent (WeightedSymbol.parser context) :=
    (transparent_weightAndSymbol context).bind fun _ => transparent_pure _
  exact mirrors_location.bind fun _ _ _ => hsymbol.commaSeparated.bind fun _ =>
    mirrors_check (transparent_pure _)

/-- A counter system does not depend on comments. -/
theorem CounterSystem.parser_transparent : Transparent parser := by
  refine mirrors_next.bind ?_
  rintro component _ rfl
  rw [Component.keyword?_withoutComments]
  split
  · exact mirrors_unexpected _ _
  · exact transparent_integer.attempt.bind fun _ => transparent_pure _
  · exact CounterStyleName.parser_transparent.bind fun _ => transparent_pure _
  · split
    · exact transparent_pure _
    · exact mirrors_unexpected _ _

/-- A negative sign does not depend on comments. -/
theorem Negative.parser_transparent : Transparent parser :=
  Symbol.parser_transparent.bind fun _ => Symbol.parser_transparent.attempt.bind fun _ =>
    transparent_pure _

/-- A range of numbers does not depend on comments. -/
theorem CounterRange.parser_transparent : Transparent parser := by
  have hbound : Transparent bound := by
    refine (transparent_identMatching _).succeeds.bind fun infinite => ?_
    cases infinite with
    | true => exact transparent_pure none
    | false => exact transparent_integer.bind fun _ => transparent_pure _
  exact mirrors_location.bind fun _ _ _ => hbound.bind fun _ => hbound.bind fun _ =>
    mirrors_check (transparent_pure _)

/-- Ranges of numbers do not depend on comments. -/
theorem Ranges.parser_transparent : Transparent parser := by
  refine (transparent_identMatching _).succeeds.bind fun automatic => ?_
  cases automatic with
  | true => exact transparent_pure _
  | false => exact CounterRange.parser_transparent.commaSeparated.bind fun _ => transparent_pure _

/-- A way to speak does not depend on comments. -/
theorem SpeakAs.parser_transparent : Transparent parser := by
  refine (transparent_member SpeakAsKeyword).attempt.bind fun way => ?_
  cases way with
  | some way => exact transparent_pure _
  | none => exact CounterStyleName.parser_transparent.bind fun _ => transparent_pure _

/-- The value of a descriptor does not depend on comments. -/
theorem DescriptorName.parser_transparent (context : Context) (name : DescriptorName) :
    Transparent (name.parser context) := by
  cases name with
  | system => exact CounterSystem.parser_transparent.map
  | negative => exact Negative.parser_transparent.map
  | leading | suffix => exact Symbol.parser_transparent.map
  | range => exact Ranges.parser_transparent.map
  | pad =>
      exact Transparent.map ((transparent_weightAndSymbol context).bind fun _ => transparent_pure _)
  | fallback =>
      exact Transparent.map (CounterStyleName.parser_transparent.bind fun _ => transparent_pure _)
  | symbols => exact Symbols.parser_transparent.map
  | additiveSymbols => exact (AdditiveSymbols.parser_transparent context).map
  | speakAs => exact SpeakAs.parser_transparent.map

/-- The block of a counter style does not depend on comments. -/
theorem CounterStyle.transparent_bodyParser (context : Context) (name : CounterStyleName) :
    Transparent (bodyParser context name) := by
  have hdescriptor (name : String) :
      Transparent (descriptor (context.inRule .counterStyle) name) := by
    unfold descriptor
    split
    · exact DescriptorName.parser_transparent _ _
    · exact mirrors_location.bind fun _ _ _ => mirrors_fault _ _ _ _
  refine mirrors_location.bind fun _ _ _ =>
    (transparent_declarationList hdescriptor).bind fun descriptors => ?_
  dsimp only
  split
  · exact mirrors_fault _ _ _ _
  · exact transparent_pure _

/-- A value that a ranged feature is compared with does not depend on comments. -/
theorem RangedFeature.transparent_valueParser (context : Context) (name : RangedFeature) :
    Transparent (name.valueParser context) := by
  have hside : Transparent (ratioSide context) :=
    mirrors_location.bind fun _ _ _ => transparent_number.bind fun value =>
      mirrors_check (transparent_pure value)
  cases name with
  | width | height => exact transparent_expect fun component => by cases component <;> rfl
  | aspectRatio =>
      refine hside.bind fun numerator => (transparent_delim '/').succeeds.bind fun two => ?_
      cases two with
      | true => exact hside.bind fun _ => transparent_pure _
      | false => exact transparent_pure _
  | resolution => exact transparent_expect fun component => by cases component <;> rfl
  | color | colorIndex | monochrome =>
      exact (transparent_nonNegativeInteger context).bind fun _ => transparent_pure _

/-- A value out of a domain does not depend on comments. -/
theorem DiscreteDomain.parser_transparent (domain : DiscreteDomain) : Transparent domain.parser :=
  transparent_expect fun component => by
    rw [Component.integer?_withoutComments, Component.keyword?_withoutComments]

/-- A comparison sign does not depend on comments, also between its two characters. -/
theorem Comparison.parser_transparent : Transparent parser := by
  have hsign (c : Char) (component : Component) :
      isSign c component.withoutComments = isSign c component := by
    cases component <;> rfl
  have hequal : Transparent (do
      let second ← nextOrSpace
      if !isSign '=' second then unexpected second) := by
    refine mirrors_nextOrSpace.bind ?_
    rintro second _ rfl
    rw [hsign]
    split
    · exact mirrors_unexpected _ _
    · exact transparent_pure ()
  refine mirrors_next.bind ?_
  rintro component _ rfl
  simp only [hsign]
  split
  · exact transparent_pure _
  · split
    · refine hequal.succeeds.bind fun orEqual => ?_
      split <;> exact transparent_pure _
    · exact mirrors_unexpected _ _

namespace Feature

variable (context : Context)

/-- A ranged feature after its name does not depend on comments. -/
theorem transparent_rangedParser (name : RangedFeature) :
    Transparent (rangedParser context name) := by
  have hvalue (comparison : Comparison) : Transparent (do
      return Feature.ranged name (comparison.range (← name.valueParser context))) :=
    (name.transparent_valueParser context).bind fun _ => transparent_pure _
  refine transparent_isExhausted.bind fun exhausted => ?_
  split
  · exact transparent_pure _
  · refine transparent_colon.succeeds.bind fun found => ?_
    split
    · exact (transparent_pure Comparison.equal).bind hvalue
    · exact Comparison.parser_transparent.bind hvalue

/-- A ranged feature after a name that makes it a bound does not depend on comments. -/
theorem transparent_boundParser (name : RangedFeature) (bound : Comparison) :
    Transparent (boundParser context name bound) := by
  have hvalue : Transparent (do
      colon
      return Feature.ranged name (bound.range (← name.valueParser context))) :=
    transparent_colon.bind fun _ => (name.transparent_valueParser context).bind fun _ =>
      transparent_pure _
  refine transparent_isExhausted.bind fun exhausted => ?_
  split
  · exact mirrors_location.bind fun _ _ _ => (mirrors_fault (R := Eq) _ _ _ _).bind fun _ _ _ =>
      hvalue
  · exact hvalue

/-- A discrete feature after its name does not depend on comments. -/
theorem transparent_discreteParser (name : DiscreteFeature) :
    Transparent (discreteParser name) := by
  refine transparent_isExhausted.bind fun exhausted => ?_
  split
  · exact transparent_pure _
  · exact transparent_colon.bind fun _ => (name.domain.parser_transparent).bind fun _ =>
      transparent_pure _

/-- A feature whose name stands in front does not depend on comments. -/
theorem mirrors_namedParser (location location' : Position) (name : String) :
    Mirrors Eq (namedParser context location name) (namedParser context location' name) := by
  unfold namedParser
  cases splitBound name with | mk bound base
  dsimp only
  split
  · exact transparent_boundParser context _ _
  · exact transparent_rangedParser context _
  · exact transparent_discreteParser _
  · exact mirrors_fault _ _ _ _

/-- A feature whose name stands behind a value does not depend on comments: the name that is looked
for is no comment. -/
theorem mirrors_valueFirstParser (location location' : Position) :
    Mirrors Eq (valueFirstParser context location) (valueFirstParser context location') := by
  have hname : Component.HoldsComments fun component => !(identName? component).isSome := by
    refine ⟨fun component hcomment => ?_, fun component => by simp⟩
    cases hident : identName? component with
    | none => rfl
    | some name =>
        have hfiller := Component.isFiller_of_isComment hcomment
        cases hfiller.symm.trans (Component.isFiller_of_identName? hident)
  refine mirrors_get.bind fun c d hc => ?_
  -- the name is looked up among all components that are left, before anything is read
  rw [hc, Component.find?_withoutCommentsOf hname]
  cases c.rest.find? fun component => (identName? component).isSome with
  | none => exact mirrors_fault _ _ _ _
  | some component =>
      dsimp only [Option.map]
      rw [Component.keyword?_withoutComments]
      split
      · exact mirrors_fault _ _ _ _
      · rename_i name _
        have hvalue := name.transparent_valueParser context
        refine hvalue.bind fun value => Comparison.parser_transparent.bind fun comparison =>
          transparent_ident.bind fun _ => transparent_isExhausted.bind fun exhausted => ?_
        split
        · exact transparent_pure _
        · exact mirrors_location.bind fun _ _ _ => Comparison.parser_transparent.bind fun second =>
            mirrors_check (hvalue.bind fun _ => transparent_pure _)

/-- A feature does not depend on comments. -/
theorem parser_transparent : Transparent (parser context) := by
  refine mirrors_get.bind fun before before' hbefore => mirrors_next.bind ?_
  rintro component _ rfl
  -- the places differ where a comment stands in front, but only errors hold them
  rw [Component.keyword?_withoutComments]
  split
  · exact mirrors_namedParser context _ _ _
  · exact (mirrors_set hbefore).bind fun _ _ _ => mirrors_valueFirstParser context _ _

end Feature

/-- A feature in brackets does not depend on comments. -/
theorem Expression.parser_transparent (context : Context) : Transparent (parser context) := by
  refine (mirrors_block .round).bind ?_
  rintro component _ rfl
  exact ((Feature.parser_transparent context).inside component).bind fun _ _ hfeature =>
    mirrors_pure (hfeature ▸ rfl)

/-- A media query does not depend on comments. -/
theorem MediaQuery.parser_transparent (context : Context) : Transparent (parser context) := by
  have htype : Transparent mediaTypeParser :=
    transparent_expect fun component => by rw [Component.keyword?_withoutComments]
  have hexpression := Expression.parser_transparent context
  have hothers : Transparent (many do identMatching "and"; Expression.parser context) := by
    refine Transparent.many ((transparent_identMatching _).bind fun _ => hexpression) ?_
    -- each repetition reads at least the word
    refine (consumes_expect _).bind fun _ => (consumes_expect _).advances.bind fun _ => ?_
    exact (advances_inside _ _).bind fun _ => advances_pure _
  refine (transparent_member MediaQualifier).attempt.bind fun qualifier =>
    htype.attempt.bind fun mediaType => ?_
  split
  · exact (transparent_pure _).bind fun _ => hothers.bind fun _ => transparent_pure _
  · split
    · refine mirrors_next.bind fun _ _ _ =>
        (mirrors_unexpected (R := Eq) _ _).bind fun first _ hfirst => ?_
      subst hfirst
      exact hothers.bind fun _ => transparent_pure _
    · exact hexpression.bind fun _ => (transparent_pure _).bind fun _ => hothers.bind fun _ =>
        transparent_pure _

/-- A media list does not depend on comments. -/
theorem MediaList.parser_transparent (context : Context) : Transparent (parser context) := by
  refine transparent_isExhausted.bind fun exhausted => ?_
  split
  · exact transparent_pure _
  · exact (MediaQuery.parser_transparent context).commaSeparated.bind fun _ => transparent_pure _

/-- Whatever comments are taken out of components, at every depth, a media list, the selector and
the name of keyframes, the value of a descriptor and the block of a counter style are read from all
of them in the same way, in every context. -/
theorem Cursor.entirely_withoutComments_iff (context : Context) (style : CounterStyleName)
    (descriptor : DescriptorName) (c : Cursor) :
    (∀ queries, (∃ after, entirely (MediaList.parser context) c = .ok queries after) ↔
        ∃ after, entirely (MediaList.parser context) c.withoutComments = .ok queries after) ∧
      (∀ selector, (∃ after, entirely KeyframeSelector.parser c = .ok selector after) ↔
        ∃ after, entirely KeyframeSelector.parser c.withoutComments = .ok selector after) ∧
      (∀ name, (∃ after, entirely KeyframesName.parser c = .ok name after) ↔
        ∃ after, entirely KeyframesName.parser c.withoutComments = .ok name after) ∧
      (∀ value, (∃ after, entirely (descriptor.parser context) c = .ok value after) ↔
        ∃ after, entirely (descriptor.parser context) c.withoutComments = .ok value after) ∧
      ∀ counterStyle,
        (∃ after, entirely (CounterStyle.bodyParser context style) c = .ok counterStyle after) ↔
          ∃ after, entirely (CounterStyle.bodyParser context style) c.withoutComments =
            .ok counterStyle after := by
  have hdescriptor := DescriptorName.parser_transparent context descriptor
  have hstyle := CounterStyle.transparent_bodyParser context style
  refine ⟨fun _ => ?_, fun _ => ?_, fun _ => ?_, fun _ => ?_, fun _ => ?_⟩
  · exact Transparent.eq_ok_iff (MediaList.parser_transparent context).entirely _ _
  · exact Transparent.eq_ok_iff KeyframeSelector.parser_transparent.entirely _ _
  · exact Transparent.eq_ok_iff KeyframesName.parser_transparent.entirely _ _
  · exact Transparent.eq_ok_iff hdescriptor.entirely _ _
  · exact Transparent.eq_ok_iff hstyle.entirely _ _

end Css
