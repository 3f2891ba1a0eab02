import Css.Keyframes.Grammar
import Css.Proofs.Declaration.Yields
import Css.Proofs.Number.Order

/-!
# Canonical keyframes

The grammar of keyframes yields moments between the ends of the animation, and declarations that are
not important.
-/

namespace Css

open Css.Parser Number

/-- The name of an animation that may be written: an identifier is a custom name. -/
def KeyframesName.Canonical : KeyframesName → Prop
  | .string value => NullFree value.toList
  | .ident name => IsCustomName ["none"] name

/-- A moment of an animation: a percentage between 0 and 100. -/
def IsMoment (p : Numeric) : Prop := ∃ x : Rat, p.toRat? = some x ∧ 0 ≤ x ∧ x ≤ 100

/-- There is a moment, and every moment is one of the animation. -/
structure KeyframeSelector.Canonical (s : KeyframeSelector) : Prop where
  ne_nil : s.percentages ≠ []
  percentages : ∀ p ∈ s.percentages, IsMoment p

/-- A keyframe that may stand in an animation. -/
structure Keyframe.Canonical (k : Keyframe) : Prop where
  selector : k.selector.Canonical
  unimportant : ∀ d ∈ k.declarations.declarations, d.important = false

/-- An animation with canonical parts. -/
structure Keyframes.Canonical (k : Keyframes) : Prop where
  name : k.name.Canonical
  keyframes : ∀ keyframe ∈ k.keyframes, keyframe.Canonical

/-- The name of an animation is a string or a custom name. -/
theorem KeyframesName.parser_yields : Yields SoundTokens parser Canonical := by
  refine (yields_expect _).attempt.bind fun result hresult => ?_
  split
  · rename_i value
    obtain ⟨component, hcomponent, hvalue⟩ := hresult value rfl
    obtain ⟨t, closed, rfl, hkind⟩ := stringValue?_eq_some hvalue
    have hsound := hcomponent.token
    simp only [Component.token, hkind] at hsound
    exact yields_pure hsound
  · exact (yields_customIdent _).bind fun _ h => yields_pure h

namespace KeyframeSelector

/-- What stands for a moment is between the ends of the animation. -/
theorem isMoment_of_moment? {component : Component} {p : Numeric}
    (h : moment? component = some p) : IsMoment p := by
  unfold moment? at h
  split at h
  · split at h
    · rename_i hbetween
      cases h
      obtain ⟨hlower, hupper⟩ := Bool.and_eq_true_iff.mp hbetween
      simpa [IsMoment] using Numeric.toRat?_of_between hlower hupper
    · cases h
  · split at h
    · cases h
      exact ⟨0, rfl, by decide, by decide⟩
    · cases h
      exact ⟨100, rfl, by decide, by decide⟩
    · cases h

/-- The moments of a keyframe are read between commas. -/
theorem parser_yields : Yields SoundTokens parser Canonical := by
  have hmoment : Yields SoundTokens momentParser IsMoment := by
    refine yields_next.bind fun component _ => ?_
    split
    · exact yields_pure (isMoment_of_moment? ‹_›)
    · exact yields_fault
  exact hmoment.commaSeparated.bind fun _ h => yields_pure ⟨h.1, h.2⟩

end KeyframeSelector

/-- A keyframe is read without important declarations. -/
theorem Keyframe.parser_yields (context : Context) :
    Yields SoundTokens (parser context) Canonical := by
  refine (KeyframeSelector.parser_yields.untilBefore _).bind fun selector hselector => ?_
  refine (yields_expect _).bind fun body hbody => ?_
  obtain ⟨component, hcomponent, hblock⟩ := hbody
  split at hblock
  · cases hblock
    have hlist := (Declarations.parser_yields (context.inRule .keyframe)).inside hcomponent
    refine hlist.bind fun declarations hdeclarations => ?_
    refine yields_pure ⟨hselector, fun d hd => ?_⟩
    have hallowed : (context.inRule .keyframe).allowsImportance = false := by
      simp [Context.allowsImportance, Context.inRule]
    by_contra himportant
    rw [hdeclarations d hd (by simpa using himportant)] at hallowed
    cases hallowed
  · cases hblock

/-- The block of an animation with a canonical name is read in canonical form. -/
theorem Keyframes.yields_bodyParser (context : Context) (vendorPrefix : Option VendorPrefix)
    {name : KeyframesName} (h : name.Canonical) :
    Yields SoundTokens (bodyParser context vendorPrefix name) Canonical :=
  (Keyframe.parser_yields context).many.bind fun _ hkeyframes => yields_pure ⟨h, hkeyframes⟩

end Css
