import Css.Proofs.Declaration.RoundTrip
import Css.Proofs.Keyframes.RoundTrip
import Css.Proofs.Parser.Rewritten
import Css.Proofs.Rule.Reads

/-!
# What is written for keyframes

A keyframe of a tight source is written as a text that is read as a keyframe that is written alike,
if the names of its declarations need no escapes, `Keyframe.yields_rewritable`. So is the block of
an animation, keyframe by keyframe.
-/

namespace Css

open Css.Parser Number
open Component (AreTight ReadFrom)

namespace KeyframeSelector

/-- The components of moments stand in front of a block. -/
theorem isDelimiter_components (s : KeyframeSelector) :
    ∀ c ∈ s.components, isDelimiter ['{'] c = false := by
  intro c hc
  rcases Component.mem_commaComponents hc with ⟨p, -, hp⟩ | rfl | rfl
  · rw [List.mem_singleton.mp hp]
    rfl
  · rfl
  · rfl

/-- The moments that are read back have the same text. -/
theorem IsSpelled.css_asWritten {s : KeyframeSelector} (h : s.IsSpelled) :
    s.asWritten.css = .ok s.text := by
  have htexts : s.percentages.mapM
      ((fun p : Numeric => do return (← p.css) ++ "%") ∘ fun p => (Numeral.ofNumeric p).value) =
      .ok (s.percentages.map fun p => (Numeral.ofNumeric p).text ++ "%") :=
    mapM_eq_ok fun p hp => by
      rw [Function.comp_apply,
        Numeral.css_value_ofNumeric (h.isRead p hp) (h.isMoment p hp).isWritable]
      rfl
  rw [css, asWritten, List.mapM_map, htexts]
  rfl

end KeyframeSelector

namespace Keyframe

variable {context : Context}

/-- The names of the declarations of the keyframe need no escapes. -/
def IsWritable (k : Keyframe) : Prop := ∀ d ∈ k.declarations.declarations, d.IsWritable

/-- A keyframe whose moments and declarations are read from what is written for them is read back as
one that is written alike. -/
theorem rewritable {selector : KeyframeSelector} {declarations : Declarations}
    {values : List Component} (hselector : selector.IsSpelled)
    (hcss : ReadFrom values declarations.css)
    (hreads : Reads (Declarations.parser (context.inRule .keyframe)) values
      (Exactly declarations [])) :
    Rewritable css (parser context) ⟨selector, declarations⟩ := by
  refine ⟨⟨selector.asWritten, declarations⟩, selector.components ++ [Component.curly values],
    selector.text ++ Bracket.curly.around declarations.css, ?_, ?_, fun hrest => ?_,
    fun rest => ?_, ?_⟩
  · rw [css, hselector.css_eq]
    rfl
  · rw [css, hselector.css_asWritten]
    rfl
  · rw [List.append_assoc, String.append_assoc]
    exact hselector.spells.toReadFrom.append (hcss.around_append .curly hrest)
      (Component.delimited_curly_append _ _)
  · rw [List.append_assoc]
    have hmoments : ReadsAll KeyframeSelector.parser selector.components selector.asWritten :=
      ⟨[], rfl, KeyframeSelector.parser_reads hselector⟩
    refine (reads_untilBefore hmoments.entirely
      selector.isDelimiter_components (by rintro _ ⟨⟩; rfl)).andThen ?_
    refine (@reads_block [] rest .curly values rfl).bind fun body after hfound => ?_
    obtain ⟨hlook, rfl⟩ := hfound
    exact (reads_inside hlook ⟨[], rfl, hreads⟩).andThen (reads_pure _ after)
  · simp [Component.curly, Component.isFiller]

/-- A keyframe of a tight source is read back as one that is written alike, if the names of its
declarations need no escapes. -/
theorem yields_rewritable (context : Context) :
    Yields AreTight (parser context) fun k => k.IsWritable → Rewritable css (parser context) k := by
  have hselector : Gives AreTight (entirely KeyframeSelector.parser) KeyframeSelector.IsSpelled :=
    KeyframeSelector.parser_yields_isSpelled.entirely.gives.of_imp fun _ h => h.lexed.sound
  have hdeclarations := (Declarations.gives_written (context.inRule .keyframe)).entirely
  refine (hselector.untilBefore _).bind fun selector hselector => ?_
  refine (yields_expect _).bind fun body hbody => ?_
  obtain ⟨component, hcomponent, hblock⟩ := hbody
  obtain ⟨-, ⟨⟩⟩ := Option.ite_none_right_eq_some.mp hblock
  refine (hdeclarations.inside hcomponent).bind fun declarations hwritten => ?_
  refine yields_pure fun hwritable => ?_
  obtain ⟨values, hcss, hreads⟩ := hwritten hwritable
  exact rewritable hselector hcss hreads

end Keyframe

/-- The keyframes in the block of an animation are read back as ones that are written alike. -/
theorem Keyframes.yields_rewritable (context : Context) (vendorPrefix : Option VendorPrefix)
    (name : KeyframesName) :
    Yields AreTight (bodyParser context vendorPrefix name) fun k =>
      k.name = name ∧ k.vendorPrefix = vendorPrefix ∧ ∀ keyframe ∈ k.keyframes,
        keyframe.IsWritable → Rewritable Keyframe.css (Keyframe.parser context) keyframe :=
  (Keyframe.yields_rewritable context).many.bind fun _ hlist => yields_pure ⟨rfl, rfl, hlist⟩

end Css
