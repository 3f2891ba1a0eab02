import Css.Proofs.Keyframes.Canonical
import Css.Proofs.Parser.Written
import Mathlib

/-!
# Names and moments of animations are read back

The name of an animation is read back from its canonical text. The moments of a keyframe are written
as percentages, `from` and `to` among them, and each is read back with its exact value, although an
integer may stand for a double, `KeyframeSelector.run_css_moments`.
-/

namespace Css

open Css.Parser Number
open Component (written commaComponents Spells spells_string spells_ident spells_percentage)

namespace KeyframesName

/-- The components of the name of an animation. -/
def components : KeyframesName → List Component
  | string value => [written (.string value true)]
  | ident name => [written (.ident name)]

/-- A canonical name is spelled by its text. -/
theorem Canonical.spells {n : KeyframesName} (h : n.Canonical) : Spells n.components n.css := by
  cases n with
  | string value => exact spells_string h
  | ident name => exact spells_ident h.isName

/-- A canonical name behind fillers is read. -/
theorem parser_reads_behind {n : KeyframesName} (h : n.Canonical) {lead : List Component}
    (hlead : lead.all Component.isFiller) : Reads parser (lead ++ n.components) (Exactly n []) := by
  cases n with
  | string value =>
      have hstring :
          Reads Parser.string (lead ++ [written (.string value true)]) (Exactly value []) :=
        reads_expect_written hlead rfl fun _ _ => rfl
      exact hstring.attempt.andThen (reads_pure _ _)
  | ident name =>
      have hstring : Refuses Parser.string (lead ++ [written (.ident name)]) :=
        refuses_expect_written hlead rfl fun _ _ => rfl
      have hname :
          Reads (customIdent ["none"]) (lead ++ [written (.ident name)]) (Exactly name []) :=
        reads_customIdent h hlead
      exact hstring.attempt.andThen (hname.andThen (reads_pure _ _))

/-- A canonical name is read. -/
theorem parser_reads {n : KeyframesName} (h : n.Canonical) :
    Reads parser n.components (Exactly n []) := by
  have hnothing : ([] : List Component).all Component.isFiller := rfl
  exact parser_reads_behind h hnothing

/-- The name of an animation that is read from a text is read back from its canonical text. -/
theorem run_css_name {text : String} {n : KeyframesName} (h : (entirely parser).run text = .ok n) :
    (entirely parser).run n.css = .ok n := by
  have hcanonical : n.Canonical := parser_yields.entirely.of_run h
  have hread : ReadsAll parser n.components n := ⟨[], rfl, parser_reads hcanonical⟩
  exact hread.entirely.run hcanonical.spells.toReadFrom

end KeyframesName

namespace Number.Numeric

/-- Values with the same exact value are equal. -/
theorem beq_of_toRat? {a b : Numeric} {x : Rat} (ha : a.toRat? = some x) (hb : b.toRat? = some x) :
    (a == b) = true := by
  have hle {a b : Numeric} (ha : a.toRat? = some x) (hb : b.toRat? = some x) : a.le b = true :=
    (le_iff_of_toRat? ha hb).mpr le_rfl
  show (a.le b && b.le a) = true
  rw [hle ha hb, hle hb ha, Bool.true_and]

end Number.Numeric

/-- A moment of an animation can be written. -/
theorem IsMoment.isWritable {p : Numeric} (h : IsMoment p) : p.IsWritable := by
  obtain ⟨x, hx, hlower, hupper⟩ := h
  cases p with
  | integer n =>
      obtain rfl : (n : Rat) = x := Option.some.inj hx
      have hnonneg : 0 ≤ n := by exact_mod_cast hlower
      have hhundred : n ≤ 100 := by exact_mod_cast hupper
      exact Nat.lt_of_le_of_lt (show n.natAbs ≤ 100 by omega) (by decide +kernel)
  | real y => exact Option.isSome_iff_exists.mpr ⟨x, hx⟩

namespace KeyframeSelector

/-- The component of a moment. -/
def momentComponent (p : Numeric) : Component := written (.percentage (.ofNumeric p))

/-- The components of the moments of a keyframe. -/
def components (s : KeyframeSelector) : List Component :=
  commaComponents (fun p => [momentComponent p]) s.percentages

/-- The canonical text of moments that can be written. -/
def text (s : KeyframeSelector) : String :=
  ", ".intercalate (s.percentages.map fun p => (Numeral.ofNumeric p).text ++ "%")

/-- The moments that are read back, where integers stand for doubles that are integers. -/
def asWritten (s : KeyframeSelector) : KeyframeSelector :=
  ⟨s.percentages.map fun p => (Numeral.ofNumeric p).value⟩

/-- The moments can be written and are spelled by their text: each is a moment of an animation,
whose number is one that a token can have. -/
structure IsSpelled (s : KeyframeSelector) : Prop where
  ne_nil : s.percentages ≠ []
  isMoment : ∀ p ∈ s.percentages, IsMoment p
  isRead : ∀ p ∈ s.percentages, p.IsRead

/-- The moments of a keyframe are spelled. -/
theorem parser_yields_isSpelled : Yields SoundTokens parser IsSpelled := by
  have hlimit : 100 < 10 ^ digitLimit := by decide +kernel
  have hmoment : Yields SoundTokens momentParser fun p => IsMoment p ∧ p.IsRead := by
    refine yields_next.bind fun component hcomponent => ?_
    split
    · rename_i p hp
      refine yields_pure ⟨isMoment_of_moment? hp, ?_⟩
      have hsound := hcomponent.token
      unfold moment? at hp
      split at hp
      · split at hp
        · obtain rfl := Option.some.inj hp
          exact hsound
        · cases hp
      · split at hp
        · obtain rfl := Option.some.inj hp
          exact Nat.zero_lt_of_lt hlimit
        · obtain rfl := Option.some.inj hp
          exact hlimit
        · cases hp
    · exact yields_fault
  refine hmoment.commaSeparated.bind fun _ h => yields_pure ⟨h.1, ?_, ?_⟩
  · exact fun p hp => (h.2 p hp).1
  · exact fun p hp => (h.2 p hp).2

variable {s : KeyframeSelector}

/-- The moments have a text. -/
theorem IsSpelled.css_eq (h : s.IsSpelled) : s.css = .ok s.text := by
  have htexts : s.percentages.mapM (fun p => do return (← p.css) ++ "%") =
      .ok (s.percentages.map fun p => (Numeral.ofNumeric p).text ++ "%") :=
    mapM_eq_ok fun p hp => by rw [Numeral.css_eq (h.isMoment p hp).isWritable]; rfl
  rw [css, htexts]
  rfl

/-- The moments are spelled by their text. -/
theorem IsSpelled.spells (h : s.IsSpelled) : Spells s.components s.text :=
  Component.spells_commaComponents h.ne_nil fun p hp =>
    spells_percentage (Numeral.isCanonical_ofNumeric (h.isRead p hp) (h.isMoment p hp).isWritable)

/-- A written moment is read. -/
theorem reads_momentParser {p : Numeric} (h : IsMoment p) {lead : List Component}
    (hlead : lead.all Component.isFiller) :
    Reads momentParser (lead ++ [momentComponent p]) (Exactly (Numeral.ofNumeric p).value []) := by
  refine (reads_next (Component.dropWhile_isFiller_append hlead rfl)).bind
    fun component after hfound => ?_
  obtain ⟨hbare, rfl⟩ := hfound
  obtain ⟨text, start, rfl⟩ := exists_leaf_of_bare hbare
  obtain ⟨x, hx, hlower, hupper⟩ := h
  have hvalue : (Numeral.ofNumeric p).value.toRat? = some x := by rw [Numeral.toRat?_ofNumeric, hx]
  have hmoment : moment? (.leaf ⟨.percentage (Numeral.ofNumeric p), text, start⟩) =
      some (Numeral.ofNumeric p).value := by
    have hzero := (Numeric.le_iff_of_toRat? (a := .integer 0) rfl hvalue).mpr hlower
    have hhundred := (Numeric.le_iff_of_toRat? (b := .integer 100) hvalue rfl).mpr hupper
    simp [moment?, hzero, hhundred]
  rw [hmoment]
  exact reads_pure _ _

/-- Written moments are read. -/
theorem parser_reads (h : s.IsSpelled) : Reads parser s.components (Exactly s.asWritten []) := by
  have hmoments :
      Reads (commaSeparated momentParser) s.components (Exactly s.asWritten.percentages []) :=
    reads_commaComponents_map h.ne_nil
      (fun p hp lead hlead => ⟨[], rfl, reads_momentParser (h.isMoment p hp) hlead⟩)
      fun p _ c hc => by rw [List.mem_singleton.mp hc]; rfl
  exact hmoments.andThen (reads_pure _ _)

/-- Written moments have the exact values of the moments. -/
theorem map_toRat?_asWritten (s : KeyframeSelector) :
    s.asWritten.percentages.map Numeric.toRat? = s.percentages.map Numeric.toRat? := by
  rw [asWritten, List.map_map]
  exact List.map_congr_left fun p _ => Numeral.toRat?_ofNumeric p

/-- Moments with the same exact values, one by one, are equal. -/
theorem beq_of_map_toRat? {a b : KeyframeSelector} (h : ∀ p ∈ b.percentages, IsMoment p)
    (heq : a.percentages.map Numeric.toRat? = b.percentages.map Numeric.toRat?) :
    (a == b) = true := by
  obtain ⟨ps⟩ := a
  obtain ⟨qs⟩ := b
  show (ps == qs) = true
  dsimp only at h heq
  induction qs generalizing ps with
  | nil => rw [List.map_eq_nil_iff.mp heq]; rfl
  | cons q qs ih =>
      obtain ⟨p, ps, rfl, hp, hps⟩ := List.map_eq_cons_iff.mp heq
      obtain ⟨hq, hqs⟩ := List.forall_mem_cons.mp h
      obtain ⟨x, hx, -⟩ := hq
      rw [List.cons_beq_cons, Numeric.beq_of_toRat? (hp.trans hx) hx, ih ps hqs hps, Bool.true_and]

/-- The moments of a keyframe that are read from a text can be written. What is written is read as
moments with the same exact values, one by one. -/
theorem run_css_moments {text : String} (h : (entirely parser).run text = .ok s) :
    ∃ css again, s.css = .ok css ∧ (entirely parser).run css = .ok again ∧ again == s ∧
      again.percentages.map Numeric.toRat? = s.percentages.map Numeric.toRat? := by
  have hspelled : s.IsSpelled := parser_yields_isSpelled.entirely.of_run h
  have hread : ReadsAll parser s.components s.asWritten := ⟨[], rfl, parser_reads hspelled⟩
  exact ⟨s.text, s.asWritten, hspelled.css_eq, hread.entirely.run hspelled.spells.toReadFrom,
    beq_of_map_toRat? hspelled.isMoment s.map_toRat?_asWritten, s.map_toRat?_asWritten⟩

end KeyframeSelector

/-- What the two grammars in front of keyframes read from a text is read back from its canonical
text: the name of an animation as the same name, and the moments of a keyframe as moments that are
equal to them and have the same exact values, one by one. -/
theorem Keyframes.run_css_parts :
    (∀ (text : String) (n : KeyframesName), (entirely KeyframesName.parser).run text = .ok n →
      (entirely KeyframesName.parser).run n.css = .ok n) ∧
    ∀ (text : String) (s : KeyframeSelector),
      (entirely KeyframeSelector.parser).run text = .ok s →
        ∃ css again, s.css = .ok css ∧ (entirely KeyframeSelector.parser).run css = .ok again ∧
          again == s ∧
          again.percentages.map Numeric.toRat? = s.percentages.map Numeric.toRat? :=
  ⟨fun _ _ => KeyframesName.run_css_name, fun _ _ => KeyframeSelector.run_css_moments⟩

/-- A name that starts like a number, and moments as words, as an integer and with a fraction. -/
theorem Keyframes.run_css_parts_words :
    (∃ n, (entirely KeyframesName.parser).run " \\31 st" = .ok n ∧
      (entirely KeyframesName.parser).run n.css = .ok n) ∧
    ∃ s : KeyframeSelector,
      (entirely KeyframeSelector.parser).run "FROM,+07%, 1e1%,2.50% ,to" = .ok s ∧
        ∃ css again, s.css = .ok css ∧ (entirely KeyframeSelector.parser).run css = .ok again ∧
          again == s ∧
          again.percentages.map Numeric.toRat? = s.percentages.map Numeric.toRat? := by
  have hname : (entirely KeyframesName.parser).run " \\31 st" = .ok (.ident "1st") := by cbv
  have hmoments : ((entirely KeyframeSelector.parser).run
      "FROM,+07%, 1e1%,2.50% ,to").toOption.isSome := by
    decide +kernel
  refine ⟨⟨_, hname, run_css_parts.1 _ _ hname⟩, ?_⟩
  generalize hrun : (entirely KeyframeSelector.parser).run _ = result at hmoments ⊢
  cases result with
  | error e => cases hmoments
  | ok s => exact ⟨s, rfl, run_css_parts.2 _ s hrun⟩

end Css
