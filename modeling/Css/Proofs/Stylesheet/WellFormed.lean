import Css.Proofs.Rule.Canonical
import Css.Proofs.Vocabulary

/-!
# Well-formed stylesheets

Whatever is accepted is well formed, at any depth of grouping rules: no declaration of a keyframe is
important, every moment is between 0 and 100, every counter style has a name that may be defined and
the symbols that its system needs, weights descend, ranges are ordered, and media ranges are
bounded. Unless the mode allows negative numbers everywhere, they stand only where they make sense.
-/

namespace Css

open Number

/-- A keyframe has moments, which are percentages between 0 and 100, and no important
declarations. -/
structure Keyframe.WellFormed (k : Keyframe) : Prop where
  unimportant : ∀ d ∈ k.declarations.declarations, d.important = false
  ne_nil : k.selector.percentages ≠ []
  between : ∀ p ∈ k.selector.percentages, ∃ x : Rat, p.toRat? = some x ∧ 0 ≤ x ∧ x ≤ 100

/-- A counter style may be defined, and has the symbols that it needs, descending weights and
ordered ranges. Widths and weights are negative only if the mode allows it. -/
structure CounterStyle.WellFormed (mode : Mode) (s : CounterStyle) : Prop where
  not_reserved : Text.lowerCase s.name.name ∉ CounterStyleName.reserved
  ne_none : Text.lowerCase s.name.name ≠ "none"
  ne_default : Text.lowerCase s.name.name ≠ "default"
  not_wide : ∀ word : WideKeyword, Text.lowerCase s.name.name ≠ Vocabulary.word word
  hasSymbols : s.HasSymbols
  descending : ∀ a ∈ s.additiveSymbols, (a.tuples.map WeightedSymbol.weight).Pairwise (· > ·)
  ordered : ∀ ranges ∈ s.range, ∀ range ∈ ranges.ranges,
    ∀ lower ∈ range.lower, ∀ upper ∈ range.upper, lower ≤ upper
  width_nonneg : mode.negativeNumbers = false → ∀ pad ∈ s.pad, 0 ≤ pad.width
  weight_nonneg : mode.negativeNumbers = false →
    ∀ a ∈ s.additiveSymbols, ∀ tuple ∈ a.tuples, 0 ≤ tuple.weight

/-- The parts of a ratio and a count are not negative. -/
def RangeValue.Nonneg : RangeValue → Prop
  | .ratio numerator denominator =>
    (Numeric.integer 0).le numerator = true ∧ (Numeric.integer 0).le denominator = true
  | .count n => 0 ≤ n
  | _ => True

/-- A range of a media feature is bounded. Its bounds are negative only if the mode allows it. -/
structure Range.WellFormed (mode : Mode) (r : Range) : Prop where
  bounded : r.lower.isSome ∨ r.upper.isSome
  nonneg : mode.negativeNumbers = false →
    ∀ bound, bound ∈ r.lower ∨ bound ∈ r.upper → bound.value.Nonneg

/-- The ranges in a media list are well formed. -/
def MediaList.WellFormed (mode : Mode) (l : MediaList) : Prop :=
  ∀ query ∈ l.queries, ∀ expression ∈ query.expressions,
    ∀ name range, expression.feature = .ranged name range → range.WellFormed mode

/-- What a rule holds itself, without the rules that it groups, is well formed. -/
def Rule.WellFormed (mode : Mode) : Rule → Prop
  | .style _ _ | .supports _ _ => True
  | .media queries _ => queries.WellFormed mode
  | .counterStyle s => s.WellFormed mode
  | .keyframes k => ∀ keyframe ∈ k.keyframes, keyframe.WellFormed

/-- A rule stands among rules, at any depth of grouping rules. -/
inductive Rule.Within (rule : Rule) : List Rule → Prop where
  | here {rules : List Rule} (hrule : rule ∈ rules) : rule.Within rules
  | nested {rules nested : List Rule} (group : Rule) (hgroup : group ∈ rules)
      (hnested : group.nested? = some nested) (hrule : rule.Within nested) : rule.Within rules

/-- A canonical keyframe is well formed. -/
theorem Keyframe.Canonical.wellFormed {k : Keyframe} (h : k.Canonical) : k.WellFormed :=
  ⟨h.unimportant, h.selector.ne_nil, h.selector.percentages⟩

/-- Weights that descend from each tuple to the next descend throughout. -/
theorem AdditiveSymbols.pairwise_of_isDescending {a : AdditiveSymbols} (h : a.isDescending) :
    (a.tuples.map WeightedSymbol.weight).Pairwise (· > ·) := by
  obtain ⟨tuples⟩ := a
  rw [← List.isChain_iff_pairwise, List.isChain_map]
  induction tuples with
  | nil => exact .nil
  | cons first others ih =>
      cases others with
      | nil => exact .singleton first
      | cons second others =>
          simp only [isDescending, List.drop_succ_cons, List.drop_zero, List.zip_cons_cons,
            List.all_cons, Bool.and_eq_true, decide_eq_true_eq] at h ih
          exact .cons_cons h.1 (ih h.2)

/-- A canonical counter style is well formed. -/
theorem CounterStyle.Canonical.wellFormed {mode : Mode} {s : CounterStyle} (h : s.Canonical mode) :
    s.WellFormed mode where
  not_reserved hmem := h.name.custom.notMem_excluded (List.mem_cons_of_mem _ hmem)
  ne_none heq := h.name.custom.notMem_excluded (heq ▸ List.mem_cons_self ..)
  ne_default := h.name.custom.ne_default
  not_wide word heq := by
    have hwide := h.name.custom.not_wide
    rw [heq, Vocabulary.find?_word] at hwide
    cases hwide
  hasSymbols := symbolFault?_eq_none_iff.mp h.symbols
  descending a ha :=
    AdditiveSymbols.pairwise_of_isDescending (h.descriptors.additiveSymbols a ha).isDescending
  ordered ranges hranges range hrange lower hlower upper hupper := by
    have hordered := (h.descriptors.range ranges hranges range hrange).isOrdered
    simpa [CounterRange.isOrdered, Option.mem_def.mp hlower,
      Option.mem_def.mp hupper] using hordered
  width_nonneg hmode pad hpad := (h.descriptors.pad pad hpad).width.nonneg hmode
  weight_nonneg hmode a ha tuple htuple :=
    ((h.descriptors.additiveSymbols a ha).tuples tuple htuple).weight.nonneg hmode

namespace RangedFeature

/-- The zero of a feature is not negative. -/
theorem nonneg_zero (feature : RangedFeature) : feature.zero.Nonneg := by
  cases feature with
  | width | height | resolution => trivial
  | aspectRatio => exact ⟨rfl, rfl⟩
  | color | colorIndex | monochrome => exact Int.le_refl 0

/-- What a feature accepts is negative only if the mode allows it. -/
theorem Accepts.nonneg {mode : Mode} {feature : RangedFeature} {value : RangeValue}
    (h : feature.Accepts mode value) (hmode : mode.negativeNumbers = false) : value.Nonneg := by
  unfold Accepts at h
  split at h
  · trivial
  · trivial
  · exact h.2 hmode
  · trivial
  · exact h.2 hmode
  · exact h.2 hmode
  · exact h.2 hmode
  · cases h

/-- The values that compare with one that a feature accepts make up a well-formed range. -/
theorem Accepts.wellFormed {mode : Mode} {feature : RangedFeature} {value : RangeValue}
    (h : feature.Accepts mode value) (comparison : Comparison) :
    (comparison.range value).WellFormed mode := by
  refine ⟨?_, fun hmode bound hbound => ?_⟩
  · cases comparison <;> simp [Comparison.range, Range.exactly]
  · have hvalue : bound.value = value := by
      cases comparison <;> simp [Comparison.range, Range.exactly] at hbound <;> simp [← hbound]
    rw [hvalue]
    exact h.nonneg hmode

/-- Between two well-formed ranges there is a well-formed one. -/
theorem wellFormed_between {mode : Mode} {first second : Range} (hfirst : first.WellFormed mode)
    (hsecond : second.WellFormed mode) : (Feature.between first second).WellFormed mode where
  bounded := by
    rcases hfirst.bounded with h | h
    · exact .inl (by simp [Feature.between, h])
    · exact .inr (by simp [Feature.between, h])
  nonneg hmode bound hbound := by
    simp only [Feature.between, Option.mem_def, Option.or_eq_some_iff] at hbound
    rcases hbound with (h | ⟨_, h⟩) | (h | ⟨_, h⟩)
    · exact hfirst.nonneg hmode bound (.inl h)
    · exact hsecond.nonneg hmode bound (.inl h)
    · exact hfirst.nonneg hmode bound (.inr h)
    · exact hsecond.nonneg hmode bound (.inr h)

/-- A range that a feature can be asked for is well formed. -/
theorem Asks.wellFormed {mode : Mode} {feature : RangedFeature} {range : Range}
    (h : feature.Asks mode range) : range.WellFormed mode := by
  cases h with
  | above =>
      refine ⟨.inl rfl, fun _ bound hbound => ?_⟩
      obtain rfl : ⟨feature.zero, false⟩ = bound := by simpa [Range.above] using hbound
      exact feature.nonneg_zero
  | compared comparison value hvalue => exact hvalue.wellFormed comparison
  | between first second value other _ hvalue hother =>
      exact wellFormed_between (hvalue.wellFormed first.flip) (hother.wellFormed second)

end RangedFeature

/-- What a canonical rule holds itself is well formed. -/
theorem Rule.Canonical.wellFormed {mode : Mode} {rule : Rule} (h : rule.Canonical mode) :
    rule.WellFormed mode := by
  cases h with
  | style | supports => trivial
  | media queries rules hqueries _ =>
      intro query hquery expression hexpression name range hrange
      have hfeature := (hqueries query hquery).expressions expression hexpression
      rw [hrange] at hfeature
      exact hfeature.wellFormed
  | counterStyle s hstyle => exact hstyle.wellFormed
  | keyframes k hkeyframes =>
      exact fun keyframe hkeyframe => (hkeyframes.keyframes keyframe hkeyframe).wellFormed

/-- A rule at any depth of canonical rules is canonical. -/
theorem Rule.Within.canonical {mode : Mode} {rule : Rule} {rules : List Rule}
    (hrule : rule.Within rules) (h : ∀ other ∈ rules, other.Canonical mode) :
    rule.Canonical mode := by
  induction hrule with
  | here hrule => exact h rule hrule
  | nested group hgroup hnested _ ih =>
      have hcanonical := h group hgroup
      cases hcanonical with
      | media queries list _ hrules => cases hnested; exact ih hrules
      | supports condition list hrules => cases hnested; exact ih hrules
      | style | counterStyle | keyframes => cases hnested

/-- Every rule of a stylesheet that was read is well formed, at any depth. -/
theorem Stylesheet.wellFormed_of_ofText {mode : Mode} {text : String} {s : Stylesheet}
    (h : ofText mode text = .ok s) {rule : Rule} (hrule : rule.Within s.rules) :
    rule.WellFormed mode :=
  (hrule.canonical (canonical_of_ofText h)).wellFormed

/-- Keyframes inside two grouping rules, in the strict mode. -/
theorem Stylesheet.wellFormed_nested_keyframes :
    ∃ s : Stylesheet,
      ofText .strict "@media (color>2){@supports (a:b){@keyframes k{from{c:d}}}}" = .ok s ∧
        ∃ k : Keyframes, (Rule.keyframes k).Within s.rules ∧
          (Rule.keyframes k).WellFormed .strict := by
  have hread : ∃ s : Stylesheet,
      ofText .strict "@media (color>2){@supports (a:b){@keyframes k{from{c:d}}}}" = .ok s ∧
        ∃ k : Keyframes, (Rule.keyframes k).Within s.rules := by
    refine ⟨_, by cbv, ?_⟩
    exact ⟨_, .nested _ (.head _) rfl (.nested _ (.head _) rfl (.here (.head _)))⟩
  obtain ⟨s, hs, k, hk⟩ := hread
  exact ⟨s, hs, k, hk, wellFormed_of_ofText hs hk⟩

end Css
