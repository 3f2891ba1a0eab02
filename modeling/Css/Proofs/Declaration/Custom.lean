import Css.Proofs.Declaration.Items
import Css.Proofs.Declaration.Names

/-!
# Custom properties

The name of a custom property starts with two hyphens, and it is kept as it is. A vendor prefix is
split off any other name without a look at what is left, so it may hide the name of a custom
property. A declaration with such a name counts as one of a custom property, and its value may be
empty, `Declaration.isCustom_iff`.
-/

namespace Css

open Css.Parser
open Component (significant significant_append closedTextOf keptText)

/-- A name that does not start with two hyphens does not in lower case. -/
theorem isCustomName_lowerCase (name : String) :
    isCustomName (Text.lowerCase name) = isCustomName name := by
  rw [isCustomName, Text.lowerCase, String.toList_ofList]
  exact Text.isPrefixOf_lowerAfter 2 [] name.toList

namespace VendorPrefix

instance : LawfulVocabulary VendorPrefix where
  find?_word member := by cases member <;> decide

/-- The name of a vendor is a word without hyphens. -/
theorem name_spec (p : VendorPrefix) : p.name.toList ≠ [] ∧ '-' ∉ p.name.toList := by
  cases p <;> decide

/-- The prefix in front of a name is split off. -/
theorem split_css_append (p : VendorPrefix) {base : String} (h : base ≠ "") :
    split (p.css ++ base) = (some p, base) := by
  have hchars : (p.css ++ base).toList = '-' :: (p.name.toList ++ '-' :: base.toList) := by
    simp [css]
  have hvendor : (p.name.toList ++ '-' :: base.toList).takeWhile (· ≠ '-') = p.name.toList := by
    have hhyphens : ∀ c ∈ p.name.toList, (c ≠ '-' : Bool) = true := by
      intro c hmem
      exact decide_eq_true fun heq => p.name_spec.2 (heq ▸ hmem)
    rw [List.takeWhile_append_of_pos hhyphens, List.takeWhile_cons_of_neg (by simp),
      List.append_nil]
  have hbase : (p.name.toList ++ '-' :: base.toList).drop (p.name.toList.length + 1) =
      base.toList := by
    rw [← List.drop_drop, List.drop_left]
    rfl
  unfold split
  split
  · rename_i chars heq
    obtain rfl : chars = p.name.toList ++ '-' :: base.toList := by
      rw [hchars] at heq
      exact (List.cons.inj heq).2.symm
    dsimp only
    rw [hvendor, hbase, String.ofList_toList, name, Vocabulary.find?_word]
    simp [h]
  · rename_i hno
    exact absurd hchars (hno _)

end VendorPrefix

namespace Declaration

variable {context : Context} {name : String} {c after : Cursor} {d : Declaration}

/-- A vendor prefix stands in front of the name of a custom property. -/
def HidesCustom (name : String) : Prop :=
  ∃ (p : VendorPrefix) (base : String),
    Text.lowerCase name = p.css ++ base ∧ isCustomName base = true

/-- What is left of a name is the name of a custom property if and only if the name is one or hides
one. -/
theorem isCustomName_nameParts_iff {name : String} :
    isCustomName (nameParts name).2 = true ↔ isCustomName name = true ∨ HidesCustom name := by
  unfold nameParts
  split
  · rename_i hcustom
    simp [hcustom]
  · rename_i hcustom
    rw [or_iff_right hcustom]
    constructor
    · intro h
      have hsplit := VendorPrefix.css_split (Text.lowerCase name)
      cases hvendor : (VendorPrefix.split (Text.lowerCase name)).1 with
      | none =>
          -- without a prefix the whole name is left, and it is no custom one
          rw [hvendor] at hsplit
          rw [show (VendorPrefix.split (Text.lowerCase name)).2 = Text.lowerCase name by
            simpa using hsplit, isCustomName_lowerCase] at h
          exact absurd h hcustom
      | some p =>
          rw [hvendor] at hsplit
          exact ⟨p, _, hsplit.symm, h⟩
    · rintro ⟨p, base, hlower, hbase⟩
      have hne : base ≠ "" := by
        rintro rfl
        revert hbase
        decide
      rwa [hlower, VendorPrefix.split_css_append p hne]

/-- A value that is no filler stands in the components, and its text is nothing but blank. -/
def HasBlankValue (components : List Component) : Prop :=
  ∃ value important, ValueParts value important components ∧ significant value ≠ [] ∧
    ∀ c ∈ closedTextOf (value.rdropWhile Component.isFiller), Text.isBlank c = true

/-- A value is left out if and only if the property is a custom one by what is left of its name. -/
theorem afterColon_filler_iff (h : significant c.rest = []) :
    (∃ d after, afterColon context name c = .ok d after) ↔
      isCustomName name = true ∨ HidesCustom name := by
  simp only [afterColon_eq_ok_iff, ← isCustomName_nameParts_iff]
  constructor
  · rintro ⟨d, after, ⟨value, important, hparts, hallowed, -⟩, -⟩
    generalize c.rest = components at h hparts
    obtain ⟨-, -⟩ := hparts
    exact hallowed.custom_of_empty (List.append_eq_nil_iff.mp (significant_append .. ▸ h)).1
  · intro hcustom
    have hparts : ValueParts c.rest false (c.rest ++ []) :=
      .intro (Component.isDelimiter_of_significant h) .absent
    rw [List.append_nil] at hparts
    have hclean := Component.errorTokenOf?_of_significant h
    exact ⟨_, _, ⟨c.rest, false, hparts, ⟨hclean, fun _ => hcustom, nofun⟩, rfl⟩, rfl⟩

/-- A declaration is one of a custom property if and only if its name is the name of one or hides
one. The name of a custom property is kept. A value is only empty if the name is the name of a
custom property or hides one, or if its text is nothing but blank. -/
theorem isCustom_iff (h : afterColon context name c = .ok d after) :
    (d.isCustom = true ↔ isCustomName name = true ∨ HidesCustom name) ∧
      (isCustomName name = true → d.vendorPrefix = none ∧ d.name = name) ∧
      (d.value = .specified "" →
        isCustomName name = true ∨ HidesCustom name ∨ HasBlankValue c.rest) := by
  obtain ⟨⟨value, important, hparts, hallowed, rfl⟩, -⟩ := afterColon_eq_ok_iff.mp h
  refine ⟨isCustomName_nameParts_iff, fun hcustom => ?_, fun hempty => ?_⟩
  · simp [ofParts, nameParts, hcustom]
  · by_cases hvalue : significant value = []
    · rw [← or_assoc]
      exact .inl (isCustomName_nameParts_iff.mp (hallowed.custom_of_empty hvalue))
    · have hkept : keptText value = "" := by
        change PropertyValue.ofComponents value = _ at hempty
        unfold PropertyValue.ofComponents at hempty
        cases hwide : PropertyValue.wide? value with
        | none => simpa [hwide] using hempty
        | some keyword => simp [hwide] at hempty
      exact .inr (.inr ⟨value, important, hparts, hvalue, Component.keptText_eq_empty_iff.mp hkept⟩)

/-- A custom property may have no value, and its name may be in mixed case. -/
theorem isCustom_iff_mixed : ∃ d after,
    afterColon ((Context.ofMode .strict).inRule .style) "--moz-X" ⟨[], .first⟩ = .ok d after ∧
      d.isCustom = true ∧ d.vendorPrefix = none ∧ d.name = "--moz-X" := by
  obtain ⟨d, after, h⟩ : ∃ d after,
      afterColon ((Context.ofMode .strict).inRule .style) "--moz-X" ⟨[], .first⟩ = .ok d after :=
    (afterColon_filler_iff rfl).mpr (.inl (by decide))
  obtain ⟨hiff, hkept, -⟩ := isCustom_iff h
  obtain ⟨hvendor, hname⟩ := hkept (by decide)
  exact ⟨d, after, h, hiff.mpr (.inl (by decide)), hvendor, hname⟩

/-- **A vendor prefix hides the name of a custom property.** The name of this declaration does not
start with two hyphens, but the declaration counts as one of a custom property, and its value is
empty. -/
theorem not_isCustom_iff : ∃ d,
    afterColon ((Context.ofMode .strict).inRule .style) "-webkit---x" ⟨[], .first⟩ =
        .ok d ⟨[], .first⟩ ∧
      isCustomName "-webkit---x" = false ∧ d.isCustom = true ∧ d.value = .specified "" := by
  have hname : nameParts "-webkit---x" = (some .webkit, "--x") := by decide +kernel
  have hcustom : isCustomName (nameParts "-webkit---x").2 = true := by
    rw [hname]
    decide
  have hparts : ValueParts [] false [] := .intro nofun .absent
  exact ⟨_, afterColon_eq_ok_iff.mpr
    ⟨⟨[], false, hparts, ⟨rfl, fun _ => hcustom, nofun⟩, rfl⟩, rfl⟩, by decide, hcustom, rfl⟩

end Declaration

end Css
