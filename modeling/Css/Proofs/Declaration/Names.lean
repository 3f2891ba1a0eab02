import Css.Proofs.Declaration.Forms
import Css.Proofs.Text.LowerCase
import Css.Proofs.Token.Unescaped
import Css.Proofs.Vocabulary
import Css.Stylesheet.Basic

/-!
# Written names of declarations

The vendor prefix and the name of a declaration make up the name that an author called the property
by, in lower case unless it is a custom one. They are written as they are. In front of the colon
they are read as one identifier if and only if it needs no escapes,
`Declaration.ofString_fullName_iff`.
-/

namespace Css

/-- A text is what stands in front of a mark, the mark, and what stands behind it, if anything
does. -/
theorem takeWhile_append_drop (mark : Char) {text : List Char}
    (h : text.drop ((text.takeWhile (· ≠ mark)).length + 1) ≠ []) :
    text.takeWhile (· ≠ mark) ++ mark :: text.drop ((text.takeWhile (· ≠ mark)).length + 1) =
      text := by
  have hsplit := List.takeWhile_append_dropWhile (p := (· ≠ mark)) (l := text)
  generalize text.takeWhile (· ≠ mark) = front at hsplit h ⊢
  cases hrest : text.dropWhile (· ≠ mark) with
  | nil =>
      rw [hrest, List.append_nil] at hsplit
      subst hsplit
      simp at h
  | cons d rest =>
      have hd : d = mark := by
        have hhead := List.head?_dropWhile_not (· ≠ mark) text
        rw [hrest] at hhead
        simpa using hhead
      subst hd
      rw [hrest] at hsplit
      subst hsplit
      simp

/-- The prefix and the rest that a name falls into make up the name. -/
theorem VendorPrefix.css_split (name : String) :
    ((split name).1.map css).getD "" ++ (split name).2 = name := by
  unfold split
  split
  · rename_i chars hchars
    dsimp only
    split
    · rename_i vendor hvendor
      split
      · simp
      · rename_i hbase
        -- a prefix is split off where it stands between two hyphens and something follows
        have hword := Vocabulary.word_of_find? hvendor
        have hchars' := takeWhile_append_drop '-' (by simpa using hbase)
        refine String.toList_inj.mp ?_
        simp only [Option.map_some, Option.getD_some, css, VendorPrefix.name, hword]
        rw [hchars]
        simpa using hchars'
    · simp
  · simp

namespace Declaration

/-- The name of the declared property with its vendor prefix. -/
def fullName (d : Declaration) : String :=
  (d.vendorPrefix.map VendorPrefix.css).getD "" ++ d.name

/-- The property that an author calls by a name. The names of custom properties are kept, and those
of others are in lower case. -/
def propertyName (name : String) : String :=
  if isCustomName name then name else Text.lowerCase name

/-- The parts of a name make up the property that it calls for. -/
theorem fullName_ofParts (name : String) (value : List Component) (important : Bool) :
    (ofParts name value important).fullName = propertyName name := by
  unfold fullName ofParts propertyName nameParts
  split
  · simp
  · exact VendorPrefix.css_split _

/-- A name that holds something calls for a property whose name does. -/
theorem propertyName_ne_empty {name : String} (h : name ≠ "") : propertyName name ≠ "" := by
  unfold propertyName
  split
  · exact h
  · exact Text.lowerCase_ne_empty h

/-- A declaration is read with the name that it is written with up to the colon, in lower case
unless the property is a custom one. The text up to the colon is read as one identifier of this name
and the colon if and only if the name needs no escapes. -/
theorem ofString_fullName_iff {context : Context} {name : String} (hname : name ≠ "")
    {c after : Cursor} {d : Declaration} (h : afterColon context name c = .ok d after) :
    d.css = d.fullName ++ ":" ++ (d.value.css ++ d.importanceCss) ∧
      d.fullName = propertyName name ∧
      ((∃ source, Source.ofString (d.fullName ++ ":") = .ok source ∧
          source.tokens.map Token.kind = [.ident (propertyName name), .colon]) ↔
        identifierText (propertyName name) = propertyName name) := by
  obtain ⟨⟨value, important, -, -, rfl⟩, -⟩ := afterColon_eq_ok_iff.mp h
  refine ⟨?_, fullName_ofParts name value important, ?_⟩
  · simp [css, fullName, String.append_assoc]
  · rw [fullName_ofParts]
    exact Source.ofString_name_iff (propertyName_ne_empty hname)

/-- A prefixed name in mixed case is written in lower case, and read back. -/
theorem ofString_fullName_prefixed : ∃ c d after,
    afterColon ((Context.ofMode .strict).inRule .style) "-WebKit-Flow" c = .ok d after ∧
      d.fullName = "-webkit-flow" ∧
      ∃ source, Source.ofString (d.fullName ++ ":") = .ok source ∧
        source.tokens.map Token.kind = [.ident "-webkit-flow", .colon] := by
  obtain ⟨c, d, after, h⟩ : ∃ c d after,
      afterColon ((Context.ofMode .strict).inRule .style) "-WebKit-Flow" c = .ok d after := by
    have hparts : ValueParts [.leaf ⟨.ident "a", ['a'], .first⟩] false
        [.leaf ⟨.ident "a", ['a'], .first⟩] := .intro (by simp; rfl) .absent
    exact ⟨⟨_, .first⟩, _, _, afterColon_eq_ok_iff.mpr
      ⟨⟨_, false, hparts, ⟨rfl, nofun, nofun⟩, rfl⟩, rfl⟩⟩
  have hlower : propertyName "-WebKit-Flow" = "-webkit-flow" := by
    have hcustom : isCustomName "-WebKit-Flow" = false := by cbv
    simp only [propertyName, hcustom, Bool.false_eq_true, if_false]
    cbv
  obtain ⟨-, hfull, hsource⟩ := ofString_fullName_iff (by decide) h
  rw [hlower] at hfull hsource
  exact ⟨c, d, after, h, hfull, hsource.mpr (by decide)⟩

/-- **Names are written without escapes.** The name in this declaration holds a semicolon, which
ends the identifier that is written for it. -/
theorem not_ofString_fullName : ∃ d source,
    Declaration.ofText ((Context.ofMode .strict).inRule .style) "a\\;b:c" = .ok d ∧
      d.fullName = propertyName "a;b" ∧ Source.ofString (d.fullName ++ ":") = .ok source ∧
      source.tokens.map Token.kind ≠ [.ident (propertyName "a;b"), .colon] := by
  refine ⟨⟨none, "a;b", .specified "c", false⟩, _, by cbv, by cbv, by cbv, fun hkinds => ?_⟩
  cbv at hkinds
  simp at hkinds

end Declaration

end Css
