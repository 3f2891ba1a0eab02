import Css.Proofs.Declaration.Forms
import Css.Proofs.Declaration.Items
import Css.Proofs.Parser.Written

/-!
# Which lists of declarations are accepted

A list is accepted if and only if every segment between semicolons in which something stands has the
parts of a declaration, and these are allowed. It then holds the declarations that the segments make
up, one for each, in order.
-/

namespace Css

open Css.Parser
open Component (entries)

namespace Declaration

/-- The components say a declaration whose parts are allowed. -/
def Spelled (context : Context) (d : Declaration) (components : List Component) : Prop :=
  ∃ name value important, Parts name value important components ∧
    Allowed context name value important ∧ d = ofParts name value important

/-- A declaration is spelled by a name and by what is read behind it. -/
theorem named_iff_spelled {context : Context} {d : Declaration} {components : List Component} :
    Named (fun name d rest => ∃ value important, PartsBehind value important rest ∧
        Allowed context name value important ∧ d = ofParts name value important) d components ↔
      Spelled context d components := by
  unfold Spelled
  simp only [parts_iff]
  constructor
  · rintro ⟨gap, component, name, rest, rfl, hgap, hname, value, important, hrest, hallowed, rfl⟩
    exact ⟨name, value, important, ⟨gap, component, rest, rfl, hgap, hname, hrest⟩, hallowed, rfl⟩
  · rintro ⟨name, value, important, ⟨gap, component, rest, rfl, hgap, hname, hrest⟩, hallowed, rfl⟩
    exact ⟨gap, component, name, rest, rfl, hgap, hname, value, important, hrest, hallowed, rfl⟩

end Declaration

/-- What stands in the second of two related rows is related to what stands in the first. -/
theorem exists_mem_of_forall₂ {α β : Type} {R : α → β → Prop} {as : List α} {bs : List β}
    (h : List.Forall₂ R as bs) {b : β} (hb : b ∈ bs) : ∃ a ∈ as, R a b := by
  induction h with
  | nil => cases hb
  | cons hfirst _ ih =>
      rcases List.mem_cons.mp hb with rfl | hb
      · exact ⟨_, List.mem_cons_self .., hfirst⟩
      · obtain ⟨a, ha, hrelated⟩ := ih hb
        exact ⟨a, List.mem_cons_of_mem _ ha, hrelated⟩

/-- Entries are all spelled if and only if there are declarations that they spell in order. -/
theorem forall_spelled_iff {context : Context} {segments : List Segment} :
    (∀ segment ∈ segments, ∃ d, Declaration.Spelled context d segment.contents) ↔
      ∃ list, List.Forall₂ (fun segment d => Declaration.Spelled context d segment.contents)
        segments list := by
  constructor
  · intro h
    induction segments with
    | nil => exact ⟨[], .nil⟩
    | cons segment segments ih =>
        obtain ⟨⟨d, hd⟩, hothers⟩ := List.forall_mem_cons.mp h
        obtain ⟨list, hlist⟩ := ih hothers
        exact ⟨d :: list, .cons hd hlist⟩
  · rintro ⟨list, h⟩
    exact ((List.forall₂_and_left segments list).mp (h.imp fun segment d hd => ⟨⟨d, hd⟩, hd⟩)).1

namespace Declarations

open Declaration (Spelled Parts Allowed ofParts)

/-- A list of declarations is read where each entry spells one, and holds them in order. -/
theorem parser_eq_ok_iff {context : Context} {c : Cursor} {list : Declarations} :
    (∃ after, parser context c = .ok list after) ↔
      List.Forall₂ (fun segment d => Spelled context d segment.contents) (entries c.rest)
        list.declarations := by
  simp only [← Declaration.named_iff_spelled]
  rw [← declarationList_eq_ok_iff fun name d c last => ?_]
  · constructor
    · rintro ⟨after, h⟩
      obtain ⟨items, mid, hitems, hpure⟩ := bind_eq_ok.mp h
      cases hpure
      exact ⟨after, hitems⟩
    · rintro ⟨after, hitems⟩
      exact ⟨after, bind_eq_ok.mpr ⟨_, after, hitems, rfl⟩⟩
  · rw [entirely_eq_ok_iff]
    simp only [Declaration.behindName_eq_ok_iff]
    constructor
    · rintro ⟨mid, ⟨hparts, rfl⟩, -, rfl⟩
      exact ⟨hparts, rfl⟩
    · rintro ⟨hparts, rfl⟩
      exact ⟨_, ⟨hparts, rfl⟩, rfl, rfl⟩

/-- A list of declarations is accepted if and only if every segment between semicolons in which
something stands is a name, a colon and a value in front of the first exclamation mark, with the
word of importance behind the mark if there is one, and these parts are allowed. One declaration is
read for each such segment, in order: that of its name, important where the mark stands, whose value
is a keyword for every property if it is nothing else, and the kept text of the value otherwise. -/
theorem accepted_iff_entries (context : Context) (c : Cursor) :
    ((∃ list after, parser context c = .ok list after) ↔
      ∀ segment ∈ entries c.rest, ∃ name value important,
        Parts name value important segment.contents ∧ Allowed context name value important) ∧
    ∀ list after, parser context c = .ok list after → after.isExhausted = true ∧
      List.Forall₂ (fun segment d => ∃ name value important,
        Parts name value important segment.contents ∧ d = ofParts name value important)
        (entries c.rest) list.declarations := by
  refine ⟨?_, fun list after h => ⟨?_, ?_⟩⟩
  · have hspelled (segment : Segment) : (∃ d, Spelled context d segment.contents) ↔
        ∃ name value important, Parts name value important segment.contents ∧
          Allowed context name value important :=
      ⟨fun ⟨_, name, value, important, hparts, hallowed, _⟩ =>
          ⟨name, value, important, hparts, hallowed⟩,
        fun ⟨name, value, important, hparts, hallowed⟩ =>
          ⟨_, name, value, important, hparts, hallowed, rfl⟩⟩
    simp only [← hspelled, forall_spelled_iff, parser_eq_ok_iff]
    exact ⟨fun ⟨list, h⟩ => ⟨_, h⟩, fun ⟨list, h⟩ => ⟨⟨list⟩, h⟩⟩
  · obtain ⟨items, mid, hitems, hpure⟩ := bind_eq_ok.mp h
    cases hpure
    exact isExhausted_of_declarationList hitems
  · refine (parser_eq_ok_iff.mp ⟨after, h⟩).imp fun segment d hd => ?_
    obtain ⟨name, value, important, hparts, -, rfl⟩ := hd
    exact ⟨name, value, important, hparts, rfl⟩

/-- `a:b c`. -/
def plainEntry : List Component :=
  [.written (.ident "a"), .written .colon, .written (.ident "b"), .written (.space " "),
    .written (.ident "c")]

/-- `-webkit-d:INHERIT!IMPORTANT`. -/
def importantEntry : List Component :=
  [.written (.ident "-webkit-d"), .written .colon, .written (.ident "INHERIT"),
    .written (.delim '!'), .written (.ident "IMPORTANT")]

/-- `a:b c;;-webkit-d:INHERIT!IMPORTANT`. -/
def mixedEntries : List Component :=
  plainEntry ++ [.written .semicolon, .written .semicolon] ++ importantEntry

/-- What `a:b c;;-webkit-d:INHERIT!IMPORTANT` declares. -/
def mixedDeclarations : List Declaration :=
  [⟨none, "a", .specified "b c", false⟩, ⟨some .webkit, "d", .wide .inherit, true⟩]

/-- The entries of `a:b c;;-webkit-d:INHERIT!IMPORTANT` say a kept text and an important keyword. -/
theorem accepted_iff_entries_mixed : ∃ (list : Declarations) (after : Cursor),
    list.declarations = mixedDeclarations ∧
    parser (.ofMode .strict) ⟨mixedEntries, default⟩ = .ok list after ∧
      after.isExhausted = true ∧
      entries mixedEntries = [⟨plainEntry, some (.written .semicolon)⟩, ⟨importantEntry, none⟩] ∧
      List.Forall₂ (fun segment d => ∃ name value important,
        Parts name value important segment.contents ∧ d = ofParts name value important)
        (entries mixedEntries) list.declarations := by
  obtain ⟨haccepted, hread⟩ := accepted_iff_entries (.ofMode .strict) ⟨mixedEntries, default⟩
  have hentries : entries mixedEntries =
      [⟨plainEntry, some (.written .semicolon)⟩, ⟨importantEntry, none⟩] := by cbv
  have hname (name : String) : Shows identName? name [.written (.ident name)] := ⟨_, rfl, rfl⟩
  have hmark : Shows keyword? "important" [.written (.ident "IMPORTANT")] := ⟨_, rfl, by cbv⟩
  have hplain : Parts "a" [.written (.ident "b"), .written (.space " "), .written (.ident "c")]
      false plainEntry := .intro (hname "a") (.intro (by decide) .absent)
  have himportant : Parts "-webkit-d" [.written (.ident "INHERIT")] true importantEntry :=
    .intro (hname "-webkit-d") (.intro (by decide) (.present hmark))
  have hallowed {name : String} {value : List Component} {important : Bool}
      (hclean : Component.errorTokenOf? value = none) (hsome : Component.significant value ≠ []) :
      Allowed (.ofMode .strict) name value important :=
    ⟨hclean, fun h => absurd h hsome, fun _ h => by cases h⟩
  obtain ⟨list, after, h⟩ := haccepted.mpr <| by
    rw [hentries]
    exact List.forall_mem_cons.mpr ⟨⟨_, _, _, hplain, hallowed rfl (by decide)⟩,
      List.forall_mem_singleton.mpr ⟨_, _, _, himportant, hallowed rfl (by decide)⟩⟩
  have hspelled : List.Forall₂ (fun segment d => Spelled (.ofMode .strict) d segment.contents)
      (entries mixedEntries) mixedDeclarations := by
    rw [hentries]
    exact .cons ⟨_, _, _, hplain, hallowed rfl (by decide), by decide +kernel⟩
      (.cons ⟨_, _, _, himportant, hallowed rfl (by decide), by decide +kernel⟩ .nil)
  obtain ⟨again, hrun⟩ : ∃ again, parser (.ofMode .strict) ⟨mixedEntries, default⟩ =
      .ok ⟨mixedDeclarations⟩ again := parser_eq_ok_iff.mpr hspelled
  obtain ⟨hend, hparts⟩ := hread list after h
  refine ⟨list, after, ?_, h, hend, hentries, hparts⟩
  rw [hrun] at h
  cases h
  rfl

end Declarations

end Css
