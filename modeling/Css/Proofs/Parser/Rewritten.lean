import Css.Proofs.Parser.Written

/-!
# Items that are written alike when they are read back

A number is read back as the number that it is written as, so what is read back need not be what was
written. It is written alike, `IsRewritten`, and this is handed on from items to lists of them,
`exists_rewritten_many`.
-/

namespace Css.Parser

open Css.Parser
open Component (ReadFrom)

variable {α ε : Type} {css : α → Except ε String} {p : Parser α}

/-- The item is written as a text that is read, whatever is read behind it, as an item that is
written alike. -/
structure IsRewritten (css : α → Except ε String) (p : Parser α) (item again : α)
    (values : List Component) (text : String) : Prop where
  writes : css item = .ok text
  rewrites : css again = .ok text
  readFrom : ∀ {rest : List Component} {other : String}, ReadFrom rest other →
    ReadFrom (values ++ rest) (text ++ other)
  reads : ∀ rest, Reads p (values ++ rest) (Exactly again rest)
  visible : values.all Component.isFiller = false

/-- What is written for the item is read as one that is written alike. -/
def Rewritable (css : α → Except ε String) (p : Parser α) (item : α) : Prop :=
  ∃ again values text, IsRewritten css p item again values text

/-- What is more than fillers is longer than nothing. -/
theorem IsRewritten.length_lt {item again : α} {values : List Component} {text : String}
    (h : IsRewritten css p item again values text) (rest : List Component) :
    rest.length < (values ++ rest).length := by
  have hne : values ≠ [] := by
    rintro rfl
    cases h.visible
  have hpos := List.length_pos_iff.mpr hne
  rw [List.length_append]
  omega

section

variable {items : List α} {again : α → α} {values : α → List Component} {text : α → String}
  (h : ∀ item ∈ items, IsRewritten css p item (again item) (values item) (text item))

include h

/-- The items and those that are read back have the same texts. -/
theorem mapM_rewritten :
    items.mapM css = .ok (items.map text) ∧ (items.map again).mapM css = .ok (items.map text) := by
  refine ⟨mapM_eq_ok fun item hitem => (h item hitem).writes, ?_⟩
  rw [List.mapM_map]
  exact mapM_eq_ok fun item hitem => (h item hitem).rewrites

/-- The components of the items are read from their texts, one behind the other. -/
theorem readFrom_rewritten : ReadFrom (items.flatMap values) (String.join (items.map text)) := by
  induction items with
  | nil => exact Component.readFrom_nil
  | cons item items ih =>
      obtain ⟨hitem, hitems⟩ := List.forall_mem_cons.mp h
      rw [List.flatMap_cons, List.map_cons, String.join_cons]
      exact hitem.readFrom (ih hitems)

/-- The items are read back one behind the other. -/
theorem reads_many_rewritten :
    Reads (many p) (items.flatMap values) (Exactly (items.map again) []) := by
  induction items with
  | nil => exact reads_many_nil rfl
  | cons item items ih =>
      obtain ⟨hitem, hitems⟩ := List.forall_mem_cons.mp h
      rw [List.flatMap_cons, List.map_cons]
      refine (hitem.reads _).many_cons ?_ (hitem.length_lt _) (ih hitems)
      rw [List.all_append, hitem.visible, Bool.false_and]

end

/-- Items that are written alike when they are read back make up a list that is. -/
theorem exists_rewritten_many {items : List α} (h : ∀ item ∈ items, Rewritable css p item) :
    ∃ agains values texts, items.mapM css = .ok texts ∧ agains.mapM css = .ok texts ∧
      ReadFrom values (String.join texts) ∧ Reads (many p) values (Exactly agains []) := by
  choose! again values text hrewritten using h
  obtain ⟨hwrites, hrewrites⟩ := mapM_rewritten hrewritten
  exact ⟨items.map again, items.flatMap values, items.map text, hwrites, hrewrites,
    readFrom_rewritten hrewritten, reads_many_rewritten hrewritten⟩

end Css.Parser
