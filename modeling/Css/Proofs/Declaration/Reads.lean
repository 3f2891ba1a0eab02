import Css.Declaration.Grammar
import Css.Proofs.Parser.Written

/-!
# Written lists of declarations

A list of declarations in which each ends at a semicolon is read item by item, if every item is read
behind its name and its colon.
-/

namespace Css

open Css.Parser
open Component (written Spells ReadFrom)

variable {α : Type}

/-- A name, a colon, a value and a semicolon. -/
def Component.declaration (name : String) (value : List Component) : List Component :=
  written (.ident name) :: written .colon :: (value ++ [written .semicolon])

/-- A declaration is read from its name and the text of its value. -/
theorem Component.readFrom_declaration {name css : String} {value rest : List Component}
    {text : String} (hname : Spells [written (.ident name)] name) (hvalue : Spells value css)
    (hrest : ReadFrom rest text) :
    ReadFrom (declaration name value ++ rest) (name ++ ":" ++ css ++ ";" ++ text) := by
  have htail : ReadFrom (value ++ written .semicolon :: rest) (css ++ (";" ++ text)) :=
    hvalue.toReadFrom.append hrest.semicolon (delimited_append ⟨_, _, rfl, by decide⟩)
  have hall := hname.toReadFrom.append htail.colon (delimited_append ⟨_, _, rfl, by decide⟩)
  simpa [declaration, written, String.append_assoc] using hall

/-- Only its semicolon ends a declaration among values without one. -/
theorem isDelimiter_of_delimiter?_ne {c : Component} (h : c.delimiter? ≠ some ';') :
    isDelimiter [';'] c = false := by
  cases hc : c.delimiter? with
  | none => simp [isDelimiter, hc]
  | some d => simpa [isDelimiter, hc] using h

/-- A list of declarations is read item by item. -/
theorem reads_declarationList {afterColon : String → Parser α} {name : α → String}
    {value : α → List Component} {items : List α}
    (hread : ∀ item ∈ items, ReadsAll (afterColon (name item)) (value item) item)
    (hfree : ∀ item ∈ items, ∀ c ∈ value item, c.delimiter? ≠ some ';') :
    Reads (declarationList afterColon)
      (items.flatMap fun item => Component.declaration (name item) (value item))
      (Exactly items []) := by
  have hitem (item : α) (hmem : item ∈ items) (rest : List Component) :
      Reads (untilAfter [';'] do colon; afterColon (name item))
        ((written .colon :: value item) ++ written .semicolon :: rest) (Exactly item rest) := by
    obtain ⟨tail, htail, hvalue⟩ := hread item hmem
    refine reads_untilAfter ⟨tail, htail, (reads_colon _).andThen hvalue⟩ (fun c hc => ?_) rfl
    rcases List.mem_cons.mp hc with rfl | hc
    · rfl
    · exact isDelimiter_of_delimiter?_ne (hfree item hmem c hc)
  have hdeclaration (item : α) (rest : List Component) :
      (Component.declaration (name item) (value item) ++ rest).dropWhile Component.isFiller =
        written (.ident (name item)) :: ((written .colon :: value item) ++
          written .semicolon :: rest) := by
    rw [Component.declaration, List.cons_append, List.cons_append, List.append_assoc]
    rfl
  unfold declarationList
  refine Reads.andThen (reads_many_flatMap (f := some) (fun item hmem rest => ?_)
    fun item _ => rfl) ?_
  · refine (reads_next (hdeclaration item rest)).bind fun component after hfound => ?_
    obtain ⟨hlook, rfl⟩ := hfound
    obtain ⟨text, start, rfl⟩ := exists_leaf_of_bare hlook
    exact (hitem item hmem rest).andThen (reads_pure _ _)
  · have hfilter : (items.map some).filterMap id = items := by simp
    rw [hfilter]
    exact reads_pure items []

end Css
