import Css.Proofs.Parser.Clean
import Mathlib

/-!
# Kept text

Where a grammar keeps components as they are written, it reads them up to the last one that is no
filler, refuses error tokens, and keeps the text that was read, `Component.keptText`.
-/

namespace Css

open Css.Parser
open Component (significant significant_append closedTextOf)

namespace Component

/-- The text that is kept of components: up to the last one that is no filler, closed where the end
of the source cut it off, and trimmed. -/
def keptText (components : List Component) : String :=
  String.ofList (Text.trim (closedTextOf (components.rdropWhile isFiller)))

/-- The text that is kept is empty if and only if what it is kept of is blank. -/
theorem keptText_eq_empty_iff {components : List Component} :
    keptText components = "" ↔
      ∀ c ∈ closedTextOf (components.rdropWhile isFiller), Text.isBlank c = true := by
  rw [keptText, ← String.toList_eq_nil_iff, String.toList_ofList, Text.trim]
  generalize closedTextOf (components.rdropWhile isFiller) = text
  rw [List.reverse_eq_nil_iff, List.dropWhile_eq_nil_iff]
  constructor
  · intro h c hmem
    rw [← List.takeWhile_append_dropWhile (p := Text.isBlank) (l := text)] at hmem
    rcases List.mem_append.mp hmem with hfront | hback
    · exact List.mem_takeWhile_imp hfront
    · exact h c (List.mem_reverse.mpr hback)
  · intro h c hmem
    exact h c ((List.dropWhile_sublist _).mem (List.mem_reverse.mp hmem))

/-- Without the fillers behind it, a row that does not end with one is left. -/
theorem rdropWhile_append {part gap : List Component} (hgap : significant gap = [])
    (hlast : ∀ component ∈ part.getLast?, component.isFiller = false) :
    (part ++ gap).rdropWhile isFiller = part := by
  have hfillers : ∀ component ∈ gap.reverse, component.isFiller = true := fun component hmem =>
    significant_eq_nil_iff_forall.mp hgap component (List.mem_reverse.mp hmem)
  rw [List.rdropWhile, List.reverse_append, List.dropWhile_append_of_pos hfillers]
  refine List.rdropWhile_eq_self_iff.mpr fun hne => ?_
  simp [hlast _ (List.getLast?_eq_some_getLast hne)]

/-- What is kept up to the last significant component goes on behind any of them. -/
theorem rdropWhile_append_cons {component : Component} (h : component.isFiller = false)
    (front back : List Component) :
    (front ++ component :: back).rdropWhile isFiller =
      front ++ component :: back.rdropWhile isFiller := by
  have hreverse : (front ++ component :: back).reverse =
      back.reverse ++ component :: front.reverse := by simp
  rw [List.rdropWhile, hreverse, List.dropWhile_append, List.rdropWhile]
  split
  · rename_i hnil
    rw [List.dropWhile_cons_of_neg (by simp [h]), List.isEmpty_iff.mp hnil]
    simp
  · simp

end Component

open Component (keptText rdropWhile_append)

namespace Parser

/-- What is read up to the end without an error token ends with something significant. -/
theorem getLast?_of_noErrorToken {c after : Cursor} {u : Unit} (h : noErrorToken c = .ok u after) :
    ∃ part, c.rest = part ++ after.rest ∧ after.isExhausted = true ∧
      ∀ component ∈ part.getLast?, component.isFiller = false := by
  rw [noErrorToken_eq_passes] at h
  obtain ⟨items, mid, hmany, hpure⟩ := bind_eq_ok.mp h
  cases hpure
  have hpasses : Consumes (next >>= passes) :=
    consumes_next.bind fun component => (stays_passes component).advances
  clear h
  induction items generalizing c with
  | nil =>
      rcases (many_eq_ok_iff hpasses).mp hmany with ⟨hend, -, rfl⟩ | ⟨-, _, _, _, -, -, heq⟩
      · exact ⟨[], rfl, hend, nofun⟩
      · cases heq
  | cons item items ih =>
      rcases (many_eq_ok_iff hpasses).mp hmany with ⟨-, heq, -⟩ | ⟨-, a, _, mid, hitem, hrest, heq⟩
      · cases heq
      · cases heq
        -- each step reads over fillers up to a component, the last one unless more are read
        obtain ⟨part, hpart, hend, hlast⟩ := ih hrest
        obtain ⟨component, first, hnext, hpass⟩ := bind_eq_ok.mp hitem
        obtain ⟨rest, hdrop, rfl⟩ := next_eq_ok_iff.mp hnext
        obtain ⟨-, rfl⟩ := (stays_passes component).eq_ok_iff.mp hpass
        obtain rfl : rest = part ++ after.rest := hpart
        refine ⟨c.rest.takeWhile Component.isFiller ++ component :: part, ?_, hend, ?_⟩
        · rw [List.append_assoc, List.cons_append, ← hdrop, List.takeWhile_append_dropWhile]
        · rw [List.getLast?_append_of_ne_nil _ (List.cons_ne_nil component part),
            List.getLast?_cons]
          rintro last ⟨⟩
          cases hpart : part.getLast? with
          | none => exact Component.isFiller_of_dropWhile hdrop
          | some last => exact hlast last hpart

/-- Components without an error token are read up to the last one that is no filler, and their text
is the one that is kept. -/
theorem read_of_noErrorToken {c after : Cursor} {u : Unit} (h : noErrorToken c = .ok u after) :
    (∃ gap, significant gap = [] ∧ c.rest = c.read after ++ gap) ∧
      c.readText after = keptText c.rest := by
  obtain ⟨part, hpart, hend, hlast⟩ := getLast?_of_noErrorToken h
  have hgap := after.isExhausted_iff_significant.mp hend
  have hread : c.read after = part := by
    rw [Cursor.read, hpart, List.length_append, Nat.add_sub_cancel, List.take_left]
  refine ⟨⟨after.rest, hgap, by rw [hread, hpart]⟩, ?_⟩
  rw [Cursor.readText, hread, keptText, hpart, rdropWhile_append hgap hlast]

/-- Components without an error token are read. -/
theorem exists_noErrorToken {c : Cursor} (h : Component.errorTokenOf? c.rest = none) :
    ∃ after, noErrorToken c = .ok () after := by
  have hread : entirely noErrorToken c = .ok () ⟨[], c.stop⟩ :=
    (readsExactly_noErrorToken.entirely_eq_ok_iff fun _ h => h).mpr ⟨h, rfl⟩
  obtain ⟨after, hread, -⟩ := entirely_eq_ok_iff.mp hread
  exact ⟨after, hread⟩

/-- The text of components without an error token is kept. -/
theorem captured_noErrorToken_eq_ok_iff {c after : Cursor} {text : String} :
    captured noErrorToken c = .ok text after ↔
      noErrorToken c = .ok () after ∧ text = keptText c.rest := by
  unfold captured
  constructor
  · intro h
    obtain ⟨before, mid, hlook, h⟩ := bind_eq_ok.mp h
    cases hlook
    obtain ⟨u, mid, hread, h⟩ := bind_eq_ok.mp h
    cases h
    exact ⟨hread, (read_of_noErrorToken hread).2⟩
  · rintro ⟨hread, rfl⟩
    refine bind_eq_ok.mpr ⟨c, c, rfl, bind_eq_ok.mpr ⟨(), after, hread, ?_⟩⟩
    rw [← (read_of_noErrorToken hread).2]
    rfl

end Parser

end Css
