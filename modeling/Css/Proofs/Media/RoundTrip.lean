import Css.Proofs.Media.Reads
import Css.Proofs.Token.Unescaped
import Mathlib

/-!
# Reading media queries back

The canonical text of a media list that was read is read back as a list with the same text. A media
type is written as it is, so this holds for media types that need no escapes, and for numbers that
have a text.
-/

namespace Css

open Css.Parser

/-- The query has a text from which it can be read: its media type needs no escapes, and its numbers
are finite. -/
structure MediaQuery.IsWritable (q : MediaQuery) : Prop where
  mediaType : ∀ word ∈ q.mediaType, identifierText word = word
  values : ∀ e ∈ q.expressions, ∀ v ∈ e.feature.values, v.IsWritable

instance (q : MediaQuery) : Decidable q.IsWritable :=
  decidable_of_iff ((∀ word ∈ q.mediaType, identifierText word = word) ∧
      ∀ e ∈ q.expressions, ∀ v ∈ e.feature.values, v.IsWritable)
    ⟨fun h => ⟨h.1, h.2⟩, fun h => ⟨h.mediaType, h.values⟩⟩

/-- A feature that can be asked for is bounded, and its numbers are ones that a token can have. -/
theorem Feature.Canonical.isRead {mode : Mode} {f : Feature} (h : f.Canonical mode) :
    f.IsBounded ∧ ∀ v ∈ f.values, v.IsRead := by
  cases f with
  | ranged name range => exact ⟨RangedFeature.Asks.isBounded h, RangedFeature.Asks.isRead h⟩
  | discrete name value => exact ⟨trivial, nofun⟩

/-- A query that was read and is writable is spelled by its text. -/
theorem MediaQuery.Canonical.isSpelled {mode : Mode} {q : MediaQuery} (h : q.Canonical mode)
    (hwritable : q.IsWritable) : q.IsSpelled where
  mediaType word hword := by
    obtain ⟨⟨name, hname, rfl⟩, hreserved⟩ := h.mediaType word hword
    have htext := hwritable.mediaType _ hword
    have hne : name ≠ "" := by simpa using hname.ne_nil
    exact ⟨isName_of_identifierText (Text.lowerCase_ne_empty hne) htext, htext,
      Text.lowerCase_lowerCase name, hreserved⟩
  expressions e he :=
    have hread := (h.expressions e he).isRead
    ⟨hread.1, hread.2, hwritable.values e he⟩
  qualified := h.qualified
  nonempty := h.nonempty

/-- A list of media queries that is read from a text, and whose media types need no escapes and
whose numbers are finite, can be written. What is written is read in the same mode, and what is read
is written alike. -/
theorem MediaList.run_css {mode : Mode} {text : String} {l : MediaList}
    (h : (entirely (MediaList.parser (.ofMode mode))).run text = .ok l)
    (hwritable : ∀ q ∈ l.queries, q.IsWritable) :
    ∃ (css : String) (again : MediaList), l.css = .ok css ∧
      (entirely (MediaList.parser (.ofMode mode))).run css = .ok again ∧ again.css = .ok css := by
  have hcanonical : l.Canonical mode := (MediaList.parser_yields (.ofMode mode)).entirely.of_run h
  have hspelled : ∀ q ∈ l.queries, q.IsSpelled :=
    fun q hq => (hcanonical q hq).isSpelled (hwritable q hq)
  have hread : ReadsAll (MediaList.parser (.ofMode mode)) l.components l.asWritten :=
    ⟨[], rfl, MediaList.parser_reads hcanonical hspelled⟩
  exact ⟨l.text, l.asWritten, MediaList.css_eq hspelled,
    hread.entirely.run (MediaList.readFrom hspelled), MediaList.css_asWritten hspelled⟩

/-- A media type in upper case, a range between two lengths of which one has a fraction and the
other an exponent, and a resolution that is bounded by one end. -/
theorem MediaList.run_css_between :
    ∃ l : MediaList,
      (entirely (MediaList.parser (.ofMode .strict))).run
        "only Screen and (100.50px<WIDTH<=2e3PX),(resolution>1.5x)" = .ok l ∧
      (∀ q ∈ l.queries, q.IsWritable) ∧
      ∃ (css : String) (again : MediaList), l.css = .ok css ∧
        (entirely (MediaList.parser (.ofMode .strict))).run css = .ok again ∧
        again.css = .ok css := by
  have hread : ((entirely (MediaList.parser (.ofMode .strict))).run
      "only Screen and (100.50px<WIDTH<=2e3PX),(resolution>1.5x)").toOption.any
        fun l => decide (∀ q ∈ l.queries, q.IsWritable) := by
    decide +kernel
  generalize hrun : (entirely (MediaList.parser (.ofMode .strict))).run _ = result at hread ⊢
  cases result with
  | error e => cases hread
  | ok l =>
      have hwritable : ∀ q ∈ l.queries, q.IsWritable := of_decide_eq_true hread
      exact ⟨l, rfl, hwritable, run_css hrun hwritable⟩

/-- A media type that holds a delimiter is not read back. -/
theorem MediaList.not_run_css :
    ∃ (l : MediaList) (css : String) (e : ReadError),
      (entirely (MediaList.parser (.ofMode .strict))).run "a\\;b" = .ok l ∧ l.css = .ok css ∧
        (entirely (MediaList.parser (.ofMode .strict))).run css = .error e :=
  ⟨_, "a;b", _, by cbv, by cbv, by cbv⟩

end Css
