import Css.Parser.Run
import Css.Proofs.Parser.Expect

/-!
# What parsers yield from texts

The components of a text hold sound tokens, so what a parser reads from a text is what it yields on
such components.
-/

namespace Css

variable {α : Type} {p : Parser α} {P : α → Prop}

/-- The components of a text are good if its tokens are. -/
theorem Cursor.all_ofSource {text : String} {source : Source}
    (h : Source.ofString text = .ok source) : (Cursor.ofSource source).All Parser.SoundTokens :=
  Component.allTokens_ofTokens (Source.sound_of_mem h)

/-- There is a cursor in front of a text if its tokens can be read. -/
theorem Cursor.ofText_eq_ok_iff {text : String} {c : Cursor} :
    Cursor.ofText text = .ok c ↔
      ∃ source, Source.ofString text = .ok source ∧ c = .ofSource source := by
  unfold Cursor.ofText
  cases Source.ofString text with
  | error e => simp
  | ok source => simp [eq_comm]

namespace Parser

/-- A text is read if its tokens can be read and the parser succeeds on them. -/
theorem run_eq_ok_iff {text : String} {a : α} :
    p.run text = .ok a ↔ ∃ source, Source.ofString text = .ok source ∧
      ∃ after, p (.ofSource source) = .ok a after := by
  show Except.bind (Cursor.ofText text) _ = _ ↔ _
  unfold Cursor.ofText
  cases Source.ofString text with
  | error e => simp [Except.bind]
  | ok source =>
      simp only [Except.bind, Except.ok.injEq, exists_eq_left']
      cases p (.ofSource source) with
      | ok b after => simp
      | error e after => simp

/-- A text is read if the parser succeeds in front of it. -/
theorem run_eq_ok_iff_of_ofText {text : String} {c : Cursor} (hc : Cursor.ofText text = .ok c)
    {a : α} : p.run text = .ok a ↔ ∃ after, p c = .ok a after := by
  obtain ⟨source, hsource, rfl⟩ := Cursor.ofText_eq_ok_iff.mp hc
  rw [run_eq_ok_iff]
  constructor
  · rintro ⟨source', hsource', after, hread⟩
    cases hsource.symm.trans hsource'
    exact ⟨after, hread⟩
  · rintro ⟨after, hread⟩
    exact ⟨source, hsource, after, hread⟩

/-- What is read from a text is what the parser yields. -/
theorem Yields.of_run {text : String} {a : α} (h : Yields SoundTokens p P)
    (hrun : p.run text = .ok a) : P a := by
  obtain ⟨source, hsource, after, hp⟩ := run_eq_ok_iff.mp hrun
  exact (h (Cursor.all_ofSource hsource) hp).1

/-- A parser that has to read the whole text yields what it yields otherwise. -/
theorem Yields.only {good : List Component → Prop} [Hereditary good] (h : Yields good p P) :
    Yields good (only p) P := by
  refine yields_isExhausted.bind fun _ _ => ?_
  split
  · exact yields_location.bind fun _ _ => yields_fault_bind
  · exact h.entirely

end Parser

end Css
