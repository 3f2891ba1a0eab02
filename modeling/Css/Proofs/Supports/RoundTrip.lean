import Css.Proofs.Supports.Written

/-!
# Reading supports conditions back

The canonical text of a condition that was read is meant to be read back as the same condition, and
it is if its declarations and kept texts can be written, `Condition.run_css_eq`. A text that the end
of the source cuts off inside brackets cannot: it is kept without the brackets that it lacks, so
those around it close it, and it comes back with one more, `Condition.not_reads_css`.
-/

namespace Css

open Css.Parser

namespace Condition

/-- A condition that is read from a text whose tokens are tight is read again from its own text, in
the same context, if the names of its declarations need no escapes and no text that it keeps leaves
a bracket open. -/
theorem run_css_eq {context : Context} {text : String} {source : Source} {c : Condition}
    (hsource : Source.ofString text = .ok source) (htight : source.IsTight)
    (h : (entirely (parser context)).run text = .ok c) (hwritable : c.IsWritable) :
    (entirely (parser context)).run c.css = .ok c := by
  obtain ⟨again, hagain, last, hread⟩ := run_eq_ok_iff.mp h
  obtain rfl : source = again := by
    rw [hsource] at hagain
    exact Except.ok.inj hagain
  have hspelled := (entirely_parser_eq_ok_iff.mp hread).1
  obtain ⟨values, hspells, hvalues⟩ :=
    hspelled.exists_written (Source.areTight_ofTokens hsource htight) hwritable
  exact (reads_of_spelled hvalues).run hspells.toReadFrom

/-- A declaration with a name in mixed case, and a function in brackets behind `not`. -/
theorem run_css_eq_mixed : ∃ source c,
    Source.ofString "(A : b) and (NOT F(c))" = .ok source ∧ source.IsTight ∧
      (entirely (parser (.ofMode .strict))).run "(A : b) and (NOT F(c))" = .ok c ∧ c.IsWritable ∧
      c.css = "(a:b) and (not F(c))" ∧ (entirely (parser (.ofMode .strict))).run c.css = .ok c := by
  obtain ⟨source, hsource, hall⟩ : ∃ source,
      Source.ofString "(A : b) and (NOT F(c))" = .ok source ∧ source.tokens.all Token.seemsTight :=
    ⟨_, by cbv, by cbv⟩
  have htight := Source.isTight_of_all hall
  obtain ⟨c, hc, hcss, hwritable⟩ : ∃ c : Condition,
      (entirely (parser (.ofMode .strict))).run "(A : b) and (NOT F(c))" = .ok c ∧
        c.css = "(a:b) and (not F(c))" ∧ c.IsWritable := by
    have hname : Declaration.IsWritable ⟨none, "a", .specified "b", false⟩ := by decide
    refine ⟨.conjunction [.declaration ⟨none, "a", .specified "b", false⟩,
      .parenthesized (.negation (.future "F(c)"))], by cbv, by cbv, hname, ⟨_, by cbv, ?_⟩, trivial⟩
    cbv
    exact ⟨⟨.round, rfl, ⟨⟨rfl, fun _ _ h => by cases h⟩, trivial⟩, _, rfl, rfl⟩, trivial⟩
  exact ⟨source, c, hsource, htight, hc, hwritable, hcss, run_css_eq hsource htight hc hwritable⟩

/-- A function that the end of the text cuts off inside brackets is read back with the bracket that
was meant for them. -/
theorem not_reads_css : ∃ c again : Condition,
    (entirely (Condition.parser (.ofMode .strict))).run "(f(c" = .ok c ∧
      (entirely (Condition.parser (.ofMode .strict))).run c.css = .ok again ∧ c ≠ again :=
  ⟨_, _, by cbv, by cbv, by simp⟩

end Condition

end Css
