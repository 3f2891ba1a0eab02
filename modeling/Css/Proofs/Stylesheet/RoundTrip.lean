import Css.Proofs.Stylesheet.Written

/-!
# Stylesheets are read back

What is written for a stylesheet with its namespaces is the statements of its bindings and behind
them its rules. A run reads it back as both, and what it makes is written alike,
`Stylesheet.ofText_cssWithNamespaces`. This needs that the source is tight and that the names and
the numbers in the rules can be written.
-/

namespace Css

open Css.Parser

namespace Stylesheet

/-- A stylesheet is written as its namespaces and its rules, one after the other. -/
theorem cssWithNamespaces_of_mapM {s : Stylesheet} {texts : List String}
    (h : s.rules.mapM Rule.css = .ok texts) :
    s.cssWithNamespaces = .ok (s.namespaces.css ++ String.join texts) := by
  rw [cssWithNamespaces, css, Rule.cssOf_of_mapM h]
  rfl

/-- What is written for the rules of a stylesheet that is read from a tight source is read as rules
that are written alike, and start with no mark. -/
theorem exists_rewritten {mode : Mode} {text : String} {source : Source} {s : Stylesheet}
    (hsource : Source.ofString text = .ok source) (htight : source.IsTight)
    (h : ofText mode text = .ok s) (hwritable : Rule.AreWritable s.rules) {rule : Rule}
    (hrule : rule ∈ s.rules) :
    ∃ again start others text,
      IsRewritten Rule.css (Rule.parser (.ofMode mode) s.namespaces) rule again
        (start :: others) text ∧
        start.isFiller = false ∧ Item.isHtmlMark start = false := by
  obtain ⟨found, parts, final, hfound, htile, -, -, hrules, -⟩ := exists_tile_of_ofText h
  obtain rfl : source = found := by
    rw [hsource] at hfound
    exact Except.ok.inj hfound
  have hwritten := hwritable.of_mem hrule
  rw [hrules] at hrule
  exact htile.exists_rewritten (Source.areTight_ofTokens hsource htight) hrule hwritten

/-- A stylesheet that is read from a text whose tokens are tight, and whose rules can be written, is
written with its namespaces as a text that is read in the same mode. What is read back has the same
namespaces in the same order, and is written alike. -/
theorem ofText_cssWithNamespaces {mode : Mode} {text : String} {source : Source} {s : Stylesheet}
    (hsource : Source.ofString text = .ok source) (htight : source.IsTight)
    (h : ofText mode text = .ok s) (hwritable : Rule.AreWritable s.rules) :
    ∃ css again, s.cssWithNamespaces = .ok css ∧ ofText mode css = .ok again ∧
      again.namespaces = s.namespaces ∧ again.cssWithNamespaces = .ok css := by
  have hrules := fun rule (hrule : rule ∈ s.rules) =>
    exists_rewritten hsource htight h hwritable hrule
  choose! again start others text hrules using hrules
  have hrewritten := fun rule hrule => (hrules rule hrule).1
  obtain ⟨hwrites, hrewrites⟩ := mapM_rewritten hrewritten
  -- The text is read as the statements of the bindings, and the rules behind them.
  have hcanonical := canonical_namespaces h
  have hread := Namespaces.readFrom_bindings_append hcanonical.sound (readFrom_rewritten hrewritten)
  obtain ⟨source', hsource', hbare⟩ := hread.ofString
  have hnamespaces := Namespaces.ofList_bindings hcanonical.nodup
  obtain ⟨last, after, hlast, hlist⟩ :=
    RuleList.exists_topLevel_rewritten hnamespaces hrules hbare
  refine ⟨s.namespaces.css ++ String.join (s.rules.map text),
    ⟨s.rules.map again, source'.sourceMapUrl?, source'.sourceUrl?, s.namespaces, mode⟩,
    cssWithNamespaces_of_mapM hwrites, ?_, rfl, cssWithNamespaces_of_mapM hrewrites⟩
  refine ofText_eq_ok_iff.mpr ⟨source', hsource', ?_⟩
  rw [hlist]
  refine ⟨rfl, ?_⟩
  simp [RuleList.rules, Item.rule?, Function.comp_def, hlast]

/-- A selector with a prefix inside two grouping rules. -/
theorem ofText_cssWithNamespaces_nested : ∃ source s,
    Source.ofString "@namespace n 'x';@supports (A:b){@media Print{n|a{B:c}}}" = .ok source ∧
    source.IsTight ∧
      ofText .strict "@namespace n 'x';@supports (A:b){@media Print{n|a{B:c}}}" = .ok s ∧
    Rule.AreWritable s.rules ∧
    ∃ css again, s.cssWithNamespaces = .ok css ∧ ofText .strict css = .ok again ∧
      again.namespaces = s.namespaces ∧ again.cssWithNamespaces = .ok css := by
  obtain ⟨source, hsource, hall⟩ : ∃ source,
      Source.ofString "@namespace n 'x';@supports (A:b){@media Print{n|a{B:c}}}" = .ok source ∧
        source.tokens.all Token.seemsTight := ⟨_, by cbv, by cbv⟩
  obtain ⟨s, hs, hwritable⟩ : ∃ s : Stylesheet,
      ofText .strict "@namespace n 'x';@supports (A:b){@media Print{n|a{B:c}}}" = .ok s ∧
        Rule.AreWritable s.rules := by
    refine ⟨_, by cbv, ?_⟩
    have hdeclared : Declaration.IsWritable ⟨none, "a", .specified "b", false⟩ := by decide
    refine Rule.areWritable_cons.mpr ⟨hdeclared, ?_, Rule.areWritable_nil⟩
    rintro _ ⟨⟩
    have hqueries : ∀ q ∈ [(⟨none, some "print", []⟩ : MediaQuery)], q.IsWritable := by decide
    refine Rule.areWritable_cons.mpr ⟨hqueries, ?_, Rule.areWritable_nil⟩
    rintro _ ⟨⟩
    have hdeclarations :
        ∀ d ∈ [(⟨none, "b", .specified "c", false⟩ : Declaration)], d.IsWritable := by
      decide
    exact Rule.areWritable_cons.mpr ⟨hdeclarations, by rintro _ ⟨⟩, Rule.areWritable_nil⟩
  have htight := Source.isTight_of_all hall
  exact ⟨source, s, hsource, htight, hs, hwritable,
    ofText_cssWithNamespaces hsource htight hs hwritable⟩

/-- A property name is written without the escapes that it needs, so what is written cannot be
read. -/
theorem not_ofText_cssWithNamespaces :
    ∃ (s : Stylesheet) (css : String) (e : ReadError),
      ofText .strict "a\x7bb\\;:c\x7d" = .ok s ∧ s.cssWithNamespaces = .ok css ∧
        ofText .strict css = .error e :=
  ⟨_, "a\x7bb;:c;\x7d", _, by cbv, by cbv, by cbv⟩

end Stylesheet

end Css
