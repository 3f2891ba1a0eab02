import Css.Proofs.Component.Echoes
import Css.Proofs.Declaration.Custom
import Css.Proofs.Declaration.Single

/-!
# The order of declarations

Declarations are ordered by texts and equal by their parts. Two declarations have the same texts if
they are equal, or if they are twins: the value of one is a keyword for every property, and that of
the other is the word for it, kept as a text. The order is total where there are no twins,
`Declaration.precedes_total_iff`, and a text only becomes such a word if it is trimmed of more than
white space.
-/

namespace Css

open Css.Parser
open Component (significant significant_append significant_cons errorTokenOf? errorTokenOf?_append
  keptText Lexed KeepsEnds stripOf closedOf saidOf bareOf)

namespace PropertyValue

/-- One value is a keyword for every property, and the other is its word as a text. -/
inductive Twins : PropertyValue → PropertyValue → Prop where
  | wide (keyword : WideKeyword) : Twins (.wide keyword) (.specified (Vocabulary.word keyword))
  | specified (keyword : WideKeyword) : Twins (.specified (Vocabulary.word keyword)) (.wide keyword)

/-- Values are written alike if they are equal or twins. -/
theorem css_eq_iff {a b : PropertyValue} : a.css = b.css ↔ a = b ∨ Twins a b := by
  constructor
  · intro h
    cases a with
    | wide first =>
        cases b with
        | wide second => exact .inl (congrArg wide (Vocabulary.word_inj.mp h))
        | specified text =>
            obtain rfl : Vocabulary.word first = text := h
            exact .inr (.wide first)
    | specified text =>
        cases b with
        | wide second =>
            obtain rfl : text = Vocabulary.word second := h
            exact .inr (.specified second)
        | specified other => exact .inl (congrArg specified h)
  · rintro (rfl | hwide | hspecified) <;> rfl

/-- Twins are different. -/
theorem Twins.ne {a b : PropertyValue} (h : Twins a b) : a ≠ b := by
  cases h <;> nofun

end PropertyValue

namespace Component

/-- Closed components say one identifier if they are one. -/
theorem eq_singleton_of_saidOf_closedOf {components : List Component} {name : String}
    (h : saidOf (closedOf components) = [leaf ⟨.ident name, [], .first⟩]) :
    ∃ t, components = [leaf t] ∧ t.kind = .ident name := by
  match components with
  | [] => cases h
  | _ :: _ :: _ => simp [closedOf, saidOf] at h
  | [.group opening contents closing] => cases h
  | [.leaf ⟨kind, text, start⟩] =>
      refine ⟨_, rfl, ?_⟩
      cases kind with
      | ident other =>
          cases h
          rfl
      | string value closed => cases closed <;> cases h
      | url address closed => cases closed <;> cases h
      | comment body closed => cases closed <;> cases h
      | _ => cases h

/-- Components of a source whose kept text is an identifier that needs no escapes are the
identifier, if trimming takes nothing but white space. -/
theorem significant_of_keptText {components : List Component} (h : Lexed components)
    (herror : errorTokenOf? components = none)
    (hkeeps : KeepsEnds (stripOf (components.rdropWhile isFiller))) {word : String}
    (hword : IsName word ∧ identifierText word = word) (hkept : keptText components = word) :
    ∃ t, significant components = [leaf t] ∧ t.kind = .ident word := by
  obtain ⟨gap, hgap⟩ := List.rdropWhile_prefix isFiller components
  obtain ⟨⟨closer, rest, hstands⟩, hsound, hplain⟩ :=
    Hereditary.of_infix h ⟨[], gap, by rw [List.nil_append, hgap]⟩
  rw [← hgap, errorTokenOf?_append, Option.or_eq_none_iff] at herror
  obtain ⟨values, hcaptured, hsaid⟩ := hstands.exists_captured hsound hplain herror.1 hkeeps
  -- the word is read as what was captured, and as one identifier
  have hread := hcaptured.semicolon
  rw [show String.ofList _ = word from hkept] at hread
  obtain ⟨source, hsource, hvalues⟩ := hread.ofString
  obtain ⟨again, hagain, hident⟩ :=
    ((spells_word hword).append readFrom_nil.semicolon (delimited_cons (by decide) [])).ofString
  obtain rfl : source = again := Except.ok.inj (hsource.symm.trans hagain)
  rw [hvalues, bareOf_append, bareOf_append] at hident
  have hbare := congrArg saidOf (List.append_cancel_right hident)
  rw [saidOf_bareOf, saidOf_bareOf, hsaid] at hbare
  obtain ⟨t, hstrip, hkind⟩ := eq_singleton_of_saidOf_closedOf hbare
  refine ⟨t, ?_, hkind⟩
  rw [← significant_stripOf, hstrip,
    significant_cons (by simp [isFiller, hkind, Token.Kind.isFiller])]
  rfl

end Component

namespace PropertyValue

/-- The words for the keywords for every property are identifiers without escapes in lower case. -/
theorem word_spec (keyword : WideKeyword) :
    (IsName (Vocabulary.word keyword) ∧
        identifierText (Vocabulary.word keyword) = Vocabulary.word keyword) ∧
      Text.lowerCase (Vocabulary.word keyword) = Vocabulary.word keyword := by
  cases keyword <;> exact ⟨⟨by decide, by decide⟩, Text.lowerCase_of_isSmallAscii (by decide)⟩

/-- A word for a keyword is not kept as a text, unless trimming takes more than white space. -/
theorem ofComponents_ne_word {components : List Component} (h : Lexed components)
    (herror : errorTokenOf? components = none)
    (hkeeps : KeepsEnds (stripOf (components.rdropWhile Component.isFiller)))
    (keyword : WideKeyword) :
    ofComponents components ≠ .specified (Vocabulary.word keyword) := by
  intro heq
  unfold ofComponents at heq
  cases hwide : wide? components with
  | some other => simp [hwide] at heq
  | none =>
      have hkept : keptText components = Vocabulary.word keyword := by simpa [hwide] using heq
      obtain ⟨hword, hlower⟩ := word_spec keyword
      obtain ⟨⟨kind, text, start⟩, hsignificant, hkind⟩ :=
        Component.significant_of_keptText h herror hkeeps hword hkept
      dsimp only at hkind
      subst hkind
      simp [wide?, hsignificant, keyword?, identName?, hlower, Vocabulary.find?_word] at hwide

end PropertyValue

namespace Declaration

variable {a b : Declaration}

/-- The declarations differ in their values only, which are twins. -/
structure Twins (a b : Declaration) : Prop where
  vendorPrefix : a.vendorPrefix = b.vendorPrefix
  name : a.name = b.name
  value : PropertyValue.Twins a.value b.value
  important : a.important = b.important

/-- Prefixes with the same name are the same, and none has the empty name. -/
theorem vendorPrefix_eq_iff {p q : Option VendorPrefix} :
    (p.map VendorPrefix.name).getD "" = (q.map VendorPrefix.name).getD "" ↔ p = q := by
  have hne (p : VendorPrefix) : p.name ≠ "" := by simpa using p.name_spec.1
  cases p with
  | none =>
      cases q with
      | none => simp
      | some q => simpa using (hne q).symm
  | some p =>
      cases q with
      | none => simpa using hne p
      | some q =>
          rw [Option.map_some, Option.map_some, Option.getD_some, Option.getD_some, Option.some_inj]
          exact Vocabulary.word_inj

/-- The keys of two declarations are the same if the declarations are equal or twins. -/
theorem sortKey_eq_iff : a.sortKey = b.sortKey ↔ a = b ∨ Twins a b := by
  obtain ⟨prefixA, nameA, valueA, importantA⟩ := a
  obtain ⟨prefixB, nameB, valueB, importantB⟩ := b
  have himportant : importanceCss ⟨prefixA, nameA, valueA, importantA⟩ =
      importanceCss ⟨prefixB, nameB, valueB, importantB⟩ ↔ importantA = importantB := by
    cases importantA <;> cases importantB <;> simp [importanceCss]
  simp only [sortKey, List.cons.injEq, vendorPrefix_eq_iff, PropertyValue.css_eq_iff, himportant,
    and_true, mk.injEq]
  constructor
  · rintro ⟨rfl, rfl, rfl | hvalue, rfl⟩
    · exact .inl ⟨rfl, rfl, rfl, rfl⟩
    · exact .inr ⟨rfl, rfl, hvalue, rfl⟩
  · rintro (⟨rfl, rfl, rfl, rfl⟩ | ⟨rfl, rfl, hvalue, rfl⟩)
    · exact ⟨rfl, rfl, .inl rfl, rfl⟩
    · exact ⟨rfl, rfl, .inr hvalue, rfl⟩

/-- Twins are different. -/
theorem Twins.ne (h : Twins a b) : a ≠ b := by
  rintro rfl
  exact h.value.ne rfl

/-- Declarations are ordered by their keys. -/
theorem precedes_iff : a.precedes b = true ↔ a.sortKey < b.sortKey := by
  simp [precedes]

/-- Trimming takes nothing but white space from the text of the value, where the text is a
declaration. -/
def KeepsValue (text : String) : Prop :=
  ∀ c name value important, Cursor.ofText text = .ok c → Parts name value important c.rest →
    KeepsEnds (stripOf (value.rdropWhile Component.isFiller))

/-- Where trimming takes nothing but white space, no word for a keyword is kept as a text. -/
theorem value_ne_word {context : Context} {text : String} {d : Declaration}
    (h : ofText context text = .ok d) (hkeeps : KeepsValue text) (keyword : WideKeyword) :
    d.value ≠ .specified (Vocabulary.word keyword) := by
  obtain ⟨source, hsource, after, hread⟩ := run_eq_ok_iff.mp h
  obtain ⟨⟨name, value, important, hparts, hallowed, rfl⟩, -⟩ := parser_eq_ok_iff.mp hread
  exact PropertyValue.ofComponents_ne_word
    (Hereditary.of_infix (Source.lexed_ofTokens hsource) hparts.value_infix) hallowed.clean
    (hkeeps _ name value important (Cursor.ofText_eq_ok_iff.mpr ⟨source, hsource, rfl⟩) hparts)
    keyword

/-- Of two declarations one comes before the other, or they are equal, or they are twins and neither
comes before the other. -/
theorem precedes_cases (a b : Declaration) :
    (a.precedes b = true ∧ a ≠ b ∧ b.precedes a = false ∧ ¬Twins a b) ∨
      (a.precedes b = false ∧ a = b ∧ b.precedes a = false ∧ ¬Twins a b) ∨
      (a.precedes b = false ∧ a ≠ b ∧ b.precedes a = true ∧ ¬Twins a b) ∨
      (a.precedes b = false ∧ a ≠ b ∧ b.precedes a = false ∧ Twins a b) := by
  simp only [← Bool.not_eq_true, precedes_iff]
  have hkeys : a.sortKey ≠ b.sortKey → a ≠ b ∧ ¬Twins a b := by
    rw [← not_or]
    exact mt sortKey_eq_iff.mpr
  rcases lt_trichotomy a.sortKey b.sortKey with hlt | heq | hgt
  · obtain ⟨hne, htwins⟩ := hkeys hlt.ne
    exact .inl ⟨hlt, hne, hlt.asymm, htwins⟩
  · rw [heq]
    rcases sortKey_eq_iff.mp heq with rfl | htwins
    · exact .inr (.inl ⟨lt_irrefl _, rfl, lt_irrefl _, fun htwins => htwins.ne rfl⟩)
    · exact .inr (.inr (.inr ⟨lt_irrefl _, htwins.ne, lt_irrefl _, htwins⟩))
  · obtain ⟨hne, htwins⟩ := hkeys hgt.ne'
    exact .inr (.inr (.inl ⟨hgt.asymm, hne, hgt, htwins⟩))

/-- The order of declarations is transitive. Exactly one of two declarations comes before the other
or they are equal, the one is at most the other exactly where the other does not come before it, and
follows it exactly where the other comes before it, all of that if and only if the two are not
twins. Declarations that are read are not twins where trimming takes nothing but white space from
the texts of their values. -/
theorem precedes_total_iff {contextA contextB : Context} {textA textB : String}
    (ha : ofText contextA textA = .ok a) (hb : ofText contextB textB = .ok b) :
    (∀ c, a.precedes b = true → b.precedes c = true → a.precedes c = true) ∧
      ([a.precedes b, decide (a = b), b.precedes a].count true = 1 ↔ ¬Twins a b) ∧
      (a.isAtMost b = !b.precedes a ↔ ¬Twins a b) ∧
      (a.follows b = b.precedes a ↔ ¬Twins a b) ∧
      (KeepsValue textA → KeepsValue textB → ¬Twins a b) := by
  have hcompare : ([a.precedes b, decide (a = b), b.precedes a].count true = 1 ↔ ¬Twins a b) ∧
      (a.isAtMost b = !b.precedes a ↔ ¬Twins a b) ∧ (a.follows b = b.precedes a ↔ ¬Twins a b) := by
    rcases precedes_cases a b with h | ⟨hab, rfl, -, h⟩ | h | h
    case inr.inl => simp [isAtMost, follows, hab, h]
    all_goals simp [isAtMost, follows, h]
  obtain ⟨hcount, hatMost, hfollows⟩ := hcompare
  refine ⟨fun c hab hbc => ?_, hcount, hatMost, hfollows, fun hkeepsA hkeepsB htwins => ?_⟩
  · rw [precedes_iff] at hab hbc ⊢
    exact hab.trans hbc
  · obtain ⟨-, -, hvalue, -⟩ := htwins
    generalize hvalueA : a.value = valueA at hvalue
    generalize hvalueB : b.value = valueB at hvalue
    cases hvalue with
    | wide keyword => exact value_ne_word hb hkeepsB keyword hvalueB
    | specified keyword => exact value_ne_word ha hkeepsA keyword hvalueA

/-- A text comes before a keyword for every property, and names are compared before values. -/
theorem precedes_total_iff_keyword : ∃ a b,
    ofText ((Context.ofMode .strict).inRule .style) "a:b" = .ok a ∧
      ofText ((Context.ofMode .strict).inRule .style) "a: UNSET" = .ok b ∧
      a.precedes ⟨none, "b", .specified "a", false⟩ = true ∧
      [a.precedes b, decide (a = b), b.precedes a].count true = 1 ∧
      a.isAtMost b = !b.precedes a ∧ a.follows b = b.precedes a := by
  obtain ⟨a, b, ha, hb, rfl, rfl⟩ : ∃ a b,
      ofText ((Context.ofMode .strict).inRule .style) "a:b" = .ok a ∧
        ofText ((Context.ofMode .strict).inRule .style) "a: UNSET" = .ok b ∧
        a = ⟨none, "a", .specified "b", false⟩ ∧ b = ⟨none, "a", .wide .unset, false⟩ :=
    ⟨_, _, by cbv, by cbv, rfl, rfl⟩
  obtain ⟨htrans, hcount, hatMost, hfollows, -⟩ := precedes_total_iff ha hb
  have htwins : ¬Twins ⟨none, "a", .specified "b", false⟩ ⟨none, "a", .wide .unset, false⟩ :=
    fun h => absurd (PropertyValue.css_eq_iff.mpr (.inr h.value)) (by decide)
  exact ⟨_, _, ha, hb, htrans _ (by decide) (by decide), hcount.mpr htwins, hatMost.mpr htwins,
    hfollows.mpr htwins⟩

/-- **Declarations are ordered by texts, but equal by their parts.** The value of the first is a
keyword, and that of the second an identifier that is trimmed to the word for it. Neither comes
before the other and they are not equal, so each of them is said to follow the other. -/
theorem not_precedes_total : ∃ a b,
    ofText ((Context.ofMode .strict).inRule .style) "a:initial" = .ok a ∧
      ofText ((Context.ofMode .strict).inRule .style) "a:initial\u00a0" = .ok b ∧
      a.precedes b = false ∧ a ≠ b ∧ b.precedes a = false ∧
      a.follows b = true ∧ b.follows a = true ∧ a.isAtMost b = false ∧ b.isAtMost a = false :=
  ⟨⟨none, "a", .wide .initial, false⟩, ⟨none, "a", .specified "initial", false⟩, by cbv, by cbv,
    by decide, by decide, by decide, by decide, by decide, by decide, by decide⟩

end Declaration

end Css
