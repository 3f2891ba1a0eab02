import Css.Proofs.CounterStyle.Reads
import Css.Proofs.Declaration.Reads
import Css.Proofs.Rule.Canonical
import Css.Proofs.Rule.Reads

/-!
# Counter styles are read back

A counter style that was accepted is read back from its canonical text, descriptor by descriptor:
its text spells the descriptors in the order of the vocabulary, each one is read as what it was, and
set one after the other they make up the counter style again.
-/

namespace Css

open Css.Parser
open Component (written space ReadFrom Spells)

instance : LawfulVocabulary DescriptorName where
  find?_word member := by cases member <;> rfl

namespace Descriptor

/-- The name of a descriptor. -/
def name : Descriptor → DescriptorName
  | .system _ => .system
  | .negative _ => .negative
  | .leading _ => .leading
  | .suffix _ => .suffix
  | .range _ => .range
  | .pad _ => .pad
  | .fallback _ => .fallback
  | .symbols _ => .symbols
  | .additiveSymbols _ => .additiveSymbols
  | .speakAs _ => .speakAs

/-- The last one of the descriptors with a name. -/
def lastNamed (descriptors : List Descriptor) (name : DescriptorName) : Option Descriptor :=
  (descriptors.filter fun d => d.name = name).getLast?

/-- A descriptor in front of others is the last one of its name if none of them has its name. -/
theorem lastNamed_cons (d : Descriptor) (descriptors : List Descriptor) (name : DescriptorName) :
    lastNamed (d :: descriptors) name =
      (lastNamed descriptors name).or (if d.name = name then some d else none) := by
  unfold lastNamed
  by_cases hname : d.name = name
  · rw [List.filter_cons_of_pos (by simpa using hname), List.getLast?_cons, if_pos hname]
    cases (descriptors.filter fun d => d.name = name).getLast? <;> rfl
  · rw [List.filter_cons_of_neg (by simpa using hname), if_neg hname, Option.or_none]

/-- The components of a descriptor with its name and its semicolon. -/
def declaration (d : Descriptor) : List Component :=
  Component.declaration (Vocabulary.word d.name) d.components

/-- The canonical text of a descriptor with its name and its semicolon. -/
def declarationCss (d : Descriptor) : String :=
  Vocabulary.word d.name ++ ":" ++ d.css ++ ";"

/-- The value of a canonical descriptor is read. -/
theorem parser_reads {context : Context} {d : Descriptor} (h : d.Canonical context.mode) :
    Reads (d.name.parser context) d.components (Exactly d []) := by
  have hsymbol (s : Symbol) : Reads Symbol.parser ([] ++ [s.component]) (Exactly s []) :=
    s.parser_reads rfl
  cases d with
  | system value => exact (CounterSystem.parser_reads h).map
  | negative value => exact value.parser_reads.map
  | leading value | suffix value => exact (hsymbol value).map
  | range value => exact (Ranges.parser_reads h).map
  | pad value => exact (Pad.parser_reads h).map
  | fallback value =>
      have hname : Reads CounterStyleName.parser ([] ++ value.name.components ++ [])
          (Exactly value.name []) := CounterStyleName.reads_parserExcluding h rfl
      exact (hname.andThen (reads_pure (Fallback.mk value.name) [])).map
  | symbols value => exact (Symbols.parser_reads h.ne_nil).map
  | additiveSymbols value => exact (AdditiveSymbols.parser_reads h).map
  | speakAs value => exact (SpeakAs.parser_reads h).map

/-- Among the components of a value, only commas end a segment. -/
theorem delimiter?_components (d : Descriptor) :
    ∀ c ∈ d.components, c.delimiter? = none ∨ c.delimiter? = some ',' := by
  have hspace : space.delimiter? = none := rfl
  have hnumber (n : Int) : (written (.number (.ofInt n))).delimiter? = none := rfl
  have hident (name : String) : (written (.ident name)).delimiter? = none := rfl
  have hsymbols (symbols : List Symbol) :
      ∀ c ∈ symbols.flatMap fun symbol => [space, symbol.component], c.delimiter? = none := by
    simp only [List.mem_flatMap, List.mem_cons, List.not_mem_nil, or_false]
    rintro c ⟨symbol, _, rfl | rfl⟩
    · rfl
    · exact symbol.delimiter?_component
  have hcomma {α : Type} {components : α → List Component} {items : List α}
      (h : ∀ item, ∀ c ∈ components item, c.delimiter? = none) :
      ∀ c ∈ Component.commaComponents components items,
        c.delimiter? = none ∨ c.delimiter? = some ',' := by
    intro c hc
    rcases Component.mem_commaComponents hc with ⟨item, _, hc⟩ | rfl | rfl
    · exact .inl (h item c hc)
    · exact .inr rfl
    · exact .inl rfl
  cases d with
  | system value =>
      cases value with
      | fixed first => cases first <;> simp [components, CounterSystem.components, hspace,
          hnumber, hident]
      | _ => simp [components, CounterSystem.components, CounterStyleName.components, hspace,
          hident]
  | negative value =>
      intro c hc
      rcases List.mem_cons.mp hc with rfl | hc
      · exact .inl value.symbol.delimiter?_component
      · exact .inl (hsymbols _ c hc)
  | leading value | suffix value => simp [components, Symbol.delimiter?_component]
  | range value =>
      simp only [components, Ranges.components]
      split
      · simp [hident]
      · exact hcomma fun range => by
          simp [CounterRange.components, CounterRange.delimiter?_boundComponent, hspace]
  | pad value => exact fun c hc => .inl (delimiter?_weightComponents c hc)
  | fallback value => simp [components, CounterStyleName.components, hident]
  | symbols value =>
      obtain ⟨_ | ⟨first, others⟩⟩ := value
      · intro c hc
        cases hc
      · intro c hc
        rcases List.mem_cons.mp hc with rfl | hc
        · exact .inl first.delimiter?_component
        · exact .inl (hsymbols others c hc)
  | additiveSymbols value => exact hcomma fun tuple => delimiter?_weightComponents
  | speakAs value =>
      cases value <;> simp [components, SpeakAs.components, CounterStyleName.components, hident]

/-- The name of a descriptor is spelled by its word. -/
theorem spells_name (name : DescriptorName) :
    Spells [written (.ident (Vocabulary.word name))] (Vocabulary.word name) := by
  cases name <;> exact Component.spells_word (by decide)

/-- A descriptor is found by its word. -/
theorem reads_descriptor {context : Context} {d : Descriptor} (h : d.Canonical context.mode) :
    ReadsAll (CounterStyle.descriptor context (Vocabulary.word d.name)) d.components d := by
  have hword : Text.lowerCase (Vocabulary.word d.name) = Vocabulary.word d.name := by
    cases d.name <;> exact Text.lowerCase_of_isSmallAscii (by decide)
  refine ⟨[], rfl, ?_⟩
  unfold CounterStyle.descriptor
  rw [hword, Vocabulary.find?_word]
  exact parser_reads h

/-- Canonical descriptors are read from their texts. -/
theorem readFrom_declarations {mode : Mode} {descriptors : List Descriptor}
    (h : ∀ d ∈ descriptors, d.Canonical mode) :
    ReadFrom (descriptors.flatMap declaration) (String.join (descriptors.map declarationCss)) := by
  induction descriptors with
  | nil => exact Component.readFrom_nil
  | cons d descriptors ih =>
      rw [List.flatMap_cons, List.map_cons, String.join_cons]
      exact Component.readFrom_declaration (spells_name d.name)
        (h d (List.mem_cons_self ..)).spells (ih fun e he => h e (List.mem_cons_of_mem d he))

end Descriptor

open Descriptor (lastNamed)

namespace CounterStyle

/-- The descriptor with a name, if it was written. -/
def descriptor? (s : CounterStyle) : DescriptorName → Option Descriptor
  | .system => s.system.map .system
  | .negative => s.negative.map .negative
  | .leading => s.leading.map .leading
  | .suffix => s.suffix.map .suffix
  | .range => s.range.map .range
  | .pad => s.pad.map .pad
  | .fallback => s.fallback.map .fallback
  | .symbols => s.symbols.map .symbols
  | .additiveSymbols => s.additiveSymbols.map .additiveSymbols
  | .speakAs => s.speakAs.map .speakAs

/-- The descriptors that were written, in the order of the canonical text. -/
def descriptors (s : CounterStyle) : List Descriptor :=
  (Vocabulary.members : List DescriptorName).filterMap s.descriptor?

/-- The text of a descriptor is that of its value. -/
theorem descriptorCss?_eq (s : CounterStyle) (name : DescriptorName) :
    s.descriptorCss? name = (s.descriptor? name).map Descriptor.css := by
  cases name <;> simp only [descriptorCss?, descriptor?, Option.map_map] <;> rfl

/-- A descriptor has the name by which it is found. -/
theorem name_of_descriptor? {s : CounterStyle} {name : DescriptorName} {d : Descriptor}
    (h : s.descriptor? name = some d) : d.name = name := by
  cases name with
  | _ =>
      obtain ⟨value, _, rfl⟩ := Option.map_eq_some_iff.mp h
      rfl

/-- The text of a counter style is that of the descriptors that were written. -/
theorem bodyCss_eq (s : CounterStyle) :
    s.bodyCss = String.join (s.descriptors.map Descriptor.declarationCss) := by
  unfold bodyCss descriptors
  induction (Vocabulary.members : List DescriptorName) with
  | nil => rfl
  | cons name names ih =>
      rw [List.map_cons, String.join_cons, ih, descriptorCss?_eq]
      cases hd : s.descriptor? name with
      | none => rw [List.filterMap_cons_none hd, Option.map_none, String.empty_append]
      | some d =>
          rw [List.filterMap_cons_some hd, List.map_cons, String.join_cons]
          simp only [Option.map_some, Descriptor.declarationCss, name_of_descriptor? hd]

/-- The descriptors of a canonical counter style are canonical. -/
theorem DescriptorsCanonical.of_mem {mode : Mode} {s : CounterStyle}
    (h : s.DescriptorsCanonical mode) : ∀ d ∈ s.descriptors, d.Canonical mode := by
  intro d hd
  obtain ⟨name, _, hname⟩ := List.mem_filterMap.mp hd
  cases name with
  | _ =>
      obtain ⟨value, hvalue, rfl⟩ := Option.map_eq_some_iff.mp hname
      first
        | exact h.system value hvalue | exact h.negative value hvalue
        | exact h.leading value hvalue | exact h.suffix value hvalue
        | exact h.range value hvalue | exact h.pad value hvalue
        | exact h.fallback value hvalue | exact h.symbols value hvalue
        | exact h.additiveSymbols value hvalue | exact h.speakAs value hvalue

/-- A counter style starts without descriptors. -/
theorem descriptor?_ofName (style : CounterStyleName) (name : DescriptorName) :
    (ofName style).descriptor? name = none := by
  cases name <;> rfl

/-- Setting a descriptor changes the descriptor with its name. -/
theorem descriptor?_set (s : CounterStyle) (d : Descriptor) (name : DescriptorName) :
    (s.set d).descriptor? name = if d.name = name then some d else s.descriptor? name := by
  cases d <;> cases name <;> rfl

/-- A counter style is known by its name and its descriptors. -/
theorem eq_of_descriptor? {s t : CounterStyle} (hname : s.name = t.name)
    (h : ∀ name, s.descriptor? name = t.descriptor? name) : s = t := by
  have hvalue {α : Type} {f : α → Descriptor} (hf : ∀ a b, f a = f b → a = b) {o o' : Option α}
      (heq : o.map f = o'.map f) : o = o' := (Option.map_inj_right hf).mp heq
  obtain ⟨⟩ := s
  obtain ⟨⟩ := t
  simp only [CounterStyle.mk.injEq]
  refine ⟨hname, hvalue ?_ (h .system), hvalue ?_ (h .negative), hvalue ?_ (h .leading),
    hvalue ?_ (h .suffix), hvalue ?_ (h .range), hvalue ?_ (h .pad), hvalue ?_ (h .fallback),
    hvalue ?_ (h .symbols), hvalue ?_ (h .additiveSymbols), hvalue ?_ (h .speakAs)⟩
  all_goals rintro a b ⟨⟩; rfl

/-- Of each name, the last of the descriptors that are set is kept. -/
theorem descriptor?_foldl_set (s : CounterStyle) (descriptors : List Descriptor)
    (name : DescriptorName) :
    (descriptors.foldl set s).descriptor? name =
      (lastNamed descriptors name).or (s.descriptor? name) := by
  induction descriptors generalizing s with
  | nil => rfl
  | cons d descriptors ih =>
      rw [List.foldl_cons, ih, Descriptor.lastNamed_cons, descriptor?_set, Option.or_assoc]
      by_cases hname : d.name = name <;> simp [hname]

/-- Descriptors make up the counter style that has the last one of each name and no others. -/
theorem descriptor?_foldl_ofName (style : CounterStyleName) (descriptors : List Descriptor)
    (name : DescriptorName) :
    (descriptors.foldl set (ofName style)).descriptor? name = lastNamed descriptors name := by
  rw [descriptor?_foldl_set, descriptor?_ofName, Option.or_none]

/-- The descriptor with a name is the last one of its name among descriptors of a counter style. -/
theorem lastNamed_filterMap (s : CounterStyle) (names : List DescriptorName)
    (name : DescriptorName) :
    lastNamed (names.filterMap s.descriptor?) name =
      if name ∈ names then s.descriptor? name else none := by
  induction names with
  | nil => rfl
  | cons first names ih =>
      cases hd : s.descriptor? first with
      | none =>
          rw [List.filterMap_cons_none hd, ih]
          by_cases hname : name = first
          · subst hname
            simp [hd]
          · simp [hname]
      | some d =>
          rw [List.filterMap_cons_some hd, Descriptor.lastNamed_cons, ih, name_of_descriptor? hd]
          by_cases hname : name = first
          · subst hname
            by_cases hmem : name ∈ names <;> simp [hd, hmem]
          · simp [hname, Ne.symm hname]

/-- A counter style is what its name and its descriptors make up. -/
theorem foldl_set_descriptors (s : CounterStyle) :
    s.descriptors.foldl set (ofName s.name) = s := by
  refine eq_of_descriptor? (name_foldl_set _ _) fun name => ?_
  have hmem : name ∈ (Vocabulary.members : List DescriptorName) := by cases name <;> decide
  rw [descriptors, descriptor?_foldl_ofName, lastNamed_filterMap, if_pos hmem]

/-- The block of a canonical counter style is read. -/
theorem reads_bodyParser {context : Context} {s : CounterStyle} (h : s.Canonical context.mode) :
    Reads (bodyParser context s.name) (s.descriptors.flatMap Descriptor.declaration)
      (Exactly s []) := by
  refine (reads_location _).bind fun location after hafter => ?_
  subst hafter
  have hlist : Reads (declarationList (descriptor (context.inRule .counterStyle)))
      (s.descriptors.flatMap Descriptor.declaration) (Exactly s.descriptors []) :=
    reads_declarationList
      (fun d hd => Descriptor.reads_descriptor (h.descriptors.of_mem d hd))
      fun d _ c hc heq => by
        rcases d.delimiter?_components c hc with hnone | hcomma
        · rw [hnone] at heq; cases heq
        · rw [hcomma] at heq; cases heq
  refine hlist.andThen ?_
  rw [foldl_set_descriptors]
  dsimp only
  rw [h.symbols]
  exact reads_pure s []

/-- The components of the rule that defines a counter style. -/
def components (s : CounterStyle) : List Component :=
  written (.atKeyword "counter-style") ::
    (space :: s.name.components ++
      [Component.curly (s.descriptors.flatMap Descriptor.declaration)])

/-- A canonical counter style is read from its text. -/
theorem Canonical.readFrom {mode : Mode} {s : CounterStyle} (h : s.Canonical mode) :
    ReadFrom s.components s.css := by
  have hbody : ReadFrom [Component.curly (s.descriptors.flatMap Descriptor.declaration)]
      (Bracket.curly.around s.bodyCss) := by
    rw [bodyCss_eq]
    exact (Descriptor.readFrom_declarations h.descriptors.of_mem).around .curly
  have hname := h.name.spells.append hbody (Component.delimited_curly s.bodyCss)
  have hword : IsName "counter-style" ∧ identifierText "counter-style" = "counter-style" := by
    decide
  have htext : s.css =
      "@" ++ "counter-style" ++ (" " ++ (s.name.css ++ Bracket.curly.around s.bodyCss)) := by
    simp only [css, ← String.append_assoc]
    rfl
  rw [htext]
  exact hname.afterKeyword hword

/-- A canonical counter style is read back as the rule that defines it. -/
theorem parser_reads {context : Context} {namespaces : Namespaces} {s : CounterStyle}
    (h : s.Canonical context.mode) :
    Reads (Rule.parser context namespaces) s.components (Exactly (.counterStyle s) []) := by
  have hname : Reads CounterStyleName.definition ([space] ++ s.name.components ++ [])
      (Exactly s.name []) := CounterStyleName.reads_definition h.name rfl
  rw [List.append_nil] at hname
  have hkind : AtRule.ofName? (Text.lowerCase "counter-style") = some .counterStyle := by
    decide +kernel
  have hprelude (location : Position) :
      Reads (entirely (Prelude.parser context location (some .counterStyle)))
        (space :: s.name.components) (Exactly (.counterStyle s.name) []) :=
    ReadsAll.entirely ⟨[], rfl, (ReadsAll.entirely ⟨[], rfl, hname⟩).map⟩
  refine Rule.parser_reads hkind hprelude (fun c hc => ?_) ⟨[], rfl, (reads_bodyParser h).map⟩
  rcases List.mem_cons.mp hc with rfl | hc
  · rfl
  · obtain rfl := List.mem_singleton.mp hc
    rfl

/-- The counter style that a rule defines. -/
def ofRule? : Rule → Option CounterStyle
  | .counterStyle s => some s
  | _ => none

/-- A counter style that was read can be written, and is read back from what is written. -/
theorem ofText_css {context : Context} {namespaces : Namespaces} {text : String}
    {s : CounterStyle} (h : Rule.ofText context namespaces text = .ok (.counterStyle s)) :
    ∃ css, (Rule.counterStyle s).css = .ok css ∧
      Rule.ofText context namespaces css = .ok (.counterStyle s) := by
  cases Rule.canonical_of_ofText h with
  | counterStyle _ hstyle =>
      refine ⟨s.css, by rw [Rule.css], ?_⟩
      exact (ReadsAll.only ⟨[], rfl, parser_reads hstyle⟩ rfl).run hstyle.readFrom

/-- A name in upper case, an escaped symbol and descriptors out of order, in the strict mode. -/
theorem ofText_css_alphabetic :
    ∃ s : CounterStyle,
      Rule.ofText (.ofMode .strict) .empty
        "@counter-style A\\;b\x7bsymbols:'\"' c;system:Alphabetic;pad:x 3;symbols:'\"' d\x7d" =
          .ok (.counterStyle s) ∧
      ∃ css, (Rule.counterStyle s).css = .ok css ∧
        Rule.ofText (.ofMode .strict) .empty css = .ok (.counterStyle s) := by
  have hread : (Rule.ofText (.ofMode .strict) .empty
      "@counter-style A\\;b\x7bsymbols:'\"' c;system:Alphabetic;pad:x 3;symbols:'\"' d\x7d")
          |>.toOption.any fun rule => (ofRule? rule).isSome := by
    decide +kernel
  generalize hrule : Rule.ofText (.ofMode .strict) .empty _ = result at hread ⊢
  cases result with
  | error e => cases hread
  | ok rule =>
      cases rule with
      | counterStyle s => exact ⟨s, rfl, ofText_css hrule⟩
      | style | media | supports | keyframes => cases hread

end CounterStyle

end Css
