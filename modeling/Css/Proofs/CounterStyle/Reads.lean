import Css.Proofs.CounterStyle.Written
import Css.Proofs.Text.LowerCase

/-!
# Counter style values are read back

Each grammar of counter style values reads the components of a canonical value as the value.
-/

namespace Css

open Css.Parser
open Component (written space commaComponents)

variable {lead rest : List Component}

instance : LawfulVocabulary SpeakAsKeyword where
  find?_word member := by cases member <;> rfl

/-- A canonical counter style name is read. -/
theorem CounterStyleName.reads_parserExcluding {excluded : List String} {n : CounterStyleName}
    (h : n.Canonical excluded) (hlead : lead.all Component.isFiller) :
    Reads (parserExcluding excluded) (lead ++ n.components ++ rest) (Exactly n rest) := by
  rw [List.append_assoc]
  refine (reads_customIdent h.custom hlead).andThen ?_
  rw [h.ofName_name]
  exact reads_pure n rest

/-- The name of a counter style that may be defined is read. -/
theorem CounterStyleName.reads_definition {n : CounterStyleName} (h : n.Canonical reserved)
    (hlead : lead.all Component.isFiller) :
    Reads definition (lead ++ n.components ++ rest) (Exactly n rest) := by
  intro c hc
  obtain ⟨_, after, hrun, _, hafter, rfl, rfl⟩ := reads_parserExcluding h hlead c hc
  refine ⟨_, after, ?_, _, hafter, rfl, rfl⟩
  simp [definition, hrun]

/-- A symbol is read. -/
theorem Symbol.parser_reads (s : Symbol) (hlead : lead.all Component.isFiller) :
    Reads parser (lead ++ s.component :: rest) (Exactly s rest) := by
  cases s with
  | string value => exact reads_expect_written hlead rfl fun _ _ => rfl
  | ident name => exact reads_expect_written hlead rfl fun _ _ => rfl

/-- An integer is no symbol. -/
theorem Symbol.refuses_integer (n : Int) (hlead : lead.all Component.isFiller) :
    Refuses parser (lead ++ written (.number (.ofInt n)) :: rest) :=
  refuses_expect_written hlead rfl fun _ _ => rfl

/-- A symbol behind a space is read. -/
theorem Symbol.reads_space (s : Symbol) (rest : List Component) :
    Reads parser (space :: s.component :: rest) (Exactly s rest) := by
  have hread : Reads parser ([space] ++ s.component :: rest) (Exactly s rest) :=
    s.parser_reads rfl
  exact hread

/-- Symbols behind spaces are read up to the end. -/
theorem Symbol.reads_many (symbols : List Symbol) :
    Reads (many parser) (symbols.flatMap fun symbol => [space, symbol.component])
      (Exactly symbols []) := by
  induction symbols with
  | nil => exact reads_many_nil rfl
  | cons symbol symbols ih =>
      refine (symbol.reads_space _).many_cons ?_ ?_ ih
      · cases symbol <;> rfl
      · exact Nat.lt_add_of_pos_right Nat.two_pos

/-- Symbols are read up to the end. -/
theorem Symbols.parser_reads {s : Symbols} (h : s.symbols ≠ []) :
    Reads parser s.components (Exactly s []) := by
  obtain ⟨_ | ⟨first, others⟩⟩ := s
  · exact absurd rfl h
  · have hfirst : Reads Symbol.parser ([] ++ (Symbols.mk (first :: others)).components)
        (Exactly first (others.flatMap fun symbol => [space, symbol.component])) :=
      first.parser_reads rfl
    exact hfirst.andThen ((Symbol.reads_many others).andThen (reads_pure _ _))

/-- An integer and a symbol are read. -/
theorem reads_weightAndSymbol {context : Context} {weight : Int}
    (h : IsWeight context.mode weight) (symbol : Symbol) (hlead : lead.all Component.isFiller) :
    Reads (weightAndSymbol context) (lead ++ weightComponents weight symbol)
      (Exactly (weight, symbol) []) := by
  refine (Symbol.refuses_integer weight hlead).attempt.andThen ?_
  refine (reads_nonNegativeInteger h.nonneg hlead).andThen ?_
  exact (symbol.reads_space []).andThen (reads_pure _ _)

/-- A symbol ends no segment. -/
theorem Symbol.delimiter?_component (s : Symbol) : s.component.delimiter? = none := by
  cases s <;> rfl

/-- An integer and a symbol end no segment. -/
theorem delimiter?_weightComponents {weight : Int} {symbol : Symbol} :
    ∀ c ∈ weightComponents weight symbol, c.delimiter? = none := by
  simp only [weightComponents, List.mem_cons, List.not_mem_nil, or_false]
  rintro c (rfl | rfl | rfl)
  · rfl
  · rfl
  · exact symbol.delimiter?_component

/-- Additive symbols are read. -/
theorem AdditiveSymbols.parser_reads {context : Context} {a : AdditiveSymbols}
    (h : a.Canonical context.mode) :
    Reads (parser context) a.components (Exactly a []) := by
  refine (reads_location _).bind fun location after hafter => ?_
  subst hafter
  refine (reads_commaComponents h.ne_nil (fun tuple htuple lead hlead => ?_)
    fun _ _ => delimiter?_weightComponents).andThen ?_
  · have hweight := reads_weightAndSymbol (h.tuples tuple htuple).weight tuple.symbol hlead
    exact ⟨[], rfl, hweight.andThen (reads_pure _ _)⟩
  · have hdescending : ¬(!a.isDescending) = true := by simp [h.isDescending]
    exact (if_neg hdescending) ▸ reads_pure a []

/-- A system is read. -/
theorem CounterSystem.parser_reads {s : CounterSystem} (h : s.Canonical) :
    Reads parser s.components (Exactly s []) := by
  have hword : Text.lowerCase s.word = s.word := by
    cases s <;> exact Text.lowerCase_of_isSmallAscii (by rw [CounterSystem.word]; decide)
  have hnext : s.components.dropWhile Component.isFiller =
      written (.ident s.word) :: s.components.tail := rfl
  refine (reads_next hnext).bind fun component after hfound => ?_
  obtain ⟨hlook, rfl⟩ := hfound
  have hkeyword : keyword? component = some s.word := by
    rw [keyword?_of_bare hlook, hword]
  rw [hkeyword]
  cases s with
  | cyclic | numeric | alphabetic | symbolic | additive => exact reads_pure _ _
  | fixed first =>
      cases first with
      | none => exact (refuses_expect_nil rfl).attempt.andThen (reads_pure _ _)
      | some first =>
          have hinteger : Reads integer ([space] ++ [written (.number (.ofInt first))])
              (Exactly first []) := reads_integer first rfl
          exact hinteger.attempt.andThen (reads_pure _ _)
  | extending base =>
      have hname : Reads CounterStyleName.parser ([space] ++ base.components ++ [])
          (Exactly base []) := CounterStyleName.reads_parserExcluding h rfl
      exact hname.andThen (reads_pure _ _)

/-- A negative sign is read. -/
theorem Negative.parser_reads (n : Negative) : Reads parser n.components (Exactly n []) := by
  obtain ⟨symbol, suffix⟩ := n
  have hsymbol (rest : List Component) :
      Reads Symbol.parser ([] ++ symbol.component :: rest) (Exactly symbol rest) :=
    symbol.parser_reads rfl
  cases suffix with
  | none => exact (hsymbol []).andThen ((refuses_expect_nil rfl).attempt.andThen (reads_pure _ _))
  | some suffix =>
      exact (hsymbol _).andThen ((suffix.reads_space []).attempt.andThen (reads_pure _ _))

/-- An end of a range is read. -/
theorem CounterRange.reads_bound (end? : Option Int) (hlead : lead.all Component.isFiller) :
    Reads bound (lead ++ boundComponent end? :: rest) (Exactly end? rest) := by
  cases end? with
  | none =>
      refine (reads_identMatching (Text.lowerCase_of_isSmallAscii ?_) hlead).succeeds.andThen
        (reads_pure _ _)
      decide
  | some n =>
      have hinfinite : Refuses (identMatching "infinite")
          (lead ++ boundComponent (some n) :: rest) :=
        refuses_expect_written hlead rfl fun _ _ => rfl
      exact hinfinite.succeeds.andThen ((reads_integer n hlead).andThen (reads_pure _ _))

/-- An end of a range ends no segment. -/
theorem CounterRange.delimiter?_boundComponent (end? : Option Int) :
    (boundComponent end?).delimiter? = none := by
  cases end? <;> rfl

/-- A range is read. -/
theorem CounterRange.parser_reads {r : CounterRange} (h : r.Canonical)
    (hlead : lead.all Component.isFiller) :
    Reads parser (lead ++ r.components) (Exactly r []) := by
  refine (reads_location _).bind fun location after hafter => ?_
  subst hafter
  have hupper : Reads bound ([space] ++ [boundComponent r.upper]) (Exactly r.upper []) :=
    reads_bound r.upper rfl
  refine (reads_bound r.lower hlead).andThen (hupper.andThen ?_)
  have hordered : ¬(!r.isOrdered) = true := by simp [h.isOrdered]
  exact (if_neg hordered) ▸ reads_pure r []

/-- Ranges are read. -/
theorem Ranges.parser_reads {r : Ranges} (h : r.Canonical) :
    Reads parser r.components (Exactly r []) := by
  obtain ⟨ranges⟩ := r
  cases ranges with
  | nil =>
      have hauto : Reads (identMatching "auto") ([] ++ [written (.ident "auto")]) (Exactly () []) :=
        reads_identMatching (Text.lowerCase_of_isSmallAscii (by decide)) rfl
      exact hauto.succeeds.andThen (reads_pure _ _)
  | cons first others =>
      have hauto : Refuses (identMatching "auto") (Ranges.mk (first :: others)).components := by
        obtain ⟨lower, upper⟩ := first
        cases lower with
        | none =>
            have hword : Text.lowerCase "infinite" ≠ "auto" := by
              rw [Text.lowerCase_of_isSmallAscii (by decide)]
              decide
            refine refuses_expect (t := .written (.ident "infinite")) rfl fun _ _ => ?_
            simp [Token.written, keyword?, identName?, hword]
        | some n => exact refuses_expect (t := .written (.number (.ofInt n))) rfl fun _ _ => rfl
      have hranges : Reads (commaSeparated CounterRange.parser)
          (Ranges.mk (first :: others)).components (Exactly (first :: others) []) := by
        refine reads_commaComponents (List.cons_ne_nil _ _) (fun range hrange lead hlead =>
          ⟨[], rfl, CounterRange.parser_reads (h range hrange) hlead⟩) fun range _ c hc => ?_
        simp only [CounterRange.components, List.mem_cons, List.not_mem_nil, or_false] at hc
        rcases hc with rfl | rfl | rfl
        · exact CounterRange.delimiter?_boundComponent range.lower
        · rfl
        · exact CounterRange.delimiter?_boundComponent range.upper
      exact hauto.succeeds.andThen (hranges.andThen (reads_pure _ _))

/-- A padding is read. -/
theorem Pad.parser_reads {context : Context} {p : Pad} (h : p.Canonical context.mode) :
    Reads (parser context) (weightComponents p.width p.symbol) (Exactly p []) := by
  have hweight : Reads (weightAndSymbol context) ([] ++ weightComponents p.width p.symbol)
      (Exactly (p.width, p.symbol) []) := reads_weightAndSymbol h.width p.symbol rfl
  exact hweight.andThen (reads_pure _ _)

/-- A way to speak is read. -/
theorem SpeakAs.parser_reads {s : SpeakAs} (h : s.Canonical) :
    Reads parser s.components (Exactly s []) := by
  cases s with
  | keyword way =>
      have hword : Text.lowerCase (Vocabulary.word way) = Vocabulary.word way := by
        cases way <;> exact Text.lowerCase_of_isSmallAscii (by decide)
      have hway : Reads (member SpeakAsKeyword)
          ([] ++ [written (.ident (Vocabulary.word way))]) (Exactly way []) :=
        reads_member hword rfl
      exact hway.attempt.andThen (reads_pure _ _)
  | style name =>
      have hway : Refuses (member SpeakAsKeyword) ([] ++ [written (.ident name.name)]) := by
        refine refuses_expect_written rfl rfl fun _ _ => ?_
        simp [keyword?, identName?, h.2]
      have hname : Reads CounterStyleName.parser ([] ++ name.components ++ []) (Exactly name []) :=
        CounterStyleName.reads_parserExcluding h.1 rfl
      exact hway.attempt.andThen (hname.andThen (reads_pure _ _))

end Css
