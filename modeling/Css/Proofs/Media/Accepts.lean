import Css.Proofs.Media.Parts

/-!
# Which media features are accepted

Each parser of the grammar of features reads exactly what its part of the grammar spells.
`Feature.accepts_iff` assembles them: a feature is accepted if and only if it spells a test, and
then it stands for the values that pass the test.
-/

namespace Css

open Css.Parser Number
open Component (significant significant_append written)

variable {context : Context} {part rest : List Component}

/-- What follows a beginning of a text is behind it. -/
theorem Text.eq_append_of_after? {beginning text rest : List Char}
    (h : after? beginning text = some rest) : text = beginning ++ rest := by
  unfold after? at h
  split at h
  · rename_i hprefix
    cases h
    exact (List.prefix_iff_eq_append.mp (List.isPrefixOf_iff_prefix.mp hprefix)).symm
  · cases h

/-- A colon is significant. -/
theorem IsColon.significant_append_ne_nil (h : IsColon part) : significant (part ++ rest) ≠ [] := by
  obtain ⟨text, start, hpart⟩ := h
  simp [significant_append, hpart]

namespace Feature

/-- What a comparison with a value is written with behind the name: a colon, or a sign. -/
def Compares (comparison : Comparison) (part : List Component) : Prop :=
  IsColon part ∧ comparison = .equal ∨ comparison.Spelled part

/-- A ranged feature is read behind its name by what reads a comparison and then a value. -/
theorem rangedParser_eq (context : Context) (name : RangedFeature) :
    rangedParser context name = (do
      if ← isExhausted then return .ranged name (.above name.zero)
      (do if ← succeeds colon then pure Comparison.equal else Comparison.parser) >>=
        fun comparison => do
          return .ranged name (comparison.range (← name.valueParser context))) := by
  simp only [rangedParser, bind_assoc]
  congr 1
  funext exhausted
  congr 2
  funext equal
  cases equal <;> rfl

/-- What is written behind the name of a ranged feature. -/
def SpelledBehind (context : Context) (name : RangedFeature) (f : Feature)
    (part : List Component) : Prop :=
  (f = .ranged name (.above name.zero) ∧ significant part = []) ∨
    ∃ comparison front back, part = front ++ back ∧ Compares comparison front ∧
      ∃ value, f = .ranged name (comparison.range value) ∧ name.IsValue context value back

/-- A ranged feature is read behind its name. -/
theorem readsExactly_rangedParser (context : Context) (name : RangedFeature) :
    ReadsExactly (rangedParser context name) (SpelledBehind context name) AtEnd := by
  obtain ⟨hvalue, hstarts⟩ := readsExactly_valueParser context name
  have hequal :
      ReadsExactly (pure Comparison.equal : Parser Comparison) _ (NextIs (IsNoSign '=')) :=
    (readsExactly_pure Comparison.equal).of_stops fun _ _ => trivial
  have hcompares : ReadsExactly
      (do if ← succeeds colon then pure Comparison.equal else Comparison.parser)
      Compares (NextIs (IsNoSign '=')) := by
    rw [succeeds_bind]
    refine (readsExactly_colon.attempt (fun _ => hequal) Comparison.parser_readsExactly
      (fun _ _ => trivial) fun h _ stop => h.colon stop).of_iff fun comparison part => ?_
    refine or_congr_left ⟨?_, ?_⟩
    · rintro ⟨_, front, back, rfl, hcolon, rfl, hback⟩
      exact ⟨readsExactly_colon.trailed (a := ()) hcolon hback, rfl⟩
    · rintro ⟨hcolon, rfl⟩
      exact ⟨(), part, [], (List.append_nil _).symm, hcolon, rfl, rfl⟩
  have hcompared (comparison : Comparison) :=
    (hvalue.map fun value => Feature.ranged name (comparison.range value)).of_stops
      fun _ => AtEnd.nextIs
  rw [rangedParser_eq]
  refine (hcompares.bind hcompared ?_).unlessExhausted _ ?_
  · rintro comparison f back rest ⟨value, -, hback⟩ -
    exact (hstarts value back hback).nextIs fun _ h => h.isNoSign '='
  · rintro f part ⟨comparison, front, back, rfl, -, value, -, hback⟩
    intro hnil
    rw [significant_append, List.append_eq_nil_iff] at hnil
    exact (hstarts value back hback).significant_ne_nil hnil.2

/-- What is written behind a name that makes a ranged feature a bound. -/
def SpelledBound (context : Context) (name : RangedFeature) (bound : Comparison) (f : Feature)
    (part : List Component) : Prop :=
  ∃ colon back, part = colon ++ back ∧ IsColon colon ∧
    ∃ value, f = .ranged name (bound.range value) ∧ name.IsValue context value back

/-- A bound is read behind the name that makes it one. -/
theorem readsExactly_boundParser (context : Context) (name : RangedFeature) (bound : Comparison) :
    ReadsExactly (boundParser context name bound) (SpelledBound context name bound) AtEnd := by
  obtain ⟨hvalue, -⟩ := readsExactly_valueParser context name
  have hbound := (hvalue.map fun value => Feature.ranged name (bound.range value)).of_stops
    fun _ => AtEnd.nextIs
  refine ((readsExactly_colon.bind (fun _ => hbound) fun _ _ => trivial).orFaultAtEnd
    .rangeWithoutBounds ?_).of_iff fun f part => ?_
  · rintro f part ⟨-, colon, back, rfl, hcolon, -⟩
    exact hcolon.significant_append_ne_nil
  · exact exists_const _

/-- What is written behind the name of a discrete feature. -/
def SpelledDiscrete (name : DiscreteFeature) (f : Feature) (part : List Component) : Prop :=
  (f = .discrete name none ∧ significant part = []) ∨
    ∃ colon back, part = colon ++ back ∧ IsColon colon ∧
      ∃ value, f = .discrete name (some value) ∧ name.domain.IsValue value back

/-- A discrete feature is read behind its name. -/
theorem readsExactly_discreteParser (name : DiscreteFeature) :
    ReadsExactly (discreteParser name) (SpelledDiscrete name) AtEnd := by
  have hvalue : ReadsExactly name.domain.parser name.domain.IsValue AtEnd :=
    ((readsExactly_expect _).readEntirely fun _ _ => trivial).of_stops fun _ _ => trivial
  have hequal := hvalue.map fun value => Feature.discrete name (some value)
  refine ((readsExactly_colon.bind (fun _ => hequal) fun _ _ => trivial).unlessExhausted
    (.discrete name none) ?_).of_iff fun f part => ?_
  · rintro f part ⟨-, colon, back, rfl, hcolon, -⟩
    exact hcolon.significant_append_ne_nil
  · exact or_congr_right (exists_const _)

/-- What may follow the name of a feature whose name stands behind a value: nothing, or a sign that
points the same way, and a second value. -/
def secondParser (context : Context) (name : RangedFeature) (value : RangeValue)
    (comparison : Comparison) : Parser Feature := do
  if ← isExhausted then return .ranged name (comparison.flip.range value)
  let location ← Parser.location
  let second ← Comparison.parser
  if !comparison.agrees second then fault .unmatchedComparison location
  return .ranged name
    (between (comparison.flip.range value) (second.range (← name.valueParser context)))

/-- A feature whose name stands behind a value, where the name is known. -/
def aroundParser (context : Context) (name : RangedFeature) : Parser Feature := do
  let value ← name.valueParser context
  let comparison ← Comparison.parser
  identMatching (Vocabulary.word name)
  secondParser context name value comparison

/-- The first significant component is found if it is a name. -/
theorem find?_of_dropWhile {components others : List Component} {component : Component}
    (h : components.dropWhile Component.isFiller = component :: others)
    (hname : (identName? component).isSome) :
    components.find? (fun component => (identName? component).isSome) = some component := by
  have hfillers : Nameless (components.takeWhile Component.isFiller) := fun c hc =>
    identName?_of_isFiller (List.mem_takeWhile_imp hc)
  rw [← List.takeWhile_append_dropWhile (p := Component.isFiller) (l := components),
    hfillers.find?, h]
  simp [hname]

/-- The name behind a value and a sign is the first name at all. -/
theorem find?_of_reads {name : RangedFeature} {c mid mid' : Cursor} {value : RangeValue}
    {comparison : Comparison} {component : Component} {others : List Component}
    (hvalue : name.valueParser context c = .ok value mid)
    (hsign : Comparison.parser mid = .ok comparison mid')
    (hrest : mid'.rest.dropWhile Component.isFiller = component :: others)
    (hname : (identName? component).isSome) :
    c.rest.find? (fun component => (identName? component).isSome) = some component := by
  obtain ⟨hreads, hstarts⟩ := readsExactly_valueParser context name
  obtain ⟨front, hfront, -, hspelled⟩ := hreads.split hvalue
  obtain ⟨back, hback, -, hspelled'⟩ := Comparison.parser_readsExactly.split hsign
  rw [hfront, (hstarts value front hspelled).nameless.find?, hback,
    hspelled'.starts.nameless.find?, find?_of_dropWhile hrest hname]

/-- The name that the parser looks for in front of a value is the one that it comes to behind it. -/
theorem valueFirstParser_eq_ok_iff {location : Position} {c after : Cursor} {f : Feature} :
    valueFirstParser context location c = .ok f after ↔
      ∃ name, aroundParser context name c = .ok f after := by
  constructor
  · intro h
    obtain ⟨before, mid, hget, h⟩ := bind_eq_ok.mp h
    cases hget
    obtain ⟨found, hfound⟩ : ∃ found,
        c.rest.find? (fun component => (identName? component).isSome) = some found := by
      cases hfound : c.rest.find? fun component => (identName? component).isSome with
      | none => rw [hfound] at h; cases h
      | some found => exact ⟨found, rfl⟩
    rw [hfound] at h
    dsimp only at h
    obtain ⟨name, hname⟩ : ∃ name,
        (keyword? found).bind (Vocabulary.find? RangedFeature) = some name := by
      cases hname : (keyword? found).bind (Vocabulary.find? RangedFeature) with
      | none => rw [hname] at h; cases h
      | some name => exact ⟨name, rfl⟩
    rw [hname] at h
    obtain ⟨value, mid, hvalue, h⟩ := bind_eq_ok.mp h
    obtain ⟨comparison, mid', hsign, h⟩ := bind_eq_ok.mp h
    obtain ⟨word, last, hword, h⟩ := bind_eq_ok.mp h
    obtain ⟨component, others, hrest, hident, rfl⟩ := expect_eq_ok_iff.mp hword
    -- the name that was looked up is the one that is read here
    have hfirst := find?_of_reads hvalue hsign hrest (by simp [hident])
    obtain rfl := Option.some.inj (hfound.symm.trans hfirst)
    obtain ⟨keyword, hkeyword, hmember⟩ := Option.bind_eq_some_iff.mp hname
    rw [← Vocabulary.word_of_find? hmember] at hkeyword
    refine ⟨name, bind_eq_ok.mpr ⟨value, mid, hvalue, bind_eq_ok.mpr ⟨comparison, mid', hsign,
      bind_eq_ok.mpr ⟨(), _, expect_eq_ok_iff.mpr ⟨_, others, hrest, ?_, rfl⟩, h⟩⟩⟩⟩
    rw [if_pos hkeyword]
  · rintro ⟨name, h⟩
    obtain ⟨value, mid, hvalue, h⟩ := bind_eq_ok.mp h
    obtain ⟨comparison, mid', hsign, h⟩ := bind_eq_ok.mp h
    obtain ⟨word, last, hword, h⟩ := bind_eq_ok.mp h
    obtain ⟨component, others, hrest, hkeyword, rfl⟩ := expect_eq_ok_iff.mp hword
    split at hkeyword
    · rename_i hword
      obtain ⟨spelling, hident, -⟩ := Option.map_eq_some_iff.mp hword
      have hfirst := find?_of_reads hvalue hsign hrest (by simp [hident])
      refine bind_eq_ok.mpr ⟨c, c, rfl, ?_⟩
      simp only [hfirst, hword, Option.bind_some, Vocabulary.find?_word]
      exact bind_eq_ok.mpr ⟨value, mid, hvalue, bind_eq_ok.mpr ⟨comparison, mid', hsign,
        bind_eq_ok.mpr ⟨spelling, _, expect_eq_ok_iff.mpr ⟨_, others, hrest, hident, rfl⟩, h⟩⟩⟩
    · cases hkeyword

/-- What is written behind the name of a feature whose name stands behind a value. -/
def SpelledBeyond (context : Context) (name : RangedFeature) (value : RangeValue)
    (comparison : Comparison) (f : Feature) (part : List Component) : Prop :=
  (f = .ranged name (comparison.flip.range value) ∧ significant part = []) ∨
    ∃ second front back, part = front ++ back ∧ second.Spelled front ∧
      comparison.SameWay second ∧ ∃ other, f = .ranged name
        (between (comparison.flip.range value) (second.range other)) ∧
        name.IsValue context other back

/-- What follows the name of a feature whose name stands behind a value is read. -/
theorem readsExactly_secondParser (context : Context) (name : RangedFeature) (value : RangeValue)
    (comparison : Comparison) :
    ReadsExactly (secondParser context name value comparison)
      (SpelledBeyond context name value comparison) AtEnd := by
  obtain ⟨hvalue, hstarts⟩ := readsExactly_valueParser context name
  have hother (second : Comparison) := (hvalue.map fun other => Feature.ranged name
    (between (comparison.flip.range value) (second.range other))).of_stops fun _ => AtEnd.nextIs
  have hsecond (location : Position) :=
    Comparison.parser_readsExactly.bind (fun second => (hother second).unless
      ((!comparison.agrees second) = true) .unmatchedComparison location) (by
      rintro second f back rest ⟨-, other, -, hback⟩ -
      exact (hstarts other back hback).nextIs fun _ h => h.isNoSign '=')
  have hlocated : ReadsExactly _ _ AtEnd := ReadsExactly.anywhere fun c => hsecond c.location
  refine (hlocated.unlessExhausted (.ranged name (comparison.flip.range value)) ?_).of_iff
    fun f part => or_congr_right ?_
  · rintro f part ⟨second, front, back, rfl, hfront, -⟩ hnil
    rw [significant_append, List.append_eq_nil_iff] at hnil
    exact hfront.starts.significant_ne_nil hnil.1
  · simp only [Bool.not_eq_true', Bool.not_eq_false, Comparison.agrees_iff]

/-- What is written around the name of a feature whose name stands behind a value. -/
def SpelledAround (context : Context) (name : RangedFeature) (f : Feature)
    (part : List Component) : Prop :=
  ∃ value front behind, part = front ++ behind ∧ name.IsValue context value front ∧
    ∃ comparison sign named, behind = sign ++ named ∧ comparison.Spelled sign ∧
      ∃ word back, named = word ++ back ∧ IsWord (Vocabulary.word name) word ∧
        SpelledBeyond context name value comparison f back

/-- A feature whose name stands behind a value starts with no name. -/
theorem SpelledAround.exists_dropWhile {name : RangedFeature} {f : Feature}
    (h : SpelledAround context name f part) (rest : List Component) : ∃ first others,
      (part ++ rest).dropWhile Component.isFiller = first :: others ∧ identName? first = none := by
  obtain ⟨value, front, behind, rfl, hfront, -⟩ := h
  have hstarts := (readsExactly_valueParser context name).2 value front hfront
  obtain ⟨first, others, hfirst, -, hname⟩ := hstarts.exists_dropWhile (behind ++ rest)
  rw [← List.append_assoc] at hfirst
  exact ⟨first, others, hfirst, hname⟩

/-- A feature whose name stands behind a value is read. -/
theorem readsExactly_aroundParser (context : Context) (name : RangedFeature) :
    ReadsExactly (aroundParser context name) (SpelledAround context name) AtEnd := by
  obtain ⟨hvalue, hstarts⟩ := readsExactly_valueParser context name
  have hword (value : RangeValue) (comparison : Comparison) :=
    ((readsExactly_identMatching (Vocabulary.word name)).bind
      (fun _ => readsExactly_secondParser context name value comparison) fun _ _ => trivial).of_iff
        fun f part => exists_const _
  have hsign (value : RangeValue) := Comparison.parser_readsExactly.bind (hword value) (by
    rintro comparison f back rest ⟨word, others, rfl, hword, -⟩ -
    rw [List.append_assoc]
    exact hword.nextIs '=')
  refine hvalue.bind hsign ?_
  rintro value f back rest ⟨comparison, sign, others, rfl, hsign, -⟩ -
  rw [List.append_assoc]
  refine hsign.starts.nextIs fun component ⟨c, hne, hc⟩ => Bool.eq_false_iff.mpr fun hslash => ?_
  exact hne (Comparison.eq_of_isSign hc hslash)

/-- A word is put together from its two parts. -/
theorem splitBound_eq (word : String) :
    splitBound word = (none, word) ∨
      ∃ base, (word = "min-" ++ base ∧ splitBound word = (some .atLeast, base)) ∨
        (word = "max-" ++ base ∧ splitBound word = (some .atMost, base)) := by
  have hjoin {beginning : String} {rest : List Char}
      (h : Text.after? beginning.toList word.toList = some rest) :
      word = beginning ++ String.ofList rest := by
    rw [← String.ofList_toList (s := word), Text.eq_append_of_after? h, String.ofList_append,
      String.ofList_toList]
  unfold splitBound
  split
  · rename_i rest _ hmin
    exact .inr ⟨_, .inl ⟨hjoin hmin, rfl⟩⟩
  · rename_i rest hmax _
    exact .inr ⟨_, .inr ⟨hjoin hmax, rfl⟩⟩
  · exact .inl rfl

end Feature

/-- The words that a feature can start with. -/
inductive Heading where
  | ranged (name : RangedFeature)
  | minimum (name : RangedFeature)
  | maximum (name : RangedFeature)
  | discrete (name : DiscreteFeature)

namespace Heading

/-- The word itself. -/
def word : Heading → String
  | ranged name => Vocabulary.word name
  | minimum name => "min-" ++ Vocabulary.word name
  | maximum name => "max-" ++ Vocabulary.word name
  | discrete name => Vocabulary.word name

/-- What reads the feature behind the word. -/
def parser (context : Context) : Heading → Parser Feature
  | ranged name => Feature.rangedParser context name
  | minimum name => Feature.boundParser context name .atLeast
  | maximum name => Feature.boundParser context name .atMost
  | discrete name => Feature.discreteParser name

/-- Behind a word, a feature is read if the word is one that a feature can start with. -/
theorem namedParser_eq_ok_iff {context : Context} {location : Position} {word : String}
    {c after : Cursor} {f : Feature} :
    Feature.namedParser context location word c = .ok f after ↔
      ∃ heading : { heading : Heading // heading.word = word },
        heading.1.parser context c = .ok f after := by
  constructor
  · intro h
    unfold Feature.namedParser at h
    have hbase {bound : Comparison} {base : String}
        (hsplit : Feature.splitBound word = (some bound, base)) : ∃ name : RangedFeature,
          Vocabulary.word name = base ∧ Feature.boundParser context name bound c = .ok f after := by
      rw [hsplit] at h
      dsimp only at h
      cases hranged : Vocabulary.find? RangedFeature base with
      | none =>
          rw [hranged] at h
          cases h
      | some name =>
          rw [hranged] at h
          exact ⟨name, Vocabulary.word_of_find? hranged, h⟩
    -- a prefix is split off whatever stands behind it, so one name is looked up at most
    rcases Feature.splitBound_eq word with hsplit | ⟨base, ⟨hword, hsplit⟩ | ⟨hword, hsplit⟩⟩
    · rw [hsplit] at h
      dsimp only at h
      cases hranged : Vocabulary.find? RangedFeature word with
      | some name =>
          rw [hranged] at h
          exact ⟨⟨.ranged name, Vocabulary.word_of_find? hranged⟩, h⟩
      | none =>
          rw [hranged] at h
          cases hdiscrete : Vocabulary.find? DiscreteFeature word with
          | some name =>
              rw [hdiscrete] at h
              exact ⟨⟨.discrete name, Vocabulary.word_of_find? hdiscrete⟩, h⟩
          | none =>
              rw [hdiscrete] at h
              cases h
    · obtain ⟨name, rfl, hbound⟩ := hbase hsplit
      exact ⟨⟨.minimum name, hword.symm⟩, hbound⟩
    · obtain ⟨name, rfl, hbound⟩ := hbase hsplit
      exact ⟨⟨.maximum name, hword.symm⟩, hbound⟩
  · rintro ⟨⟨heading, rfl⟩, h⟩
    cases heading with
    | ranged name => rwa [word, (Feature.namedParser_ranged context location name).1]
    | minimum name => rwa [word, (Feature.namedParser_ranged context location name).2.1]
    | maximum name => rwa [word, (Feature.namedParser_ranged context location name).2.2]
    | discrete name => rwa [word, Feature.namedParser_discrete context location name]

/-- What may stand behind a word that starts a feature. -/
def Spelled (context : Context) : Heading → Feature → List Component → Prop
  | ranged name, f, part => Feature.SpelledBehind context name f part
  | minimum name, f, part => Feature.SpelledBound context name .atLeast f part
  | maximum name, f, part => Feature.SpelledBound context name .atMost f part
  | discrete name, f, part => Feature.SpelledDiscrete name f part

/-- What stands behind a word that starts a feature is read. -/
theorem parser_readsExactly (context : Context) (heading : Heading) :
    ReadsExactly (heading.parser context) (heading.Spelled context) AtEnd := by
  cases heading with
  | ranged name => exact Feature.readsExactly_rangedParser context name
  | minimum name | maximum name => exact Feature.readsExactly_boundParser context name _
  | discrete name => exact Feature.readsExactly_discreteParser name

end Heading

namespace Feature

/-- Behind any word, a feature is read if the word starts one. -/
theorem readsExactly_namedParser (context : Context) (location : Position) (word : String) :
    ReadsExactly (namedParser context location word)
      (fun f part => ∃ heading : { heading : Heading // heading.word = word },
        heading.1.Spelled context f part) AtEnd :=
  ReadsExactly.union (fun heading : { heading : Heading // heading.word = word } =>
    heading.1.parser_readsExactly context) fun _ _ _ => Heading.namedParser_eq_ok_iff

/-- A feature goes on behind a word, or starts without one. -/
theorem parser_eq_ok_iff {context : Context} {c after : Cursor} {f : Feature} :
    parser context c = .ok f after ↔
      (attempt (expect keyword?) >>= fun found =>
        found.elim (valueFirstParser context c.location) (namedParser context c.location)) c =
          .ok f after := by
  cases hrest : c.rest.dropWhile Component.isFiller with
  | nil =>
      have hnext : next c = .error ⟨.endOfInput, c.stop⟩ ⟨[], c.stop⟩ := by
        rw [next, nextAfter_eq, hrest]
      have hparser : parser context c = .error ⟨.endOfInput, c.stop⟩ ⟨[], c.stop⟩ := by
        show (next >>= _) c = _
        rw [bind_of_error hnext]
      have hattempt : attempt (expect keyword?) c = .ok none c := by
        unfold attempt
        rw [expect_eq, hrest]
      rw [hparser, bind_of_ok hattempt]
      -- behind a value there would be something to read
      refine ⟨fun h => absurd h (by simp), fun h => ?_⟩
      obtain ⟨name, h⟩ := valueFirstParser_eq_ok_iff.mp h
      obtain ⟨part, hpart, -, hspelled⟩ := (readsExactly_aroundParser context name).split h
      obtain ⟨first, others, hfirst, -⟩ := hspelled.exists_dropWhile after.rest
      rw [hpart, hfirst] at hrest
      cases hrest
  | cons component rest =>
      have hnext : next c = .ok component ⟨rest, c.stop⟩ := next_eq_ok_iff.mpr ⟨rest, hrest, rfl⟩
      cases hkeyword : keyword? component with
      | some word =>
          have hparser : parser context c = namedParser context c.location word ⟨rest, c.stop⟩ := by
            show (next >>= _) c = _
            rw [bind_of_ok hnext, hkeyword]
          have hattempt : attempt (expect keyword?) c = .ok (some word) ⟨rest, c.stop⟩ := by
            unfold attempt
            rw [expect_eq, hrest]
            simp only [hkeyword]
          rw [hparser, bind_of_ok hattempt]
          rfl
      | none =>
          have hparser : parser context c = valueFirstParser context c.location c := by
            show (next >>= _) c = _
            rw [bind_of_ok hnext, hkeyword]
            rfl
          have hattempt : attempt (expect keyword?) c = .ok none c := by
            unfold attempt
            rw [expect_eq, hrest]
            simp only [hkeyword]
          rw [hparser, bind_of_ok hattempt]
          rfl

/-- A feature that starts with a value is read whatever its name. -/
theorem readsExactly_valueFirstParser (context : Context) (location : Position) :
    ReadsExactly (valueFirstParser context location)
      (fun f part => ∃ name, SpelledAround context name f part) AtEnd :=
  ReadsExactly.union (readsExactly_aroundParser context) fun _ _ _ => valueFirstParser_eq_ok_iff

/-- What is spelled behind a word or around a name is what spells a test. -/
theorem spelled_iff {f : Feature} {part : List Component} :
    (∃ word front back, part = front ++ back ∧ Shows keyword? word front ∧
      ∃ heading : { heading : Heading // heading.word = word }, heading.1.Spelled context f back) ∨
        (∃ name, SpelledAround context name f part) ↔
      ∃ test : FeatureTest, test.Spelled context part ∧ f = test.feature := by
  constructor
  · rintro (⟨_, front, back, rfl, hword, ⟨⟨heading, rfl⟩, hheading⟩⟩ |
      ⟨name, value, front, _, rfl, hvalue, comparison, sign, _, rfl, hsign, word, back, rfl, hword,
        hback⟩)
    · cases heading with
      | ranged name =>
          rcases hheading with ⟨rfl, hback⟩ |
            ⟨comparison, sign, part, rfl, ⟨hcolon, rfl⟩ | hsign, value, rfl, hvalue⟩
          · have hword := (readsExactly_expect _).trailed hword hback
            exact ⟨.ranged name .positive, .ranged (.positive hword), rfl⟩
          · exact ⟨.ranged name (.equal value), .ranged (.equal hword hcolon hvalue), rfl⟩
          · exact ⟨.ranged name (.compared comparison value),
              .ranged (.compared hword hsign hvalue), rfl⟩
      | minimum name =>
          obtain ⟨colon, part, rfl, hcolon, value, rfl, hvalue⟩ := hheading
          exact ⟨.ranged name (.minimum value), .ranged (.minimum hword hcolon hvalue), rfl⟩
      | maximum name =>
          obtain ⟨colon, part, rfl, hcolon, value, rfl, hvalue⟩ := hheading
          exact ⟨.ranged name (.maximum value), .ranged (.maximum hword hcolon hvalue), rfl⟩
      | discrete name =>
          rcases hheading with ⟨rfl, hback⟩ | ⟨colon, part, rfl, hcolon, value, rfl, hvalue⟩
          · have hword := (readsExactly_expect _).trailed hword hback
            exact ⟨.discrete name none, .bare hword, rfl⟩
          · exact ⟨.discrete name (some value), .equal hword hcolon hvalue, rfl⟩
    · rcases hback with ⟨rfl, hback⟩ | ⟨second, sign', part', rfl, hsign', hway, other, rfl, hother⟩
      · -- fillers behind a name that nothing follows belong to the name
        have hword := (readsExactly_expect _).trailed hword hback
        exact ⟨.ranged name (.reversed value comparison),
          .ranged (.reversed hvalue hsign hword), rfl⟩
      · exact ⟨.ranged name (.between value comparison second other),
          .ranged (.between hvalue hsign hword hsign' hother hway), rfl⟩
  · rintro ⟨test, htest, rfl⟩
    cases htest with
    | @ranged name _ _ htest =>
        cases htest with
        | positive hword =>
            exact .inl ⟨_, part, [], (List.append_nil _).symm, hword, ⟨.ranged name, rfl⟩,
              .inl ⟨rfl, rfl⟩⟩
        | equal hword hcolon hvalue =>
            exact .inl ⟨_, _, _, rfl, hword, ⟨.ranged name, rfl⟩,
              .inr ⟨.equal, _, _, rfl, .inl ⟨hcolon, rfl⟩, _, rfl, hvalue⟩⟩
        | minimum hword hcolon hvalue =>
            exact .inl ⟨_, _, _, rfl, hword, ⟨.minimum name, rfl⟩, _, _, rfl, hcolon, _, rfl,
              hvalue⟩
        | maximum hword hcolon hvalue =>
            exact .inl ⟨_, _, _, rfl, hword, ⟨.maximum name, rfl⟩, _, _, rfl, hcolon, _, rfl,
              hvalue⟩
        | compared hword hsign hvalue =>
            exact .inl ⟨_, _, _, rfl, hword, ⟨.ranged name, rfl⟩,
              .inr ⟨_, _, _, rfl, .inr hsign, _, rfl, hvalue⟩⟩
        | reversed hvalue hsign hword =>
            exact .inr ⟨name, _, _, _, rfl, hvalue, _, _, _, rfl, hsign, _, [],
              (List.append_nil _).symm, hword, .inl ⟨rfl, rfl⟩⟩
        | between hvalue hsign hword hsign' hvalue' hway =>
            exact .inr ⟨name, _, _, _, rfl, hvalue, _, _, _, rfl, hsign, _, _, rfl, hword,
              .inr ⟨_, _, _, rfl, hsign', hway, _, rfl, hvalue'⟩⟩
    | @bare name _ hword =>
        exact .inl ⟨_, part, [], (List.append_nil _).symm, hword, ⟨.discrete name, rfl⟩,
          .inl ⟨rfl, rfl⟩⟩
    | @equal name _ _ _ _ hword hcolon hvalue =>
        exact .inl ⟨_, _, _, rfl, hword, ⟨.discrete name, rfl⟩,
          .inr ⟨_, _, rfl, hcolon, _, rfl, hvalue⟩⟩

/-- A feature is read where a test is spelled. -/
theorem parser_readsExactly (context : Context) :
    ReadsExactly (parser context)
      (fun f part => ∃ test : FeatureTest, test.Spelled context part ∧ f = test.feature) AtEnd := by
  have hlocated (c : Cursor) :=
    (readsExactly_expect keyword?).attempt (readsExactly_namedParser context c.location)
      (readsExactly_valueFirstParser context c.location) (fun _ _ => trivial) (by
        rintro f part rest ⟨name, hspelled⟩ - stop
        obtain ⟨first, others, hfirst, hname⟩ := hspelled.exists_dropWhile rest
        have hword : keyword? first = none := by rw [keyword?, hname, Option.map_none]
        simp only [expect_eq, hfirst, hword]
        exact ⟨_, _, rfl⟩)
  refine ReadsExactly.of_iff ?_ fun f part => spelled_iff
  exact (ReadsExactly.anywhere hlocated).congr fun _ _ _ => parser_eq_ok_iff

/-- A feature is accepted if and only if it spells a test, and what it stands for means what the
test says: the values in a range are those of which the comparisons are true. -/
theorem accepts_iff {α : Type*} [LinearOrder α] (measure : RangeValue → α) (context : Context)
    (components : List Component) (stop : Position) :
    ((∃ f last, entirely (parser context) ⟨components, stop⟩ = .ok f last) ↔
      ∃ test : FeatureTest, test.Spelled context components) ∧
    ∀ f last, entirely (parser context) ⟨components, stop⟩ = .ok f last →
      ∀ test : FeatureTest, test.Spelled context components → test.Means measure f := by
  have hentirely (f : Feature) (last : Cursor) :
      entirely (parser context) ⟨components, stop⟩ = .ok f last ↔
        (∃ test : FeatureTest, test.Spelled context components ∧ f = test.feature) ∧
          last = ⟨[], stop⟩ :=
    (parser_readsExactly context).entirely_eq_ok_iff fun _ h => h
  refine ⟨⟨?_, ?_⟩, ?_⟩
  · rintro ⟨f, last, h⟩
    obtain ⟨⟨test, htest, -⟩, -⟩ := (hentirely f last).mp h
    exact ⟨test, htest⟩
  · rintro ⟨test, htest⟩
    exact ⟨test.feature, _, (hentirely _ _).mpr ⟨⟨test, htest, rfl⟩, rfl⟩⟩
  · intro f last h test htest
    have hfeature := (hentirely test.feature ⟨[], stop⟩).mpr ⟨⟨test, htest, rfl⟩, rfl⟩
    rw [h] at hfeature
    cases hfeature
    exact htest.means_feature

/-- The number of pixels of a length. -/
def pixels : RangeValue → Int
  | .length (.integer n) .px => n
  | _ => 0

/-- `400px <= Width < 700px` is accepted, for the widths from 400 pixels up to, but not, 700. -/
theorem accepts_iff_between :
    ∃ range last,
      entirely (parser (.ofMode .strict))
        ⟨[written (.dimension (.ofInt 400) "px"), written (.delim '<'), written (.delim '='),
          written (.ident "Width"), written (.delim '<'), written (.dimension (.ofInt 700) "px")],
          default⟩ = .ok (.ranged .width range) last ∧
      ∀ x : Int, range.Contains pixels x ↔ 400 ≤ x ∧ x < 700 := by
  have hvalue (n : Int) (h : entirely (lengthParser (.ofMode .strict))
      ⟨[written (.dimension (.ofInt n) "px")], default⟩ =
        .ok (.length (.integer n) .px) ⟨[], default⟩) :
      RangedFeature.width.IsValue (.ofMode .strict) (.length (.integer n) .px)
        [written (.dimension (.ofInt n) "px")] := ⟨default, _, h⟩
  have hword : IsWord (Vocabulary.word RangedFeature.width) [written (.ident "Width")] :=
    ⟨_, rfl, by cbv⟩
  have hsign : Comparison.atMost.Spelled [written (.delim '<'), written (.delim '=')] :=
    @Comparison.Spelled.two '<' .atMost [] [] [] _ _ (by simp) rfl rfl (by simp) rfl rfl
  have hsign' : Comparison.less.Spelled [written (.delim '<')] :=
    .one (c := '<') (by simp) rfl rfl
  have htest := FeatureTest.Spelled.ranged <| RangeTest.Spelled.between (hvalue 400 (by rfl)) hsign
    hword hsign' (hvalue 700 (by rfl)) (.inl ⟨by simp, by simp⟩)
  obtain ⟨haccepts, hmeans⟩ := accepts_iff pixels (.ofMode .strict) _ default
  obtain ⟨f, last, hf⟩ := haccepts.mpr ⟨_, htest⟩
  have hf' := hmeans f last hf _ htest
  cases f with
  | ranged name range =>
      obtain ⟨rfl, hrange⟩ := hf'
      exact ⟨range, last, hf, hrange⟩
  | discrete name value => cases hf'

end Feature

end Css
