import Css.Proofs.Media.Written

/-!
# Media lists are read back

Each grammar of media queries reads the components of what it accepts. The numbers are read as
written, `asWritten`, and a range is read from whichever form it is written in.
-/

namespace Css

open Css.Parser Number
open Component (written space)

variable {lead rest : List Component}

instance : LawfulVocabulary LengthUnit where
  find?_word member := by cases member <;> rfl

instance : LawfulVocabulary ResolutionUnit where
  find?_word member := by cases member <;> rfl

instance : LawfulVocabulary RangedFeature where
  find?_word member := by cases member <;> rfl

instance : LawfulVocabulary DiscreteFeature where
  find?_word member := by cases member <;> rfl

instance : LawfulVocabulary MediaQualifier where
  find?_word member := by cases member <;> rfl

/-- The units of lengths are in lower case. -/
theorem LengthUnit.lowerCase_word (unit : LengthUnit) :
    Text.lowerCase (Vocabulary.word unit) = Vocabulary.word unit := by
  cases unit <;> exact Text.lowerCase_of_isSmallAscii (by decide)

/-- The units of resolutions are in lower case. -/
theorem ResolutionUnit.lowerCase_word (unit : ResolutionUnit) :
    Text.lowerCase (Vocabulary.word unit) = Vocabulary.word unit := by
  cases unit <;> exact Text.lowerCase_of_isSmallAscii (by decide)

/-- Names of features are in lower case. -/
theorem RangedFeature.lowerCase_word (feature : RangedFeature) :
    Text.lowerCase (Vocabulary.word feature) = Vocabulary.word feature ∧
      Text.lowerCase ("min-" ++ Vocabulary.word feature) = "min-" ++ Vocabulary.word feature ∧
      Text.lowerCase ("max-" ++ Vocabulary.word feature) = "max-" ++ Vocabulary.word feature := by
  have hsmall (word : String) : word.toList.all Text.isSmallAscii = true →
      Text.lowerCase word = word := Text.lowerCase_of_isSmallAscii
  cases feature <;>
    exact ⟨hsmall _ (by decide), hsmall _ (by decide), hsmall _ (by decide)⟩

/-- The names of discrete features are in lower case. -/
theorem DiscreteFeature.lowerCase_word (feature : DiscreteFeature) :
    Text.lowerCase (Vocabulary.word feature) = Vocabulary.word feature := by
  cases feature <;> exact Text.lowerCase_of_isSmallAscii (by decide)

/-- A number that is written keeps its sign. -/
theorem Number.Numeral.sign_ofNumeric {a : Numeric} (h : a.IsWritable) :
    (Numeral.ofNumeric a).value.isNegative = a.isNegative ∧
      (Numeral.ofNumeric a).value.isPositive = a.isPositive := by
  obtain ⟨x, hx⟩ := h.exists_toRat?
  have hx' := (Numeral.toRat?_ofNumeric a).trans hx
  have hzero : (Numeric.integer 0).toRat? = some 0 := rfl
  have hbelow := Numeric.le_congr hx hzero hx' hzero
  have habove := Numeric.le_congr hzero hx hzero hx'
  exact ⟨by rw [Numeric.isNegative, Numeric.isNegative, hbelow, habove],
    by rw [Numeric.isPositive, Numeric.isPositive, hbelow, habove]⟩

/-- What compares with a value is bounded by it. -/
theorem Comparison.values_range (comparison : Comparison) (value : RangeValue) :
    (comparison.range value).IsBounded ∧ ∀ v ∈ (comparison.range value).values, v = value := by
  cases comparison <;> simp [range, Range.exactly, Range.IsBounded, Range.values]

/-- The range between two ranges has their values. -/
theorem Feature.values_between {a b : Range} :
    (a.IsBounded → (between a b).IsBounded) ∧
      ∀ v ∈ (between a b).values, v ∈ a.values ∨ v ∈ b.values := by
  obtain ⟨lower, upper⟩ := a
  refine ⟨Or.imp (fun h => ?_) fun h => ?_, fun v hv => ?_⟩
  · simp [between, h]
  · simp [between, h]
  · simp only [between, Range.values, List.map_append, List.mem_append, List.mem_map,
      Option.mem_toList, Option.or_eq_some_iff] at hv ⊢
    rcases hv with ⟨bound, h | h, rfl⟩ | ⟨bound, h | h, rfl⟩
    · exact .inl (.inl ⟨bound, h, rfl⟩)
    · exact .inr (.inl ⟨bound, h.2, rfl⟩)
    · exact .inl (.inr ⟨bound, h, rfl⟩)
    · exact .inr (.inr ⟨bound, h.2, rfl⟩)

namespace RangedFeature

variable {mode : Mode} {feature : RangedFeature} {r : Range}

/-- The numbers of a value that a feature can be compared with are ones that a token can have. -/
theorem Accepts.isRead {v : RangeValue} (h : feature.Accepts mode v) : v.IsRead := by
  cases feature with
  | width | height =>
      cases v with
      | length => exact h
      | _ => cases h
  | aspectRatio | resolution | color | colorIndex | monochrome =>
      cases v <;> first | exact h.1 | cases h

/-- The values of a range that can be asked for are accepted, or the range is known by its name. -/
theorem Asks.values_cases (h : feature.Asks mode r) :
    r = .above feature.zero ∨ r.IsBounded ∧ ∀ v ∈ r.values, feature.Accepts mode v := by
  cases h with
  | above => exact .inl rfl
  | compared comparison value hvalue =>
      obtain ⟨hbounded, hvalues⟩ := comparison.values_range value
      exact .inr ⟨hbounded, fun v hv => hvalues v hv ▸ hvalue⟩
  | between first second value other _ hvalue hother =>
      obtain ⟨hbounded, hfirst⟩ := first.flip.values_range value
      obtain ⟨-, hsecond⟩ := second.values_range other
      refine .inr ⟨Feature.values_between.1 hbounded, fun v hv => ?_⟩
      rcases Feature.values_between.2 v hv with hv | hv
      · exact hfirst v hv ▸ hvalue
      · exact hsecond v hv ▸ hother

/-- A range that can be asked for is bounded. -/
theorem Asks.isBounded (h : feature.Asks mode r) : r.IsBounded := by
  rcases h.values_cases with rfl | ⟨hbounded, -⟩
  · exact .inl rfl
  · exact hbounded

/-- The numbers of a range that can be asked for are ones that a token can have. -/
theorem Asks.isRead (h : feature.Asks mode r) : ∀ v ∈ r.values, v.IsRead := by
  rcases h.values_cases with rfl | ⟨-, haccepts⟩
  · have hzero : 0 < 10 ^ digitLimit ∧ 1 < 10 ^ digitLimit := by decide +kernel
    simp only [Range.above, Range.values, Option.toList_some, Option.toList_none, List.append_nil,
      List.map_cons, List.map_nil, List.mem_singleton, forall_eq]
    cases feature <;> first | exact hzero.1 | exact hzero
  · exact fun v hv => (haccepts v hv).isRead

/-- The values that a range is written with are ones that its feature can be compared with. -/
theorem Asks.accepts (h : feature.Asks mode r) : ∀ v ∈ r.form.values, feature.Accepts mode v := by
  rcases h.values_cases with rfl | ⟨-, haccepts⟩
  · cases feature <;> nofun
  · exact fun v hv => haccepts v (r.mem_values_of_form hv)

end RangedFeature

/-- A length with a unit is read. -/
theorem reads_lengthParser (context : Context) (n : Numeral) (unit : LengthUnit) :
    Reads (lengthParser context) (written (.dimension n (Vocabulary.word unit)) :: rest)
      (Exactly (.length n.value unit) rest) := by
  refine reads_expect_first rfl fun _ _ => ?_
  simp only [unit.lowerCase_word, Vocabulary.find?_word, Option.map_some]

/-- A side of a ratio is read. -/
theorem reads_ratioSide {context : Context} {a : Numeric} (h : a.IsWritable)
    (hsign : context.mode.negativeNumbers = false → (Numeric.integer 0).le a = true) :
    Reads (ratioSide context) (written (.number (.ofNumeric a)) :: rest)
      (Exactly (Numeral.ofNumeric a).value rest) := by
  refine (reads_location _).bind fun location after hafter => ?_
  subst hafter
  have hnumber : Reads number (written (.number (.ofNumeric a)) :: rest)
      (Exactly (Numeral.ofNumeric a).value rest) :=
    reads_expect_first rfl fun _ _ => rfl
  refine hnumber.andThen ?_
  have hnegative : ¬((Numeral.ofNumeric a).value.isNegative ∧
      (!context.mode.negativeNumbers) = true) := by
    rintro ⟨hnegative, hmode⟩
    rw [(Numeral.sign_ofNumeric h).1, Numeric.isNegative, hsign (by simpa using hmode)] at hnegative
    cases hnegative
  rw [if_neg hnegative]
  exact reads_pure _ rest

/-- A ratio is read. -/
theorem reads_ratioParser {context : Context} {numerator denominator : Numeric}
    (haccepts : RangedFeature.aspectRatio.Accepts context.mode (.ratio numerator denominator))
    (h : (RangeValue.ratio numerator denominator).IsWritable) :
    Reads (ratioParser context) ((RangeValue.ratio numerator denominator).components ++ rest)
      (Exactly (RangeValue.ratio numerator denominator).asWritten rest) := by
  have hslash : Reads (delim '/')
      (written (.delim '/') :: written (.number (.ofNumeric denominator)) :: rest)
      (Exactly () (written (.number (.ofNumeric denominator)) :: rest)) :=
    reads_expect_first rfl fun _ _ => rfl
  refine (reads_ratioSide h.1 fun hmode => (haccepts.2 hmode).1).andThen ?_
  refine hslash.succeeds.andThen ?_
  exact (reads_ratioSide h.2 fun hmode => (haccepts.2 hmode).2).andThen (reads_pure _ rest)

/-- A resolution is read. -/
theorem reads_resolutionParser {a : Numeric} (h : a.IsWritable) (hpositive : a.isPositive = true)
    (unit : ResolutionUnit) :
    Reads resolutionParser (written (.dimension (.ofNumeric a) (Vocabulary.word unit)) :: rest)
      (Exactly (.resolution (Numeral.ofNumeric a).value unit) rest) := by
  refine reads_expect_first rfl fun _ _ => ?_
  simp only [(Numeral.sign_ofNumeric h).2, hpositive, if_true, unit.lowerCase_word,
    Vocabulary.find?_word, Option.map_some]

/-- The value of a ranged feature is read. -/
theorem RangedFeature.reads_valueParser {context : Context} (feature : RangedFeature)
    {v : RangeValue} (haccepts : feature.Accepts context.mode v) (h : v.IsWritable) :
    Reads (feature.valueParser context) (v.components ++ rest) (Exactly v.asWritten rest) := by
  have hcount {n : Int} (hsign : context.mode.negativeNumbers = false → 0 ≤ n) :
      Reads (countParser context) ([] ++ written (.number (.ofInt n)) :: rest)
        (Exactly (.count n) rest) :=
    (reads_nonNegativeInteger hsign rfl).andThen (reads_pure _ rest)
  cases feature with
  | width | height =>
      cases v with
      | length value unit => exact reads_lengthParser context _ unit
      | _ => cases haccepts
  | aspectRatio =>
      cases v with
      | ratio numerator denominator => exact reads_ratioParser haccepts h
      | _ => cases haccepts
  | resolution =>
      cases v with
      | resolution value unit => exact reads_resolutionParser h haccepts.2 unit
      | _ => cases haccepts
  | color | colorIndex | monochrome =>
      cases v with
      | count n => exact hcount haccepts.2
      | _ => cases haccepts

/-- The values of the domains whose values are numbers are zero and one. -/
theorem DiscreteDomain.isBinary_iff {domain : DiscreteDomain} {v : DiscreteValue}
    (h : v ∈ domain.values) : domain.isBinary = true ↔ v = .zero ∨ v = .one := by
  revert v
  cases domain <;> decide

/-- A value of a domain is found by its word. -/
theorem DiscreteDomain.find?_css {domain : DiscreteDomain} {v : DiscreteValue}
    (h : v ∈ domain.values) : domain.values.find? (fun value => value.css == v.css) = some v := by
  revert v
  cases domain <;> decide

/-- The value of a ranged feature is read up to the end. -/
theorem RangedFeature.reads_valueParser_nil {context : Context} (feature : RangedFeature)
    {v : RangeValue} (haccepts : feature.Accepts context.mode v) (h : v.IsWritable) :
    Reads (feature.valueParser context) v.components (Exactly v.asWritten []) := by
  have hread : Reads (feature.valueParser context) (v.components ++ []) (Exactly v.asWritten []) :=
    feature.reads_valueParser haccepts h
  rwa [List.append_nil] at hread

/-- A value of a discrete feature is read. -/
theorem DiscreteDomain.parser_reads {domain : DiscreteDomain} {v : DiscreteValue}
    (h : v ∈ domain.values) : Reads domain.parser (v.component :: rest) (Exactly v rest) := by
  have hlower : Text.lowerCase v.css = v.css := by
    cases v <;> exact Text.lowerCase_of_isSmallAscii (by decide)
  by_cases hbinary : domain.isBinary = true
  · rcases (isBinary_iff h).mp hbinary with rfl | rfl
    · refine reads_expect_first rfl fun _ _ => ?_
      rw [if_pos hbinary]
      rfl
    · refine reads_expect_first rfl fun _ _ => ?_
      rw [if_pos hbinary]
      rfl
  · have hword : v.component = written (.ident v.css) := by
      rw [isBinary_iff h] at hbinary
      cases v with
      | zero | one => simp at hbinary
      | _ => rfl
    rw [hword]
    refine reads_expect_first rfl fun _ _ => ?_
    simp [hbinary, keyword?, identName?, hlower, find?_css h]

namespace Comparison

/-- The components start with a token that does not go on a sign. -/
def Follows (components : List Component) : Prop :=
  ∃ kind rest, components = written kind :: rest ∧ kind.isFiller = false ∧ kind ≠ .delim '='

/-- A sign is known by what it looks like. -/
theorem isSign_of_bare {c : Char} {component : Component} {kind : Token.Kind}
    (h : component.bare = (written kind).bare) :
    isSign c component = isSign c (written kind) := by
  obtain ⟨text, start, rfl⟩ := exists_leaf_of_bare h
  cases kind <;> rfl

/-- An equals sign behind another sign goes on it. -/
theorem reads_orEqual (inclusive : Bool) {components : List Component}
    (h : Follows components) :
    Reads (succeeds do
        let second ← nextOrSpace
        if !isSign '=' second then unexpected second)
      ((if inclusive then [written (.delim '=')] else []) ++ components)
      (Exactly inclusive components) := by
  obtain ⟨kind, rest, rfl, hfiller, hne⟩ := h
  cases inclusive with
  | true =>
      refine Reads.succeeds (a := ()) ?_
      refine (reads_nextOrSpace rfl).bind fun second after hsecond => ?_
      obtain ⟨hlook, rfl⟩ := hsecond
      rw [isSign_of_bare hlook]
      exact reads_pure () _
  | false =>
      have hcomment : (written kind).isComment = false := by
        cases kind <;> first | rfl | cases hfiller
      refine Refuses.succeeds
        ((reads_nextOrSpace hcomment).refuses_bind fun second after hsecond => ?_)
      have hsign : isSign '=' second = false := by
        rw [isSign_of_bare hsecond.1]
        cases kind with
        | delim d => exact decide_eq_false fun heq => hne (congrArg Token.Kind.delim heq)
        | _ => rfl
      rw [hsign]
      exact refuses_unexpected second after

/-- A sign between two sides of which the left one is smaller is read. -/
theorem reads_less (inclusive : Bool) {components : List Component} (h : Follows components) :
    Reads parser (Range.lessComponents inclusive ++ components)
      (Exactly (if inclusive then .atMost else .less) components) := by
  have hnext : (Range.lessComponents inclusive ++ components).dropWhile Component.isFiller =
      written (.delim '<') :: ((if inclusive then [written (.delim '=')] else []) ++ components) :=
    rfl
  refine (reads_next hnext).bind fun component after hfound => ?_
  obtain ⟨hlook, rfl⟩ := hfound
  simp only [isSign_of_bare hlook]
  refine (reads_orEqual inclusive h).andThen ?_
  cases inclusive <;> exact reads_pure _ _

/-- A greater-than sign is read. -/
theorem reads_greater {components : List Component} (h : Follows components) :
    Reads parser (written (.delim '>') :: components) (Exactly .greater components) := by
  have hnext : (written (.delim '>') :: components).dropWhile Component.isFiller =
      written (.delim '>') :: components := rfl
  refine (reads_next hnext).bind fun component after hfound => ?_
  obtain ⟨hlook, rfl⟩ := hfound
  simp only [isSign_of_bare hlook]
  exact (reads_orEqual false h).andThen (reads_pure _ _)

end Comparison

/-- A value starts with a number, which goes on no sign. -/
theorem RangeValue.follows (v : RangeValue) : Comparison.Follows v.components := by
  cases v <;> exact ⟨_, _, rfl, rfl, nofun⟩

/-- A value holds no name. -/
theorem RangeValue.identName?_components {v : RangeValue} :
    ∀ c ∈ v.components, identName? c = none := by
  cases v <;> simp [components, written, Token.written, identName?]

/-- A sign holds no name. -/
theorem Range.identName?_lessComponents {inclusive : Bool} :
    ∀ c ∈ lessComponents inclusive, identName? c = none := by
  cases inclusive <;> simp [lessComponents, written, Token.written, identName?]

namespace Feature

variable {context : Context}

/-- The names of ranged features start features, and bounds behind a beginning that says so. -/
theorem namedParser_ranged (context : Context) (location : Position) (feature : RangedFeature) :
    namedParser context location (Vocabulary.word feature) = rangedParser context feature ∧
      namedParser context location ("min-" ++ Vocabulary.word feature) =
        boundParser context feature .atLeast ∧
      namedParser context location ("max-" ++ Vocabulary.word feature) =
        boundParser context feature .atMost := by
  cases feature <;> exact ⟨rfl, rfl, rfl⟩

/-- The names of discrete features start features. -/
theorem namedParser_discrete (context : Context) (location : Position) (feature : DiscreteFeature) :
    namedParser context location (Vocabulary.word feature) = discreteParser feature := by
  cases feature <;> rfl

/-- A feature whose name stands in front is read by what reads it behind the name. -/
theorem reads_named {name : String} (hname : Text.lowerCase name = name) {f : Feature}
    (h : ∀ location, Reads (namedParser context location name) rest (Exactly f [])) :
    Reads (parser context) (written (.ident name) :: rest) (Exactly f []) := by
  refine reads_get_bind fun before _ => ?_
  have hnext : (written (.ident name) :: rest).dropWhile Component.isFiller =
      written (.ident name) :: rest := rfl
  refine (reads_next hnext).bind fun component after hfound => ?_
  obtain ⟨hlook, rfl⟩ := hfound
  rw [keyword?_of_bare hlook, hname]
  exact h before.location

/-- A ranged feature with one value is read behind its name. -/
theorem reads_rangedParser_colon {name : RangedFeature} {v : RangeValue}
    (haccepts : name.Accepts context.mode v) (h : v.IsWritable) :
    Reads (rangedParser context name) (written .colon :: v.components)
      (Exactly (.ranged name (.exactly v.asWritten)) []) := by
  have hvalue := name.reads_valueParser_nil haccepts h
  refine (reads_isExhausted _).andThen ?_
  exact (reads_colon _).succeeds.andThen (hvalue.andThen (reads_pure _ _))

/-- A ranged feature that is compared with a value is read behind its name. -/
theorem reads_rangedParser_sign {name : RangedFeature} (sign : List Component)
    {comparison : Comparison} {v : RangeValue} (haccepts : name.Accepts context.mode v)
    (h : v.IsWritable) (hfiller : (sign ++ v.components).all Component.isFiller = false)
    (hcolon : Refuses colon (sign ++ v.components))
    (hsign : Reads Comparison.parser (sign ++ v.components) (Exactly comparison v.components)) :
    Reads (rangedParser context name) (sign ++ v.components)
      (Exactly (.ranged name (comparison.range v.asWritten)) []) := by
  have hvalue := name.reads_valueParser_nil haccepts h
  refine (reads_isExhausted _).andThen ?_
  rw [hfiller]
  exact hcolon.succeeds.andThen (hsign.andThen (hvalue.andThen (reads_pure _ _)))

/-- A bound is read behind the name that makes it one. -/
theorem reads_boundParser {name : RangedFeature} (bound : Comparison) {v : RangeValue}
    (haccepts : name.Accepts context.mode v) (h : v.IsWritable) :
    Reads (boundParser context name bound) (written .colon :: v.components)
      (Exactly (.ranged name (bound.range v.asWritten)) []) := by
  have hvalue := name.reads_valueParser_nil haccepts h
  refine (reads_isExhausted _).andThen ?_
  exact (reads_colon _).andThen (hvalue.andThen (reads_pure _ _))

/-- A discrete feature is read behind its name. -/
theorem reads_discreteParser {name : DiscreteFeature} {v : DiscreteValue}
    (h : v ∈ name.domain.values) :
    Reads (discreteParser name) [written .colon, v.component]
      (Exactly (.discrete name (some v)) []) := by
  refine (reads_isExhausted _).andThen ?_
  exact (reads_colon _).andThen ((DiscreteDomain.parser_reads h).andThen (reads_pure _ _))

/-- The name behind components without names is found where the components look alike. -/
theorem find?_identName? {components front back : List Component} {name : String}
    (hlook : Component.bareOf components =
      Component.bareOf (front ++ written (.ident name) :: back))
    (hfront : ∀ c ∈ front, identName? c = none) :
    ∃ found, components.find? (fun c => (identName? c).isSome) = some found ∧
      found.bare = (written (.ident name)).bare := by
  have hbare (c : Component) : identName? c.bare = identName? c := by
    cases c with
    | leaf t =>
        obtain ⟨kind, text, start⟩ := t
        cases kind <;> rfl
    | group => rfl
  obtain ⟨before, after, rfl, hbefore, hafter⟩ := Component.bareOf_eq_append hlook
  have hnone : before.find? (fun c => (identName? c).isSome) = none := by
    refine List.find?_eq_none.mpr fun c hc => ?_
    have hmem := List.mem_map_of_mem (f := Component.bare) hc
    rw [← Component.bareOf_eq_map, hbefore, Component.bareOf_eq_map] at hmem
    obtain ⟨other, hother, heq⟩ := List.mem_map.mp hmem
    rw [← hbare c, ← heq, hbare, hfront other hother]
    decide
  cases after with
  | nil => cases hafter
  | cons found after =>
      rw [Component.bareOf, Component.bareOf, List.cons.injEq] at hafter
      refine ⟨found, ?_, hafter.1⟩
      obtain ⟨text, start, rfl⟩ := exists_leaf_of_bare hafter.1
      rw [List.find?_append, hnone]
      rfl

/-- A feature that starts with no name is read by what reads its value and the name behind it. -/
theorem reads_nameless {kind : Token.Kind} (hkind : kind.isFiller = false)
    (hname : identName? (written kind) = none) {f : Feature}
    (h : ∀ location, Reads (valueFirstParser context location) (written kind :: rest)
      (Exactly f [])) :
    Reads (parser context) (written kind :: rest) (Exactly f []) := by
  refine reads_get_bind fun before hbefore => ?_
  have hnext : ([] ++ written kind :: rest).dropWhile Component.isFiller = written kind :: rest :=
    Component.dropWhile_isFiller_append rfl hkind
  refine (reads_next hnext).bind fun component after hfound => ?_
  obtain ⟨text, start, rfl⟩ := exists_leaf_of_bare hfound.1
  have hkeyword : keyword? (.leaf ⟨kind, text, start⟩) = none := by
    cases kind with
    | ident => cases hname
    | _ => rfl
  rw [hkeyword]
  exact (reads_set hbefore).andThen (h before.location)

/-- A feature between two values is read behind the place where it starts. -/
theorem reads_valueFirstParser {name : RangedFeature} {lower upper : Bound}
    (hlower : name.Accepts context.mode lower.value)
    (hupper : name.Accepts context.mode upper.value)
    (hwritable : lower.value.IsWritable) (hwritable' : upper.value.IsWritable)
    (location : Position) :
    Reads (valueFirstParser context location)
      ((RangeForm.between lower upper).components (Vocabulary.word name))
      (Exactly (.ranged name ⟨some lower.asWritten, some upper.asWritten⟩) []) := by
  have hfollows : Comparison.Follows (written (.ident (Vocabulary.word name)) ::
      (Range.lessComponents upper.inclusive ++ upper.value.components)) := ⟨_, _, rfl, rfl, nofun⟩
  have hident : Reads ident (written (.ident (Vocabulary.word name)) ::
      (Range.lessComponents upper.inclusive ++ upper.value.components))
      (Exactly (Vocabulary.word name)
        (Range.lessComponents upper.inclusive ++ upper.value.components)) :=
    reads_expect_first rfl fun _ _ => rfl
  have hfiller : (Range.lessComponents upper.inclusive ++ upper.value.components).all
      Component.isFiller = false := rfl
  have hvalue := name.reads_valueParser_nil hupper hwritable'
  refine reads_get_bind fun c hc => ?_
  rw [RangeForm.components, ← List.append_assoc] at hc
  obtain ⟨found, hfind, hlook⟩ := find?_identName? hc fun c hc =>
    (List.mem_append.mp hc).elim (RangeValue.identName?_components c)
      (Range.identName?_lessComponents c)
  have hname : (keyword? found).bind (Vocabulary.find? RangedFeature) = some name := by
    rw [keyword?_of_bare hlook, name.lowerCase_word.1]
    exact Vocabulary.find?_word name
  simp only [hfind, hname]
  -- The lower bound, the name, and whether more follows.
  refine (name.reads_valueParser hlower hwritable).andThen ?_
  refine (Comparison.reads_less _ hfollows).andThen ?_
  refine hident.andThen ((reads_isExhausted _).andThen ?_)
  rw [hfiller]
  -- The upper bound, whose sign points the same way.
  refine (reads_location _).bind fun location after hafter => ?_
  subst hafter
  refine (Comparison.reads_less _ upper.value.follows).andThen ?_
  obtain ⟨lowerValue, lowerInclusive⟩ := lower
  obtain ⟨upperValue, upperInclusive⟩ := upper
  cases lowerInclusive <;> cases upperInclusive <;> exact hvalue.andThen (reads_pure _ _)

/-- A feature between two values is read. -/
theorem reads_between {name : RangedFeature} {lower upper : Bound}
    (hlower : name.Accepts context.mode lower.value)
    (hupper : name.Accepts context.mode upper.value)
    (hwritable : lower.value.IsWritable) (hwritable' : upper.value.IsWritable) :
    Reads (parser context) ((RangeForm.between lower upper).components (Vocabulary.word name))
      (Exactly (.ranged name ⟨some lower.asWritten, some upper.asWritten⟩) []) := by
  have hfirst := reads_valueFirstParser hlower hupper hwritable hwritable'
  obtain ⟨kind, tail, hcomponents, hkind, -⟩ := lower.value.follows
  have hname : identName? (written kind) = none :=
    RangeValue.identName?_components _ (by rw [hcomponents]; exact List.mem_cons_self ..)
  rw [RangeForm.components, hcomponents, List.cons_append] at hfirst ⊢
  exact reads_nameless hkind hname hfirst

/-- A ranged feature is read from the form of its range. -/
theorem reads_ranged {name : RangedFeature} {form : RangeForm}
    (haccepts : ∀ v ∈ form.values, name.Accepts context.mode v)
    (h : ∀ v ∈ form.values, v.IsWritable) :
    Reads (parser context) (form.components (Vocabulary.word name))
      (Exactly (.ranged name (form.asWritten name.zero)) []) := by
  obtain ⟨hname, hmin, hmax⟩ := name.lowerCase_word
  have hranged (location : Position) := namedParser_ranged context location name
  cases form with
  | bare =>
      refine reads_named hname fun location => ?_
      rw [(hranged location).1]
      exact (reads_isExhausted []).andThen (reads_pure _ _)
  | equal value =>
      refine reads_named hname fun location => ?_
      rw [(hranged location).1]
      exact reads_rangedParser_colon (haccepts value (List.mem_singleton_self _))
        (h value (List.mem_singleton_self _))
  | between lower upper =>
      have hmem : lower.value ∈ (RangeForm.between lower upper).values ∧
          upper.value ∈ (RangeForm.between lower upper).values := by simp [RangeForm.values]
      exact reads_between (haccepts _ hmem.1) (haccepts _ hmem.2) (h _ hmem.1) (h _ hmem.2)
  | atLeast lower =>
      have hlower := haccepts lower.value (List.mem_singleton_self _)
      have hwritable := h lower.value (List.mem_singleton_self _)
      obtain ⟨value, inclusive⟩ := lower
      cases inclusive with
      | true =>
          refine reads_named hmin fun location => ?_
          rw [(hranged location).2.1]
          exact reads_boundParser .atLeast hlower hwritable
      | false =>
          refine reads_named hname fun location => ?_
          rw [(hranged location).1]
          exact reads_rangedParser_sign [written (.delim '>')] hlower hwritable rfl
            (refuses_expect rfl fun _ _ => rfl)
            (Comparison.reads_greater value.follows)
  | atMost upper =>
      have hupper := haccepts upper.value (List.mem_singleton_self _)
      have hwritable := h upper.value (List.mem_singleton_self _)
      obtain ⟨value, inclusive⟩ := upper
      cases inclusive with
      | true =>
          refine reads_named hmax fun location => ?_
          rw [(hranged location).2.2]
          exact reads_boundParser .atMost hupper hwritable
      | false =>
          refine reads_named hname fun location => ?_
          rw [(hranged location).1]
          exact reads_rangedParser_sign [written (.delim '<')] hupper hwritable rfl
            (refuses_expect rfl fun _ _ => rfl)
            (Comparison.reads_less false value.follows)

/-- A feature that can be asked for is read. -/
theorem parser_reads {f : Feature} (hcanonical : f.Canonical context.mode)
    (h : ∀ v ∈ f.values, v.IsWritable) :
    Reads (parser context) f.components (Exactly f.asWritten []) := by
  cases f with
  | ranged name range =>
      exact reads_ranged hcanonical.accepts fun v hv => h v (range.mem_values_of_form hv)
  | discrete name value =>
      cases value with
      | none =>
          refine reads_named name.lowerCase_word fun location => ?_
          rw [namedParser_discrete]
          exact (reads_isExhausted []).andThen (reads_pure _ _)
      | some value =>
          refine reads_named name.lowerCase_word fun location => ?_
          rw [namedParser_discrete]
          exact reads_discreteParser (hcanonical value rfl)

end Feature

namespace Expression

variable {context : Context} {e : Expression}

/-- A feature in brackets is read. -/
theorem parser_reads (hcanonical : e.feature.Canonical context.mode)
    (h : ∀ v ∈ e.feature.values, v.IsWritable) (hlead : lead.all Component.isFiller) :
    Reads (parser context) (lead ++ e.component :: rest) (Exactly e.asWritten rest) := by
  refine (reads_block .round e.feature.components hlead).bind fun found after hfound => ?_
  obtain ⟨hlook, rfl⟩ := hfound
  have hfeature : ReadsAll (Feature.parser context) e.feature.components e.feature.asWritten :=
    ⟨[], rfl, Feature.parser_reads hcanonical h⟩
  exact (reads_inside hlook hfeature).andThen (reads_pure _ after)

/-- A feature in brackets has no word. -/
theorem keyword?_of_bare {component : Component} (h : component.bare = e.component.bare) :
    keyword? component = none := by
  cases component with
  | leaf t => cases h
  | group => rfl

end Expression

namespace MediaQuery

variable {context : Context} {q : MediaQuery}

/-- Features behind `and` are read up to the end. -/
theorem reads_expressions {expressions : List Expression}
    (hcanonical : ∀ e ∈ expressions, e.feature.Canonical context.mode)
    (h : ∀ e ∈ expressions, ∀ v ∈ e.feature.values, v.IsWritable) :
    Reads (many do identMatching "and"; Expression.parser context)
      (expressions.flatMap fun e => andComponents ++ [e.component])
      (Exactly (expressions.map Expression.asWritten) []) := by
  refine reads_many_flatMap (fun e he rest => ?_) fun e _ => rfl
  have hword : Text.lowerCase "and" = "and" := Text.lowerCase_of_isSmallAscii (by decide)
  have hand : Reads (identMatching "and")
      ([space] ++ written (.ident "and") :: space :: e.component :: rest)
      (Exactly () (space :: e.component :: rest)) := reads_identMatching hword rfl
  have he : Reads (Expression.parser context) ([space] ++ e.component :: rest)
      (Exactly e.asWritten rest) := Expression.parser_reads (hcanonical e he) (h e he) rfl
  exact hand.andThen he

/-- A media type is read. -/
theorem reads_mediaTypeParser {name : String} (hlower : Text.lowerCase name = name)
    (hreserved : name ∉ reserved) (hlead : lead.all Component.isFiller) :
    Reads mediaTypeParser (lead ++ written (.ident name) :: rest) (Exactly name rest) := by
  refine reads_expect_written hlead rfl fun _ _ => ?_
  simp [keyword?, identName?, hlower, hreserved]

/-- A media type is no qualifier. -/
theorem refuses_qualifier {name : String} (hlower : Text.lowerCase name = name)
    (hreserved : name ∉ reserved) (hlead : lead.all Component.isFiller) :
    Refuses (member MediaQualifier) (lead ++ written (.ident name) :: rest) := by
  refine refuses_expect_written hlead rfl fun _ _ => ?_
  rw [keyword?, identName?, Option.map_some, hlower, Option.bind_some]
  refine Option.eq_none_iff_forall_ne_some.mpr fun word hfind => hreserved ?_
  rw [← Vocabulary.word_of_find? hfind]
  cases word <;> decide

/-- A feature in brackets is neither a qualifier nor a media type. -/
theorem refuses_expression (e : Expression) (hlead : lead.all Component.isFiller) :
    Refuses (member MediaQualifier) (lead ++ e.component :: rest) ∧
      Refuses mediaTypeParser (lead ++ e.component :: rest) := by
  have hnext : (lead ++ e.component :: rest).dropWhile Component.isFiller = e.component :: rest :=
    Component.dropWhile_isFiller_append hlead rfl
  refine ⟨refuses_expect_of_bare hnext fun found hlook => ?_,
    refuses_expect_of_bare hnext fun found hlook => ?_⟩
  · rw [Expression.keyword?_of_bare hlook]
    rfl
  · rw [Expression.keyword?_of_bare hlook]
    rfl

/-- A qualifier in front of a media type is read, if there is one. -/
theorem reads_qualifier (qualifier : Option MediaQualifier) {name : String}
    (hlower : Text.lowerCase name = name) (hreserved : name ∉ reserved)
    (hlead : lead.all Component.isFiller) :
    Reads (attempt (member MediaQualifier))
      (lead ++ (qualifierComponents qualifier ++ written (.ident name) :: rest)) fun found after =>
        found = qualifier ∧ ∃ lead : List Component, lead.all Component.isFiller ∧
          after = lead ++ written (.ident name) :: rest := by
  cases qualifier with
  | none =>
      refine (refuses_qualifier hlower hreserved hlead).attempt.mono ?_
      rintro _ _ ⟨rfl, rfl⟩
      exact ⟨rfl, lead, hlead, rfl⟩
  | some word =>
      have hword : Text.lowerCase (Vocabulary.word word) = Vocabulary.word word := by
        cases word <;> exact Text.lowerCase_of_isSmallAscii (by decide)
      refine (reads_member hword hlead).attempt.mono ?_
      rintro _ _ ⟨rfl, rfl⟩
      exact ⟨rfl, [space], rfl, rfl⟩

/-- A media query is read. -/
theorem parser_reads (hcanonical : q.Canonical context.mode) (h : q.IsSpelled)
    (hlead : lead.all Component.isFiller) :
    Reads (parser context) (lead ++ q.components) (Exactly q.asWritten []) := by
  have hwritable : ∀ e ∈ q.expressions, ∀ v ∈ e.feature.values, v.IsWritable :=
    fun e he => (h.expressions e he).writable
  have hfeature := hcanonical.expressions
  obtain ⟨qualifier, mediaType, expressions⟩ := q
  cases mediaType with
  | some name =>
      obtain ⟨-, -, hlower, hreserved⟩ := h.mediaType name rfl
      have hparts : (MediaQuery.mk qualifier (some name) expressions).partComponents =
          written (.ident name) :: expressions.flatMap fun e => andComponents ++ [e.component] := by
        simp [partComponents, parts, List.flatMap_map]
      rw [components, hparts]
      refine (reads_qualifier qualifier hlower hreserved hlead).bind fun found after hfound => ?_
      obtain ⟨rfl, lead, hlead, rfl⟩ := hfound
      refine (reads_mediaTypeParser hlower hreserved hlead).attempt.andThen ?_
      exact (reads_expressions hfeature hwritable).andThen (reads_pure _ _)
  | none =>
      have hqualifier : qualifier = none := by
        by_contra hne
        cases h.qualified (Option.isSome_iff_ne_none.mpr hne)
      subst hqualifier
      cases expressions with
      | nil => exact absurd rfl (h.nonempty rfl)
      | cons e others =>
          have hparts : (MediaQuery.mk none none (e :: others)).partComponents =
              e.component :: others.flatMap fun e => andComponents ++ [e.component] := by
            simp [partComponents, parts, List.flatMap_map]
          have hothers := reads_expressions
            (fun other hother => hfeature other (List.mem_cons_of_mem e hother))
            fun other hother => hwritable other (List.mem_cons_of_mem e hother)
          rw [components, hparts]
          obtain ⟨hqualifier, htype⟩ := refuses_expression e hlead
          refine hqualifier.attempt.andThen (htype.attempt.andThen ?_)
          refine (Expression.parser_reads (hfeature e (List.mem_cons_self ..))
            (hwritable e (List.mem_cons_self ..)) hlead).andThen ?_
          exact hothers.andThen (reads_pure _ _)

/-- A part of a query is a component that neither is a filler nor ends a segment. -/
theorem visible_of_mem_parts {part : Component × String} (h : part ∈ q.parts) :
    part.1.isFiller = false ∧ part.1.delimiter? = none := by
  rcases List.mem_append.mp h with h | h
  · obtain ⟨name, _, rfl⟩ := List.mem_map.mp h
    exact ⟨rfl, rfl⟩
  · obtain ⟨e, _, rfl⟩ := List.mem_map.mp h
    exact ⟨rfl, rfl⟩

/-- The components of a query end no segment. -/
theorem delimiter?_components (q : MediaQuery) : ∀ c ∈ q.components, c.delimiter? = none := by
  have hand : ∀ c ∈ andComponents, c.delimiter? = none := by
    simp only [andComponents, List.mem_cons, List.not_mem_nil, or_false]
    rintro c (rfl | rfl | rfl) <;> rfl
  have hparts : ∀ part ∈ q.parts, part.1.delimiter? = none :=
    fun part hpart => (visible_of_mem_parts hpart).2
  intro c hc
  rcases List.mem_append.mp hc with hc | hc
  · cases hqualifier : q.qualifier with
    | none => rw [hqualifier] at hc; cases hc
    | some word =>
        rw [hqualifier] at hc
        simp only [qualifierComponents, List.mem_cons, List.not_mem_nil, or_false] at hc
        rcases hc with rfl | rfl <;> rfl
  · unfold partComponents at hc
    cases hq : q.parts with
    | nil => rw [hq] at hc; cases hc
    | cons first others =>
        rw [hq] at hc hparts
        rcases List.mem_cons.mp hc with rfl | hc
        · exact hparts first (List.mem_cons_self ..)
        · obtain ⟨part, hpart, hc⟩ := List.mem_flatMap.mp hc
          rcases List.mem_append.mp hc with hc | hc
          · exact hand c hc
          · rw [List.mem_singleton.mp hc]
            exact hparts part (List.mem_cons_of_mem first hpart)

/-- The components of a query are more than fillers. -/
theorem all_isFiller_components (h : q.IsSpelled) :
    q.components.all Component.isFiller = false := by
  rw [components, List.all_append]
  have hpart : q.partComponents.all Component.isFiller = false := by
    unfold partComponents
    cases hq : q.parts with
    | nil => exact absurd hq (parts_ne_nil h)
    | cons first others =>
        have hfirst : first ∈ q.parts := hq ▸ List.mem_cons_self ..
        rw [List.all_cons, (visible_of_mem_parts hfirst).1, Bool.false_and]
  rw [hpart, Bool.and_false]

end MediaQuery

namespace MediaList

variable {context : Context} {l : MediaList}

/-- A media list behind fillers is read. Fillers are left if there is no query. -/
theorem parser_reads_behind (hcanonical : l.Canonical context.mode)
    (h : ∀ q ∈ l.queries, q.IsSpelled) (hlead : lead.all Component.isFiller) :
    Reads (parser context) (lead ++ l.components)
      (Exactly l.asWritten (if l.queries.isEmpty then lead else [])) := by
  obtain ⟨queries⟩ := l
  refine (reads_isExhausted _).andThen ?_
  cases queries with
  | nil =>
      have hnothing : (lead ++ (MediaList.mk []).components).all Component.isFiller = true := by
        rw [List.all_append, hlead]
        rfl
      rw [hnothing, show (MediaList.mk []).components = [] from rfl, List.append_nil]
      exact reads_pure _ _
  | cons first others =>
      have hqueries : Reads (commaSeparated (MediaQuery.parser context))
          (lead ++ (MediaList.mk (first :: others)).components)
          (Exactly ((first :: others).map MediaQuery.asWritten) []) :=
        reads_commaComponents_behind (List.cons_ne_nil _ _)
          (fun q hq lead hlead => ⟨[], rfl,
            MediaQuery.parser_reads (hcanonical q hq) (h q hq) hlead⟩)
          (fun q _ => q.delimiter?_components) hlead
      have hfiller : (lead ++ (MediaList.mk (first :: others)).components).all Component.isFiller =
          false := by
        rw [List.all_append, components, Component.commaComponents, List.all_append,
          MediaQuery.all_isFiller_components (h first (List.mem_cons_self ..)), Bool.false_and,
          Bool.and_false]
      rw [hfiller]
      exact hqueries.andThen (reads_pure _ _)

/-- A media list is read. -/
theorem parser_reads (hcanonical : l.Canonical context.mode) (h : ∀ q ∈ l.queries, q.IsSpelled) :
    Reads (parser context) l.components (Exactly l.asWritten []) := by
  have hnothing : ([] : List Component).all Component.isFiller := rfl
  have hread := parser_reads_behind hcanonical h hnothing
  rwa [ite_self] at hread

end MediaList

end Css
