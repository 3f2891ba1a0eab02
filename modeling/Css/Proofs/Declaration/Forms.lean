import Css.Declaration.Grammar
import Css.Proofs.Parser.Kept
import Mathlib

/-!
# What a declaration is made of

`Declaration.Parts` says how components are a name, a colon, a value and a mark of importance, and
`Declaration.ofParts` what they say. The grammar reads a declaration where its parts stand and are
allowed, and reads what they say, `Declaration.parser_eq_ok_iff`.
-/

namespace Css

open Css.Parser
open Component (significant significant_append significant_eq_nil_iff significant_eq_cons_iff
  errorTokenOf? closedTextOf)

open Component (keptText)

namespace PropertyValue

/-- The keyword for every property that components are, if they are one. -/
def wide? (components : List Component) : Option WideKeyword :=
  match significant components with
  | [component] => (keyword? component).bind (Vocabulary.find? WideKeyword)
  | _ => none

/-- The value that components are: a keyword if they are one, and their text otherwise. -/
def ofComponents (components : List Component) : PropertyValue :=
  (wide? components).elim (.specified (keptText components)) .wide

/-- A keyword for every property is read where nothing else stands. -/
theorem entirely_member_eq_ok_iff {c after : Cursor} {keyword : WideKeyword} :
    entirely (member WideKeyword) c = .ok keyword after ↔
      wide? c.rest = some keyword ∧ after = ⟨[], c.stop⟩ := by
  refine entirely_expect_eq_ok_iff.trans ?_
  unfold wide?
  split
  · rename_i component hsignificant
    simp [hsignificant]
  · rename_i hno
    constructor
    · rintro ⟨component, hsignificant, -⟩
      exact absurd hsignificant (hno component)
    · rintro ⟨⟨⟩, -⟩

/-- A value that is kept as it is written may only be empty if that is allowed. -/
theorem specifiedValue_eq_ok_iff {allowEmpty : Bool} {c after : Cursor} {text : String} :
    specifiedValue allowEmpty c = .ok text after ↔
      (c.isExhausted = true → allowEmpty = true) ∧ noErrorToken c = .ok () after ∧
        text = keptText c.rest := by
  rw [← captured_noErrorToken_eq_ok_iff]
  unfold specifiedValue
  constructor
  · intro h
    obtain ⟨exhausted, mid, hlook, h⟩ := bind_eq_ok.mp h
    cases hlook
    split at h
    · cases h
    · rename_i hcondition
      exact ⟨fun hend => by simpa [hend] using hcondition, h⟩
  · rintro ⟨hallowed, hread⟩
    refine bind_eq_ok.mpr ⟨c.isExhausted, c, rfl, ?_⟩
    rw [if_neg ?_]
    · exact hread
    · cases hend : c.isExhausted with
      | true => simp [hallowed hend]
      | false => simp

/-- The parser reads a keyword for every property where nothing else stands, and text elsewhere. -/
theorem parser_eq_ok_iff_wide {allowEmpty : Bool} {c after : Cursor} {value : PropertyValue} :
    parser allowEmpty c = .ok value after ↔
      (∃ keyword, wide? c.rest = some keyword ∧ value = .wide keyword ∧ after = ⟨[], c.stop⟩) ∨
        wide? c.rest = none ∧ ∃ text, specifiedValue allowEmpty c = .ok text after ∧
          value = .specified text := by
  unfold parser
  rw [bind_eq_ok]
  constructor
  · rintro ⟨found, first, hattempt, hrun⟩
    rcases attempt_eq_ok_iff.mp hattempt with ⟨keyword, rfl, hmember⟩ | ⟨rfl, rfl, e, last, herror⟩
    · cases hrun
      obtain ⟨hwide, rfl⟩ := entirely_member_eq_ok_iff.mp hmember
      exact .inl ⟨keyword, hwide, rfl, rfl⟩
    · have hwide : wide? first.rest = none := by
        by_contra hsome
        obtain ⟨keyword, hkeyword⟩ := Option.ne_none_iff_exists'.mp hsome
        cases herror.symm.trans (entirely_member_eq_ok_iff.mpr ⟨hkeyword, rfl⟩)
      obtain ⟨text, last, hspecified, hpure⟩ := bind_eq_ok.mp hrun
      cases hpure
      exact .inr ⟨hwide, text, hspecified, rfl⟩
  · rintro (⟨keyword, hwide, rfl, rfl⟩ | ⟨hwide, text, hspecified, rfl⟩)
    · have hmember := entirely_member_eq_ok_iff.mpr ⟨hwide, rfl⟩
      exact ⟨some keyword, _, attempt_eq_ok_iff.mpr (.inl ⟨keyword, rfl, hmember⟩), rfl⟩
    · have herror : ∃ e last, entirely (member WideKeyword) c = .error e last := by
        cases hmember : entirely (member WideKeyword) c with
        | ok keyword last => cases hwide.symm.trans (entirely_member_eq_ok_iff.mp hmember).1
        | error e last => exact ⟨e, last, rfl⟩
      exact ⟨none, c, attempt_eq_ok_iff.mpr (.inr ⟨rfl, rfl, herror⟩),
        bind_eq_ok.mpr ⟨text, after, hspecified, rfl⟩⟩

/-- Text is kept of all components without error tokens. They may only be fillers if an empty value
is allowed. -/
theorem entirely_specifiedValue_eq_ok_iff {allowEmpty : Bool} {c after : Cursor} {text : String} :
    entirely (specifiedValue allowEmpty) c = .ok text after ↔
      errorTokenOf? c.rest = none ∧ (significant c.rest = [] → allowEmpty = true) ∧
        text = keptText c.rest ∧ after = ⟨[], c.stop⟩ := by
  have hread : entirely noErrorToken c = .ok () after ↔
      errorTokenOf? c.rest = none ∧ after = ⟨[], c.stop⟩ :=
    readsExactly_noErrorToken.entirely_eq_ok_iff fun _ h => h
  rw [entirely_eq_ok_iff] at hread ⊢
  simp only [specifiedValue_eq_ok_iff, ← c.isExhausted_iff_significant]
  constructor
  · rintro ⟨mid, ⟨hallowed, hmid, rfl⟩, hend⟩
    obtain ⟨hclean, hafter⟩ := hread.mp ⟨mid, hmid, hend⟩
    exact ⟨hclean, hallowed, rfl, hafter⟩
  · rintro ⟨hclean, hallowed, rfl, hafter⟩
    obtain ⟨mid, hmid, hend⟩ := hread.mpr ⟨hclean, hafter⟩
    exact ⟨mid, ⟨hallowed, hmid, rfl⟩, hend⟩

/-- A value is read from components without error tokens. They may only be fillers if an empty value
is allowed. -/
theorem entirely_parser_eq_ok_iff {allowEmpty : Bool} {c after : Cursor} {value : PropertyValue} :
    entirely (parser allowEmpty) c = .ok value after ↔
      errorTokenOf? c.rest = none ∧ (significant c.rest = [] → allowEmpty = true) ∧
        value = ofComponents c.rest ∧ after = ⟨[], c.stop⟩ := by
  rw [entirely_eq_ok_iff]
  simp only [parser_eq_ok_iff_wide, ofComponents]
  cases hwide : wide? c.rest with
  | some keyword =>
      have hclean := clean_member.errorTokenOf?_of_entirely
        (entirely_member_eq_ok_iff.mpr ⟨hwide, rfl⟩)
      have hsome : significant c.rest ≠ [] := by
        intro hnone
        rw [wide?, hnone] at hwide
        cases hwide
      constructor
      · rintro ⟨mid, ⟨_, ⟨⟩, rfl, rfl⟩ | ⟨⟨⟩, -⟩, -, rfl⟩
        exact ⟨hclean, fun hnone => absurd hnone hsome, rfl, rfl⟩
      · rintro ⟨-, -, rfl, rfl⟩
        exact ⟨_, .inl ⟨keyword, rfl, rfl, rfl⟩, rfl, rfl⟩
  | none =>
      have hspecified {text : String} := @entirely_specifiedValue_eq_ok_iff allowEmpty c after text
      simp only [entirely_eq_ok_iff] at hspecified
      constructor
      · rintro ⟨mid, ⟨_, ⟨⟩, -⟩ | ⟨-, text, hread, rfl⟩, hend⟩
        obtain ⟨hclean, hallowed, rfl, hafter⟩ := hspecified.mp ⟨mid, hread, hend⟩
        exact ⟨hclean, hallowed, rfl, hafter⟩
      · rintro ⟨hclean, hallowed, rfl, hafter⟩
        obtain ⟨mid, hread, hend⟩ := hspecified.mpr ⟨hclean, hallowed, rfl, hafter⟩
        exact ⟨mid, .inr ⟨rfl, _, hread, rfl⟩, hend⟩

end PropertyValue

namespace Declaration

/-- What stands behind a value: nothing, or the mark of importance. -/
inductive Mark : Bool → List Component → Prop where
  | absent : Mark false []
  | present {text : List Char} {start : Position} {back : List Component}
      (hword : Shows keyword? "important" back) :
      Mark true (.leaf ⟨.delim '!', text, start⟩ :: back)

/-- A value and what stands behind it: the value ends in front of the first exclamation mark. -/
inductive ValueParts (value : List Component) (important : Bool) : List Component → Prop where
  | intro {tail : List Component}
      (hvalue : ∀ component ∈ value, isDelimiter ['!'] component = false)
      (hmark : Mark important tail) : ValueParts value important (value ++ tail)

/-- The components are a name, a colon, a value, and a mark of importance if the declaration is
important. -/
inductive Parts (name : String) (value : List Component) (important : Bool) :
    List Component → Prop where
  | intro {front rest : List Component} {text : List Char} {start : Position}
      (hname : Shows identName? name front) (hrest : ValueParts value important rest) :
      Parts name value important (front ++ .leaf ⟨.colon, text, start⟩ :: rest)

/-- The parts of a declaration are allowed: the value holds no error token and is only empty if the
property is a custom one, and the declaration is only important outside of keyframes. -/
structure Allowed (context : Context) (name : String) (value : List Component) (important : Bool) :
    Prop where
  clean : errorTokenOf? value = none
  custom_of_empty : significant value = [] → isCustomName (nameParts name).2 = true
  ne_keyframe : important = true → context.ruleKind ≠ some .keyframe

/-- The declaration that its parts make up. -/
def ofParts (name : String) (value : List Component) (important : Bool) : Declaration :=
  ⟨(nameParts name).1, (nameParts name).2, .ofComponents value, important⟩

/-- In front of a mark stands nothing else. -/
theorem Mark.isDelimiter_head? {important : Bool} {tail : List Component}
    (h : Mark important tail) :
    ∀ component ∈ tail.head?, isDelimiter ['!'] component = true := by
  cases h with
  | absent => simp
  | present => rintro component ⟨⟩; rfl

/-- The word of importance is read behind its sign. -/
theorem markParser_eq_ok_iff {tail : List Component}
    (hfirst : ∀ component ∈ tail.head?, isDelimiter ['!'] component = true) {stop : Position}
    {after : Cursor} :
    (do delim '!'; identMatching "important") ⟨tail, stop⟩ = .ok () after ↔
      ∃ text start back word rest, tail = .leaf ⟨.delim '!', text, start⟩ :: back ∧
        back.dropWhile Component.isFiller = word :: rest ∧ keyword? word = some "important" ∧
        after = ⟨rest, stop⟩ := by
  rw [bind_eq_ok]
  simp only [delim, identMatching, expect_eq_ok_iff]
  constructor
  · rintro ⟨u, mid, ⟨mark, back, hmark, hsign, rfl⟩, word, rest, hword, hkeyword, rfl⟩
    obtain rfl : tail = mark :: back := by
      cases tail with
      | nil => cases hmark
      | cons first others =>
          rwa [List.dropWhile_cons_of_neg (by
            simp [isFiller_of_isDelimiter (hfirst first rfl)])] at hmark
    split at hsign
    · split at hsign
      · rename_i hsame
        subst hsame
        exact ⟨_, _, back, word, rest, rfl, hword, by simpa using hkeyword, rfl⟩
      · cases hsign
    · cases hsign
  · rintro ⟨text, start, back, word, rest, rfl, hword, hkeyword, rfl⟩
    exact ⟨(), ⟨back, stop⟩, ⟨_, back, rfl, rfl, rfl⟩, word, rest, hword, if_pos hkeyword, rfl⟩

/-- The mark of importance is read where it stands and nothing else does. -/
theorem importance_eq_ok_iff {tail : List Component}
    (hfirst : ∀ component ∈ tail.head?, isDelimiter ['!'] component = true) {stop : Position}
    {important : Bool} {after : Cursor} :
    (∃ mid, importance ⟨tail, stop⟩ = .ok important mid ∧ atEnd mid = .ok () after) ↔
      Mark important tail ∧ after = ⟨[], stop⟩ := by
  have hmark {mid : Cursor} := @markParser_eq_ok_iff tail hfirst stop mid
  constructor
  · rintro ⟨mid, himportance, hatEnd⟩
    obtain ⟨hend, rfl⟩ := atEnd_eq_ok_iff.mp hatEnd
    obtain ⟨found, mid', hattempt, hpure⟩ := bind_eq_ok.mp himportance
    cases hpure
    rcases attempt_eq_ok_iff.mp hattempt with ⟨u, rfl, hread⟩ | ⟨rfl, rfl, -⟩
    · obtain ⟨text, start, back, word, rest, rfl, hword, hkeyword, rfl⟩ := hmark.mp hread
      have hback := significant_eq_cons_iff.mpr
        ⟨rest, hword, (Cursor.isExhausted_iff_significant _).mp hend⟩
      exact ⟨.present ⟨word, hback, hkeyword⟩, rfl⟩
    · -- a sign that is left is no filler
      cases tail with
      | nil => exact ⟨.absent, rfl⟩
      | cons first others =>
          have hfiller := isFiller_of_isDelimiter (hfirst first rfl)
          simp [Cursor.isExhausted, hfiller] at hend
  · rintro ⟨hmarked, rfl⟩
    cases hmarked with
    | absent => exact ⟨⟨[], stop⟩, rfl, rfl⟩
    | @present text start back hword =>
        obtain ⟨word, hback, hkeyword⟩ := hword
        obtain ⟨rest, hdrop, hrest⟩ := significant_eq_cons_iff.mp hback
        have hread := hmark.mpr ⟨text, start, back, word, rest, rfl, hdrop, hkeyword, rfl⟩
        refine ⟨⟨rest, stop⟩, bind_eq_ok.mpr ⟨some (), _,
          attempt_eq_ok_iff.mpr (.inl ⟨(), rfl, hread⟩), rfl⟩, ?_⟩
        exact atEnd_eq_ok_iff.mpr ⟨(Cursor.isExhausted_iff_significant _).mpr hrest, rfl⟩

/-- Behind a colon, a value is read up to the first exclamation mark, and a mark that is allowed up
to the end. -/
theorem afterColon_eq_ok_iff_read {context : Context} {name : String} {c after : Cursor}
    {d : Declaration} :
    afterColon context name c = .ok d after ↔ ∃ value mid important last,
      untilBefore ['!'] (PropertyValue.parser (isCustomName (nameParts name).2)) c =
          .ok value mid ∧
        importance mid = .ok important last ∧ atEnd last = .ok () after ∧
        (important = true → context.ruleKind ≠ some .keyframe) ∧
        d = ⟨(nameParts name).1, (nameParts name).2, value, important⟩ := by
  unfold afterColon
  rw [bind_eq_ok]
  constructor
  · rintro ⟨value, mid, hvalue, hrun⟩
    obtain ⟨location, mid, hlook, hrun⟩ := bind_eq_ok.mp hrun
    cases hlook
    obtain ⟨important, last, himportance, hrun⟩ := bind_eq_ok.mp hrun
    split at hrun
    · cases hrun
    · rename_i hcondition
      obtain ⟨u, last, hatEnd, hpure⟩ := bind_eq_ok.mp hrun
      cases hpure
      refine ⟨value, mid, important, _, hvalue, himportance, hatEnd, fun himportant => ?_, rfl⟩
      simpa [himportant, Context.allowsImportance] using hcondition
  · rintro ⟨value, mid, important, last, hvalue, himportance, hatEnd, hallowed, rfl⟩
    refine ⟨value, mid, hvalue, bind_eq_ok.mpr ⟨_, mid, rfl, bind_eq_ok.mpr
      ⟨important, last, himportance, ?_⟩⟩⟩
    rw [if_neg ?_]
    · exact bind_eq_ok.mpr ⟨(), after, hatEnd, rfl⟩
    · cases important with
      | true => simp [Context.allowsImportance, hallowed rfl]
      | false => simp

/-- The parts that stand behind a colon, as far as they are allowed, are what is read there. -/
theorem afterColon_eq_ok_iff {context : Context} {name : String} {c after : Cursor}
    {d : Declaration} :
    afterColon context name c = .ok d after ↔
      (∃ value important, ValueParts value important c.rest ∧
        Allowed context name value important ∧ d = ofParts name value important) ∧
      after = ⟨[], c.stop⟩ := by
  rw [afterColon_eq_ok_iff_read]
  constructor
  · rintro ⟨value, mid, important, last, hvalue, himportance, hatEnd, hkeyframe, rfl⟩
    obtain ⟨hmid, _, hread⟩ := untilBefore_eq_ok.mp hvalue
    obtain ⟨hclean, hallowed, rfl, -⟩ := PropertyValue.entirely_parser_eq_ok_iff.mp hread
    -- the value is what was read up to the mark, and the mark is all that is left
    have hleads : c.Leads mid := hmid ▸ c.leads_skip _
    have hinside : ∀ component ∈ c.read mid, isDelimiter ['!'] component = false := by
      rw [hmid, Cursor.read_skip]
      intro component hmem
      simpa using List.mem_takeWhile_imp hmem
    have hfirst : ∀ component ∈ mid.rest.head?, isDelimiter ['!'] component = true := by
      rw [hmid]
      exact c.isDelimiter_head?_skip
    obtain ⟨hmark, rfl⟩ := (importance_eq_ok_iff hfirst).mp ⟨last, himportance, hatEnd⟩
    have hparts : ValueParts (c.read mid) important c.rest := by
      rw [← hleads.read_append]
      exact .intro hinside hmark
    exact ⟨⟨c.read mid, important, hparts, ⟨hclean, hallowed, hkeyframe⟩, rfl⟩, by rw [hleads.stop]⟩
  · rintro ⟨⟨value, important, hparts, hallowed, rfl⟩, rfl⟩
    obtain ⟨components, stop⟩ := c
    obtain ⟨hinside, hmark⟩ := hparts
    rename_i tail
    obtain ⟨last, himportance, hatEnd⟩ : ∃ last, importance ⟨tail, stop⟩ = .ok important last ∧
        atEnd last = .ok () ⟨[], stop⟩ :=
      (importance_eq_ok_iff hmark.isDelimiter_head?).mpr ⟨hmark, rfl⟩
    have hread (place : Position) :
        entirely (PropertyValue.parser (isCustomName (nameParts name).2)) ⟨value, place⟩ =
          .ok (.ofComponents value) ⟨[], place⟩ :=
      PropertyValue.entirely_parser_eq_ok_iff.mpr
        ⟨hallowed.clean, hallowed.custom_of_empty, rfl, rfl⟩
    exact ⟨_, _, important, last,
      untilBefore_append stop hinside hmark.isDelimiter_head? (hread _), himportance, hatEnd,
      hallowed.ne_keyframe, rfl⟩

/-- A colon, and a value and what stands behind it. Fillers may stand in front of the colon. -/
inductive PartsBehind (value : List Component) (important : Bool) : List Component → Prop where
  | intro {gap rest : List Component} {text : List Char} {start : Position}
      (hgap : significant gap = []) (hrest : ValueParts value important rest) :
      PartsBehind value important (gap ++ .leaf ⟨.colon, text, start⟩ :: rest)

/-- The parts of a declaration are a name and what stands behind it. -/
theorem parts_iff {name : String} {value components : List Component} {important : Bool} :
    Parts name value important components ↔ ∃ gap component rest,
      components = gap ++ component :: rest ∧ significant gap = [] ∧
        identName? component = some name ∧ PartsBehind value important rest := by
  constructor
  · rintro ⟨⟨component, hfront, hname⟩, hrest⟩
    rename_i front rest text start
    obtain ⟨gap, hdrop, hgap⟩ := significant_eq_cons_iff.mp hfront
    refine ⟨front.takeWhile Component.isFiller, component,
      gap ++ .leaf ⟨.colon, text, start⟩ :: rest,
      ?_, Component.significant_takeWhile front, hname, .intro hgap hrest⟩
    rw [← List.cons_append, ← List.append_assoc, ← hdrop, List.takeWhile_append_dropWhile]
  · rintro ⟨front, component, _, rfl, hfront, hname, hgap, hrest⟩
    rename_i gap rest text start
    have hfiller := Component.isFiller_of_identName? hname
    have hshows : Shows identName? name (front ++ component :: gap) :=
      ⟨component, by rw [significant_append, hfront, Component.significant_cons hfiller, hgap]; rfl,
        hname⟩
    have hparts : Parts name value important
        ((front ++ component :: gap) ++ .leaf ⟨.colon, text, start⟩ :: rest) := .intro hshows hrest
    rwa [List.append_assoc, List.cons_append] at hparts

/-- The mark of a declaration is determined. -/
theorem Mark.unique {important important' : Bool} {tail : List Component} (h : Mark important tail)
    (h' : Mark important' tail) : important = important' := by
  cases h with
  | absent => cases h'; rfl
  | present => cases h'; rfl

/-- A value reaches up to the first exclamation mark. -/
theorem ValueParts.unique {value value' components : List Component} {important important' : Bool}
    (h : ValueParts value important components) (h' : ValueParts value' important' components) :
    value = value' ∧ important = important' := by
  have htake {value tail : List Component} {important : Bool}
      (hvalue : ∀ component ∈ value, isDelimiter ['!'] component = false)
      (hmark : Mark important tail) :
      (Cursor.mk (value ++ tail) default).skip (fun component => !isDelimiter ['!'] component) =
        ⟨tail, default⟩ :=
    Cursor.skip_append (by simpa using hvalue) (by simpa using hmark.isDelimiter_head?)
  obtain ⟨hvalue, hmark⟩ := h
  rename_i tail
  generalize heq : value ++ tail = components at h'
  obtain ⟨hvalue', hmark'⟩ := h'
  have hskip := htake hvalue hmark
  rw [heq, htake hvalue' hmark'] at hskip
  cases hskip
  exact ⟨List.append_cancel_right heq, hmark.unique hmark'⟩

/-- The parts of a declaration are determined. -/
theorem Parts.unique {name name' : String} {value value' components : List Component}
    {important important' : Bool} (h : Parts name value important components)
    (h' : Parts name' value' important' components) :
    name = name' ∧ value = value' ∧ important = important' := by
  obtain ⟨gap, component, rest, rfl, hgap, hname, hbehind⟩ := parts_iff.mp h
  obtain ⟨gap', component', rest', heq, hgap', hname', hbehind'⟩ := parts_iff.mp h'
  obtain ⟨rfl, rfl⟩ := Component.append_cons_inj heq hgap hgap'
    (Component.isFiller_of_identName? hname) (Component.isFiller_of_identName? hname')
  obtain rfl : name = name' := Option.some.inj (hname.symm.trans hname')
  obtain ⟨hcolon, hvalue⟩ := hbehind
  rename_i front back text start
  generalize hrow : front ++ .leaf ⟨.colon, text, start⟩ :: back = row at hbehind'
  obtain ⟨hcolon', hvalue'⟩ := hbehind'
  obtain ⟨-, rfl⟩ := Component.append_cons_inj hrow hcolon hcolon' rfl rfl
  exact ⟨rfl, hvalue.unique hvalue'⟩

/-- What is read behind a name: a colon, and the parts behind it, as far as they are allowed. -/
theorem behindName_eq_ok_iff {context : Context} {name : String} {c after : Cursor}
    {d : Declaration} :
    (do colon; afterColon context name) c = .ok d after ↔
      (∃ value important, PartsBehind value important c.rest ∧
        Allowed context name value important ∧ d = ofParts name value important) ∧
      after = ⟨[], c.stop⟩ := by
  rw [bind_eq_ok]
  simp only [colon, expect_eq_ok_iff, afterColon_eq_ok_iff]
  constructor
  · rintro ⟨u, mid, ⟨component, rest, hrest, hcolon, rfl⟩,
      ⟨value, important, hparts, hallowed, rfl⟩, rfl⟩
    refine ⟨⟨value, important, ?_, hallowed, rfl⟩, rfl⟩
    split at hcolon
    · rw [← List.takeWhile_append_dropWhile (p := Component.isFiller) (l := c.rest), hrest]
      exact .intro (Component.significant_takeWhile c.rest) hparts
    · cases hcolon
  · obtain ⟨components, stop⟩ := c
    rintro ⟨⟨value, important, ⟨hgap, hparts⟩, hallowed, rfl⟩, rfl⟩
    refine ⟨(), _, ⟨_, _, Component.dropWhile_append_of_significant hgap _, ?_, rfl⟩,
      ⟨value, important, hparts, hallowed, rfl⟩, rfl⟩
    rfl

/-- A declaration is read where its parts stand, as far as they are allowed, and is what they make
up. -/
theorem parser_eq_ok_iff {context : Context} {c after : Cursor} {d : Declaration} :
    parser context c = .ok d after ↔
      (∃ name value important, Parts name value important c.rest ∧
        Allowed context name value important ∧ d = ofParts name value important) ∧
      after = ⟨[], c.stop⟩ := by
  have hparser : parser context = ident >>= fun name => (do colon; afterColon context name) := rfl
  rw [hparser, bind_eq_ok]
  simp only [ident, expect_eq_ok_iff, behindName_eq_ok_iff, parts_iff]
  constructor
  · rintro ⟨name, mid, ⟨component, rest, hrest, hname, rfl⟩,
      ⟨value, important, hparts, hallowed, rfl⟩, rfl⟩
    refine ⟨⟨name, value, important, ⟨c.rest.takeWhile Component.isFiller, component, rest, ?_,
      Component.significant_takeWhile c.rest, hname, hparts⟩, hallowed, rfl⟩, rfl⟩
    rw [← hrest, List.takeWhile_append_dropWhile]
  · obtain ⟨components, stop⟩ := c
    rintro ⟨⟨name, value, important, ⟨gap, component, rest, rfl, hgap, hname, hparts⟩, hallowed,
      rfl⟩, rfl⟩
    refine ⟨name, _, ⟨component, rest, ?_, hname, rfl⟩,
      ⟨value, important, hparts, hallowed, rfl⟩, rfl⟩
    exact Component.dropWhile_append_cons hgap (Component.isFiller_of_identName? hname) rest

end Declaration

end Css
