import Css.Proofs.Keyframes.Written
import Css.Proofs.Rule.Extent
import Css.Proofs.Rule.Nested
import Css.Proofs.Rule.Preludes
import Css.Proofs.Rule.Selectors
import Css.Proofs.Stylesheet.WellFormed

/-!
# What is written for rules

A rule of a tight source is written as a text that is read as a rule that is written alike,
`Rule.exists_returns`, if the rules in it, at any depth, can be written. An at-rule comes back with
its prelude and its block, `Prelude.Spelled.isRewritten`, and a rule with selectors with what is
kept of them.
-/

namespace Css

open Css.Parser
open Component (written space ReadFrom Spells AreTight Captured)

/-- A block is spelled in front of what is read. -/
theorem Component.spells_curly {a b : List Component} {x y : String} (ha : ReadFrom a x)
    (hb : ReadFrom b y) : Spells (Component.curly a :: b) (Bracket.curly.around x ++ y) where
  toReadFrom := ha.around_append .curly hb
  visible := by
    refine ⟨'{', (x ++ "\x7d" ++ y).toList, ?_, rfl⟩
    simp only [Bracket.around, String.append_assoc, String.toList_append]
    rfl

/-- A block ends what stands in front of it. -/
theorem Component.ends_curly (text : String) (rest : List Char) :
    Ends ((Bracket.curly.around text).toList ++ rest) := by
  simp only [Bracket.around, String.append_assoc, String.toList_append]
  exact .cons (by decide) fun hmark => absurd hmark (by decide)

/-- What stands in front of a group of tight components is tight, and so is what stands in the
group. -/
theorem Component.AreTight.of_group {front rest contents : List Component} {opening : Token}
    {closing : Option Token} (h : AreTight (front ++ .group opening contents closing :: rest)) :
    AreTight front ∧ AreTight contents :=
  ⟨Hereditary.of_infix h (List.prefix_append front _).isInfix,
    Hereditary.contents (Hereditary.of_mem h (List.mem_append_right front List.mem_cons_self))⟩

namespace Rule

/-- The names of the declarations directly in the rule and the media types of its queries need no
escapes, and the numbers of its queries are finite. -/
def IsWritable : Rule → Prop
  | style _ declarations => ∀ d ∈ declarations.declarations, d.IsWritable
  | media queries _ => ∀ q ∈ queries.queries, q.IsWritable
  | supports condition _ => condition.Forall Declaration.IsWritable fun _ => True
  | counterStyle _ => True
  | keyframes k => ∀ keyframe ∈ k.keyframes, keyframe.IsWritable

/-- The rules can be written, at any depth. -/
def AreWritable (rules : List Rule) : Prop := ∀ ⦃rule : Rule⦄, rule.Within rules → rule.IsWritable

variable {rules nested : List Rule} {rule : Rule}

/-- Each of the rules can be written. -/
theorem AreWritable.of_mem (h : AreWritable rules) (hrule : rule ∈ rules) : AreWritable [rule] := by
  intro other hother
  cases hother with
  | here hmem => exact h (.here (List.mem_singleton.mp hmem ▸ hrule))
  | nested group hgroup hnested hother =>
      exact h (.nested group (List.mem_singleton.mp hgroup ▸ hrule) hnested hother)

/-- A rule that can be written at any depth can be written. -/
theorem AreWritable.isWritable (h : AreWritable [rule]) : rule.IsWritable :=
  h (.here (List.mem_singleton_self rule))

/-- The rules in a rule can be written. -/
theorem AreWritable.of_nested (h : AreWritable [rule]) (hnested : rule.nested? = some nested) :
    AreWritable nested :=
  fun _ hother => h (.nested rule (List.mem_singleton_self rule) hnested hother)

/-- No rules can be written. -/
theorem areWritable_nil : AreWritable [] := by
  intro rule hrule
  cases hrule with
  | here hmem => cases hmem
  | nested group hgroup => cases hgroup

/-- Rules can be written if the first one, the rules in it, and the others can. -/
theorem areWritable_cons : AreWritable (rule :: rules) ↔
    rule.IsWritable ∧ (∀ nested ∈ rule.nested?, AreWritable nested) ∧ AreWritable rules := by
  constructor
  · intro h
    refine ⟨h (.here List.mem_cons_self), fun nested hnested other hother =>
      h (.nested rule List.mem_cons_self hnested hother), fun other hother => ?_⟩
    cases hother with
    | here hmem => exact h (.here (List.mem_cons_of_mem rule hmem))
    | nested group hgroup hnested hother =>
        exact h (.nested group (List.mem_cons_of_mem rule hgroup) hnested hother)
  · rintro ⟨hrule, hnested, hrules⟩ other hother
    cases hother with
    | here hmem =>
        rcases List.mem_cons.mp hmem with rfl | hmem
        · exact hrule
        · exact hrules (.here hmem)
    | nested group hgroup hinner hother =>
        rcases List.mem_cons.mp hgroup with rfl | hgroup
        · exact hnested _ hinner hother
        · exact hrules (.nested group hgroup hinner hother)

/-- Rules are written one after the other. -/
theorem cssOf_of_mapM {texts : List String} (h : rules.mapM css = .ok texts) :
    cssOf rules = .ok (String.join texts) := by
  induction rules generalizing texts with
  | nil => cases h; rfl
  | cons rule rules ih =>
      rw [List.mapM_cons] at h
      cases hrule : rule.css with
      | error e => rw [hrule] at h; cases h
      | ok text =>
          cases hrules : rules.mapM css with
          | error e => rw [hrule, hrules] at h; cases h
          | ok others =>
              rw [hrule, hrules] at h
              cases h
              rw [cssOf, hrule, ih hrules, String.join_cons]
              rfl

end Rule

namespace Prelude

variable {context : Context} {namespaces : Namespaces} {found : Prelude} {rule again : Rule}
  {components values : List Component} {text : String}

/-- The text of an at-rule with this prelude, and with the text in its block. -/
def ruleCss (found : Prelude) (text : String) : String :=
  "@" ++ found.kind.word ++ (" " ++ (found.text ++ Bracket.curly.around text))

/-- The components are read from what is written in the block of the rule with this prelude. What is
read makes up a rule that is written alike. -/
structure Encloses (context : Context) (namespaces : Namespaces) (found : Prelude)
    (rule again : Rule) (values : List Component) (text : String) : Prop where
  readFrom : ReadFrom values text
  reads : Reads (found.asWritten.bodyParser context (Rule.nestedRules context namespaces)) values
    (Exactly again [])
  writes : rule.css = .ok (found.ruleCss text)
  rewrites : again.css = .ok (found.ruleCss text)

/-- An at-rule is written alike when it is read back, if what is in its block is. -/
theorem Spelled.isRewritten (h : found.Spelled context components)
    (hword : AtRule.ofName? (Text.lowerCase found.kind.word) = some found.kind ∧
      IsName found.kind.word ∧ identifierText found.kind.word = found.kind.word)
    (hbody : Encloses context namespaces found rule again values text) :
    IsRewritten Rule.css (Rule.parser context namespaces) rule again
      (written (.atKeyword found.kind.word) :: (space :: components ++ [Component.curly values]))
      (found.ruleCss text) where
  writes := hbody.writes
  rewrites := hbody.rewrites
  readFrom {rest other} hrest := by
    have hblock := h.spells (Component.spells_curly hbody.readFrom hrest)
      (Component.delimited_curly_append _ _)
    have htext : found.ruleCss text ++ other = "@" ++ found.kind.word ++
        (" " ++ (found.text ++ (Bracket.curly.around text ++ other))) := by
      simp only [ruleCss, String.append_assoc]
    have hread := hblock.afterKeyword hword.2
    rw [htext, List.cons_append, List.append_assoc, List.cons_append]
    exact hread
  reads rest := by
    have hfront : ∀ c ∈ space :: components, isDelimiter [';', '{'] c = false :=
      List.forall_mem_cons.mpr ⟨rfl, h.undelimited⟩
    have hread : Reads (Rule.parser context namespaces)
        (written (.atKeyword found.kind.word) ::
          ((space :: components) ++ Component.curly values :: rest)) (Exactly again rest) :=
      Rule.parser_reads hword.1 h.reads hfront ⟨[], rfl, hbody.reads⟩
    simpa using hread
  visible := rfl

/-- A canonical counter style has its descriptors in its block. -/
theorem encloses_counterStyle {s : CounterStyle} (h : s.Canonical context.mode) :
    Encloses context namespaces (.counterStyle s.name) (.counterStyle s) (.counterStyle s)
      (s.descriptors.flatMap Descriptor.declaration) s.bodyCss := by
  have hcss : (Rule.counterStyle s).css = .ok ((counterStyle s.name).ruleCss s.bodyCss) := by
    simp only [Rule.css, CounterStyle.css, ruleCss, ← String.append_assoc]
    rfl
  refine ⟨?_, (CounterStyle.reads_bodyParser h).map, hcss, hcss⟩
  rw [CounterStyle.bodyCss_eq]
  exact Descriptor.readFrom_declarations h.descriptors.of_mem

/-- The text of an animation is that of its keyframes in its block. -/
theorem css_keyframes {name : KeyframesName} {vendorPrefix : Option VendorPrefix}
    {list : List Keyframe} {texts : List String} (h : list.mapM Keyframe.css = .ok texts) :
    (Rule.keyframes ⟨name, list, vendorPrefix⟩).css =
      .ok ((keyframes vendorPrefix name).ruleCss (String.join texts)) := by
  have hword : "keyframes " = "keyframes" ++ " " := rfl
  rw [Rule.css, Keyframes.css, h, hword]
  simp only [ruleCss, kind, AtRule.word, String.append_assoc]
  rfl

/-- An animation has its keyframes in its block. -/
theorem exists_encloses_keyframes {name : KeyframesName} {vendorPrefix : Option VendorPrefix}
    {list : List Keyframe}
    (h : ∀ keyframe ∈ list,
      Rewritable Keyframe.css (Keyframe.parser (context.inRule .keyframes)) keyframe) :
    ∃ again values text, Encloses context namespaces (.keyframes vendorPrefix name)
      (.keyframes ⟨name, list, vendorPrefix⟩) again values text := by
  obtain ⟨agains, values, texts, hcss, hcss', hreadFrom, hreads⟩ := exists_rewritten_many h
  exact ⟨.keyframes ⟨name, agains, vendorPrefix⟩, values, String.join texts, hreadFrom,
    Reads.map (hreads.andThen (reads_pure _ _)), css_keyframes hcss, css_keyframes hcss'⟩

/-- A prelude of a grouping rule has rules in its block. -/
theorem exists_encloses_nested {make makeAgain : List Rule → Rule} {list : List Rule}
    (hparser : ∀ rules, found.asWritten.bodyParser context rules = makeAgain <$> rules)
    (hcss : ∀ {list text}, Rule.cssOf list = .ok text →
      (make list).css = .ok (found.ruleCss text) ∧ (makeAgain list).css = .ok (found.ruleCss text))
    (h : ∀ rule ∈ list, Rewritable Rule.css (Rule.parser context namespaces) rule) :
    ∃ again values text, Encloses context namespaces found (make list) again values text := by
  obtain ⟨agains, values, texts, hwrites, hrewrites, hreadFrom, hreads⟩ := exists_rewritten_many h
  refine ⟨makeAgain agains, values, String.join texts, hreadFrom, ?_,
    (hcss (Rule.cssOf_of_mapM hwrites)).1, (hcss (Rule.cssOf_of_mapM hrewrites)).2⟩
  rw [hparser, funext (Rule.nestedRules_eq context namespaces)]
  exact hreads.map

/-- Media queries have rules in their block. -/
theorem exists_encloses_media {queries : MediaList} {list : List Rule}
    (hspelled : ∀ q ∈ queries.queries, q.IsSpelled)
    (h : ∀ rule ∈ list, Rewritable Rule.css (Rule.parser context namespaces) rule) :
    ∃ again values text,
      Encloses context namespaces (.media queries) (.media queries list) again values text := by
  have hcss {queries' : MediaList} (hqueries : queries'.css = .ok queries.text) {list : List Rule}
      {text : String} (hlist : Rule.cssOf list = .ok text) :
      (Rule.media queries' list).css = .ok ((media queries).ruleCss text) := by
    rw [Rule.css, hqueries, hlist, ruleCss, ← String.append_assoc, ← String.append_assoc]
    rfl
  exact @exists_encloses_nested _ _ (.media queries) (.media queries) (.media queries.asWritten) _
    (fun _ => rfl) (fun hlist => ⟨hcss (MediaList.css_eq hspelled) hlist,
      hcss (MediaList.css_asWritten hspelled) hlist⟩) h

/-- A condition has rules in its block. -/
theorem exists_encloses_supports {condition : Condition} {list : List Rule}
    (h : ∀ rule ∈ list, Rewritable Rule.css (Rule.parser context namespaces) rule) :
    ∃ again values text,
      Encloses context namespaces (.supports condition) (.supports condition list) again
        values text := by
  have hcss {list : List Rule} {text : String} (hlist : Rule.cssOf list = .ok text) :
      (Rule.supports condition list).css = .ok ((supports condition).ruleCss text) := by
    rw [Rule.css, hlist, ruleCss, ← String.append_assoc, ← String.append_assoc]
    rfl
  exact @exists_encloses_nested _ _ (.supports condition) (.supports condition)
    (.supports condition) _
    (fun _ => rfl) (fun hlist => ⟨hcss hlist, hcss hlist⟩) h

/-- A prelude can be written if the rule with it can. -/
theorem isWritable_of_bodyParser {rules : Parser (List Rule)} {c last : Cursor}
    (h : entirely (found.bodyParser context rules) c = .ok rule last) (hrule : rule.IsWritable) :
    found.IsWritable := by
  cases found with
  | media queries | supports condition =>
      obtain ⟨list, -, rfl⟩ := entirely_map_eq_ok_iff.mp h
      exact hrule
  | counterStyle name | keyframes vendorPrefix name => trivial

/-- What is written in the block of an at-rule of a tight source makes up a rule that is written
alike, if the rule can be written, and if this holds of the rules in the block. -/
theorem exists_encloses {rules : Parser (List Rule)} {contents : List Component} {stop : Position}
    {last : Cursor} (hfound : found.Canonical context.mode)
    (h : entirely (found.bodyParser context rules) ⟨contents, stop⟩ = .ok rule last)
    (hgood : AreTight contents) (hwritable : Rule.AreWritable [rule])
    (hrules : Gives AreTight rules fun list => ∀ rule ∈ list, Rule.AreWritable [rule] →
      Rewritable Rule.css (Rule.parser context namespaces) rule) :
    ∃ again values text, Encloses context namespaces found rule again values text := by
  have hcursor : Cursor.All AreTight ⟨contents, stop⟩ := hgood
  have hsound : Cursor.All SoundTokens ⟨contents, stop⟩ := hgood.lexed.sound
  cases found with
  | counterStyle name =>
      obtain ⟨s, hread, rfl⟩ := entirely_map_eq_ok_iff.mp h
      obtain ⟨hcanonical, rfl⟩ :=
        ((CounterStyle.yields_bodyParser context hfound).entirely hsound hread).1
      exact ⟨_, _, _, encloses_counterStyle hcanonical⟩
  | keyframes vendorPrefix name =>
      obtain ⟨⟨_, list, _⟩, hread, rfl⟩ := entirely_map_eq_ok_iff.mp h
      obtain ⟨⟨⟩, ⟨⟩, hlist⟩ :=
        ((Keyframes.yields_rewritable (context.inRule .keyframes) vendorPrefix name).entirely
          hcursor hread).1
      exact exists_encloses_keyframes fun keyframe hkeyframe =>
        hlist keyframe hkeyframe (hwritable.isWritable keyframe hkeyframe)
  | media queries =>
      obtain ⟨list, hread, rfl⟩ := entirely_map_eq_ok_iff.mp h
      have hspelled : ∀ q ∈ queries.queries, q.IsSpelled :=
        fun q hq => (hfound q hq).isSpelled (hwritable.isWritable q hq)
      refine exists_encloses_media hspelled fun rule hrule => ?_
      exact hrules.entirely hcursor hread rule hrule ((hwritable.of_nested rfl).of_mem hrule)
  | supports condition =>
      obtain ⟨list, hread, rfl⟩ := entirely_map_eq_ok_iff.mp h
      refine exists_encloses_supports fun rule hrule => ?_
      exact hrules.entirely hcursor hread rule hrule ((hwritable.of_nested rfl).of_mem hrule)

end Prelude

namespace Rule

variable {context : Context} {namespaces : Namespaces} {rules : Parser (List Rule)} {rule : Rule}

/-- What is written for the rule is read as one that is written alike, and starts with a mark only
if the component is one. -/
def Returns (context : Context) (namespaces : Namespaces) (first : Component)
    (rule : Rule) : Prop :=
  ∃ again start others text,
    IsRewritten css (parser context namespaces) rule again (start :: others) text ∧
      start.isFiller = false ∧ Item.isHtmlMark start = Item.isHtmlMark first

/-- An at-rule of a tight source is written alike when it is read back. -/
theorem returns_of_atRuleParser {name : String} {text : List Char} {start : Position}
    {c after : Cursor} (hgood : AreTight c.rest)
    (h : atRuleParser context rules start
      (AtRule.ofComponent? (.leaf ⟨.atKeyword name, text, start⟩)) c = .ok rule after)
    (hwritable : AreWritable [rule])
    (hrules : Gives AreTight rules fun list => ∀ rule ∈ list, AreWritable [rule] →
      Rewritable css (parser context namespaces) rule) :
    Returns context namespaces (.leaf ⟨.atKeyword name, text, start⟩) rule := by
  obtain ⟨-, front, opening, contents, closing, hrest, hblock⟩ := atRuleParser_eq_ok_iff.mp h
  obtain ⟨found, last, last', hprelude, hbody⟩ := hblock.reads
  rw [hrest] at hgood
  obtain ⟨hfront, hcontents⟩ := hgood.of_group
  have hsound : Cursor.All SoundTokens ⟨front, opening.start⟩ := hfront.lexed.sound
  have hcanonical := ((Prelude.parser_yields _ _ _).entirely hsound hprelude).1
  -- the block stands behind the prelude, so the end of the source cuts nothing off in it
  obtain ⟨components, hspelled⟩ := Prelude.exists_spelled hprelude hfront
    hgood.lexed.areWhole_of_append (Prelude.isWritable_of_bodyParser hbody hwritable.isWritable)
  obtain ⟨again, values, body, hencloses⟩ :=
    Prelude.exists_encloses hcanonical hbody hcontents hwritable hrules
  have hword := AtRule.ofName?_word (Prelude.kind_eq_of_read hprelude)
  exact ⟨again, _, _, _, hspelled.isRewritten hword hencloses, rfl, rfl⟩

/-- A rule with selectors is written alike when it is read back, if what is kept of its selectors
and what is in its block are. -/
theorem isRewritten_style {start : Component} {others values : List Component} {selectors : String}
    {declarations : Declarations} (hstart : start.isFiller = false)
    (hkeyword : AtRule.isKeyword start = false)
    (hcaptured : Captured (start :: others) selectors.toList)
    (hselectors :
      Reads (entirely (Selector.parser namespaces)) (start :: others) (Exactly selectors []))
    (hfree : ∀ component ∈ start :: others, isDelimiter ['{'] component = false)
    (hvalues : ReadFrom values declarations.css)
    (hdeclarations : ReadsAll (Declarations.parser (context.inRule .style)) values declarations) :
    IsRewritten css (parser context namespaces) (.style selectors declarations)
      (.style selectors declarations) (start :: (others ++ [Component.curly values]))
      (selectors ++ Bracket.curly.around declarations.css) where
  writes := rfl
  rewrites := rfl
  readFrom {rest other} hrest := by
    have hread := hcaptured.before (hvalues.around_append .curly hrest) fun rest => by
      rw [String.toList_append, List.append_assoc]
      exact Component.ends_curly _ _
    rw [String.ofList_toList] at hread
    rw [List.cons_append, List.append_assoc, String.append_assoc]
    exact hread
  reads rest := by
    have hread :
        Reads (parser context namespaces) (start :: (others ++ Component.curly values :: rest))
        (Exactly (.style selectors declarations) rest) :=
      parser_reads_style hstart hkeyword hselectors hfree hdeclarations
    simpa using hread
  visible := by rw [List.all_cons, hstart, Bool.false_and]

/-- A rule with selectors of a tight source is written alike when it is read back. -/
theorem returns_of_styleParser {first : Component} {rest : List Component} {stop : Position}
    {after : Cursor} (hgood : AreTight (first :: rest)) (hfirst : first.isFiller = false)
    (hkeyword : AtRule.isKeyword first = false)
    (h : styleParser context namespaces ⟨first :: rest, stop⟩ = .ok rule after)
    (hwritable : rule.IsWritable) : Returns context namespaces first rule := by
  obtain ⟨-, front, opening, contents, closing, hrest, hblock⟩ := styleParser_eq_ok_iff.mp h
  obtain ⟨selectors, last, last', hselectors, hbody⟩ := hblock.reads
  obtain ⟨declarations, hread, rfl⟩ := entirely_map_eq_ok_iff.mp hbody
  dsimp only at hrest
  -- selectors are more than fillers, so the first component is one of theirs and not the block
  obtain ⟨front, rfl⟩ : ∃ others, front = first :: others := by
    cases front with
    | nil =>
        obtain ⟨mid, hrun, -⟩ := entirely_eq_ok_iff.mp hselectors
        cases (Selector.parser_eq_ok_iff.mp hrun).1
    | cons start others =>
        obtain ⟨rfl, -⟩ := List.cons.inj hrest
        exact ⟨others, rfl⟩
  rw [hrest] at hgood
  obtain ⟨hfront, hcontents⟩ := hgood.of_group
  obtain ⟨start, others, hcaptured, hreads, hseen, hfree⟩ :=
    Selector.exists_echo hselectors hfirst hfront
  have hcursor : Cursor.All AreTight
      ⟨contents, Component.contentsStop opening contents closing⟩ := hcontents
  obtain ⟨values, hvalues, hdeclarations⟩ :=
    (Declarations.gives_written (context.inRule .style)).entirely hcursor hread hwritable
  have hstart := (hseen Component.isSeen_isFiller).trans hfirst
  have hnoKeyword := (hseen AtRule.isSeen_isKeyword).trans hkeyword
  exact ⟨_, start, _, _, isRewritten_style hstart hnoKeyword hcaptured hreads
    (hfree hblock.undelimited) hvalues ⟨[], rfl, hdeclarations⟩, hstart,
    hseen Item.isSeen_isHtmlMark⟩

/-- A rule of a tight source is written alike when it is read back, if the rules in it are. -/
theorem exists_returns {c after : Cursor} (hgood : AreTight c.rest)
    (h : ruleWith context namespaces rules c = .ok rule after) (hwritable : AreWritable [rule])
    (hrules : Gives AreTight rules fun list => ∀ rule ∈ list, AreWritable [rule] →
      Rewritable css (parser context namespaces) rule) :
    ∃ first rest, c.rest.dropWhile Component.isFiller = first :: rest ∧
      Returns context namespaces first rule := by
  rw [ruleWith_eq] at h
  cases hrest : c.rest.dropWhile Component.isFiller with
  | nil => rw [hrest] at h; cases h
  | cons first rest =>
      rw [hrest] at h
      refine ⟨first, rest, rfl, ?_⟩
      have hsuffix : AreTight (first :: rest) :=
        Hereditary.of_infix hgood (Component.suffix_of_dropWhile hrest).isInfix
      have hfirst := List.head?_dropWhile_not Component.isFiller c.rest
      simp only [hrest, List.head?_cons] at hfirst
      cases hkeyword : AtRule.isKeyword first with
      | true =>
          obtain ⟨name, text, start, rfl⟩ := AtRule.exists_leaf_of_isKeyword hkeyword
          have hbehind : AreTight rest := Hereditary.of_infix hsuffix (List.suffix_cons _ _).isInfix
          exact returns_of_atRuleParser hbehind h hwritable hrules
      | false =>
          simp only [hkeyword, Bool.false_eq_true, if_false] at h
          exact returns_of_styleParser hsuffix (by simpa using hfirst) hkeyword h
            hwritable.isWritable

/-- The rules in a block of a tight source are written alike when they are read back. -/
theorem yields_rewritable (context : Context) (namespaces : Namespaces) :
    Yields AreTight (nestedRules context namespaces) fun list => ∀ rule ∈ list, AreWritable [rule] →
      Rewritable css (parser context namespaces) rule := by
  -- the rules one level deeper are those that `inner` reads
  refine yields_recursive fun inner hinner => Yields.many ?_
  intro c rule after hgood hrun
  refine ⟨fun hwritable => ?_, hgood.of_suffix (consumes_ruleWith hrun).1.suffix⟩
  obtain ⟨first, rest, -, again, start, others, text, hrewritten, -⟩ :=
    exists_returns hgood hrun hwritable hinner.gives
  exact ⟨again, start :: others, text, hrewritten⟩

end Rule

end Css
