import Css.Proofs.CounterStyle.RoundTrip
import Css.Proofs.Keyframes.RoundTrip
import Css.Proofs.Media.RoundTrip
import Css.Proofs.Supports.Written

/-!
# Preludes are read back

The prelude of an at-rule of a tight source is written behind the word of its kind and a space, and
is read back in front of a block, `Prelude.exists_spelled`, if it can be written.
-/

namespace Css

open Css.Parser
open Component (written space Spells AreTight AreWhole)

namespace AtRule

/-- The word of a kind of at-rule. -/
def word : AtRule → String
  | charset => "charset"
  | binding => "namespace"
  | counterStyle => "counter-style"
  | media => "media"
  | supports => "supports"
  | keyframes vendorPrefix => (vendorPrefix.map VendorPrefix.css).getD "" ++ "keyframes"

/-- The word of a kind that has a name names the kind, and is written without escapes. -/
theorem ofName?_word {name : String} {kind : AtRule} (h : ofName? name = some kind) :
    ofName? (Text.lowerCase kind.word) = some kind ∧
      IsName kind.word ∧ identifierText kind.word = kind.word := by
  unfold ofName? at h
  split at h <;> cases h <;> decide +kernel

end AtRule

namespace Prelude

/-- The kind of at-rule that a prelude belongs to. -/
def kind : Prelude → AtRule
  | counterStyle _ => .counterStyle
  | media _ => .media
  | supports _ => .supports
  | keyframes vendorPrefix _ => .keyframes vendorPrefix

/-- The canonical text of a prelude that can be written. -/
def text : Prelude → String
  | counterStyle name => name.css
  | media queries => queries.text
  | supports condition => condition.css
  | keyframes _ name => name.css

/-- The prelude that is read back. -/
def asWritten : Prelude → Prelude
  | media queries => .media queries.asWritten
  | found => found

/-- The media types and the names of declarations in the prelude need no escapes, and the numbers in
its queries are finite. -/
def IsWritable : Prelude → Prop
  | media queries => ∀ q ∈ queries.queries, q.IsWritable
  | supports condition => condition.Forall Declaration.IsWritable fun _ => True
  | counterStyle _ | keyframes _ _ => True

variable {context : Context} {location : Position} {kind : Option AtRule} {found : Prelude}

/-- The components are read from the text of the prelude, in front of what starts with a delimiter.
Up to there they are read as the prelude that is read back, if a space stands in front of them. -/
structure Spelled (context : Context) (found : Prelude) (components : List Component) : Prop where
  spells : ∀ {behind : List Component} {text : String}, Spells behind text → Delimited text.toList →
    Spells (components ++ behind) (found.text ++ text)
  reads : ∀ location, Reads (entirely (parser context location (some found.kind)))
    (space :: components) (Exactly found.asWritten [])
  undelimited : ∀ c ∈ components, isDelimiter [';', '{'] c = false

/-- A prelude belongs to the kind of at-rule that it is read for. -/
theorem kind_eq_of_read {c last : Cursor}
    (h : entirely (parser context location kind) c = .ok found last) : kind = some found.kind := by
  unfold parser at h
  split at h
  · cases h
  · cases h
  · cases h
  all_goals
    obtain ⟨_, -, rfl⟩ := entirely_map_eq_ok_iff.mp h
    rfl

/-- A single token in front of a block is spelled by what it is read as. -/
theorem spelled_of_token {token : Token.Kind} (hspells : Spells [written token] found.text)
    (hdelimiter : isDelimiter [';', '{'] (written token) = false)
    (hreads : ∀ location, Reads (entirely (parser context location (some found.kind)))
      [space, written token] (Exactly found.asWritten [])) :
    Spelled context found [written token] where
  spells hbehind hdelimited := hspells.append hbehind.toReadFrom hdelimited
  reads := hreads
  undelimited c hc := by rwa [List.mem_singleton.mp hc]

/-- The name of a counter style is spelled. -/
theorem spelled_counterStyle {name : CounterStyleName}
    (h : name.Canonical CounterStyleName.reserved) :
    Spelled context (.counterStyle name) name.components := by
  have hname : Reads CounterStyleName.definition ([space] ++ name.components ++ [])
      (Exactly name []) := CounterStyleName.reads_definition h rfl
  exact spelled_of_token h.spells rfl fun location =>
    ReadsAll.entirely ⟨[], rfl, (ReadsAll.entirely ⟨[], rfl, hname⟩).map⟩

/-- The name of an animation is spelled. -/
theorem spelled_keyframes {name : KeyframesName} (h : name.Canonical)
    (vendorPrefix : Option VendorPrefix) :
    Spelled context (.keyframes vendorPrefix name) name.components := by
  have hname : Reads KeyframesName.parser ([space] ++ name.components) (Exactly name []) :=
    KeyframesName.parser_reads_behind h rfl
  have hspells : Spells name.components name.css := h.spells
  have hreads (location : Position) :
      Reads (entirely (parser context location (some (.keyframes vendorPrefix))))
        (space :: name.components) (Exactly (.keyframes vendorPrefix name) []) :=
    ReadsAll.entirely ⟨[], rfl, hname.map⟩
  cases name <;> exact spelled_of_token hspells rfl hreads

/-- Media queries are spelled. -/
theorem spelled_media {queries : MediaList} (h : queries.Canonical context.mode)
    (hspelled : ∀ q ∈ queries.queries, q.IsSpelled) :
    Spelled context (.media queries) queries.components where
  spells hbehind hdelimited := by
    obtain ⟨queries⟩ := queries
    cases queries with
    | nil =>
        change Spells _ ("" ++ _)
        rwa [String.empty_append]
    | cons first others =>
        exact (Component.spells_commaComponents (List.cons_ne_nil _ _)
          fun q hq => MediaQuery.spells (hspelled q hq)).append hbehind.toReadFrom hdelimited
  reads location := by
    have hread : Reads (MediaList.parser (context.inRule .media)) ([space] ++ queries.components)
        (Exactly queries.asWritten (if queries.queries.isEmpty then [space] else [])) :=
      MediaList.parser_reads_behind h hspelled rfl
    have hrest : (if queries.queries.isEmpty then [space] else []).all Component.isFiller := by
      split <;> rfl
    exact ReadsAll.entirely ⟨_, hrest, hread.map⟩
  undelimited c hc := by
    rcases Component.mem_commaComponents hc with ⟨q, -, hq⟩ | rfl | rfl
    · simp [isDelimiter, q.delimiter?_components c hq]
    · rfl
    · rfl

/-- A condition is spelled by what spells it. -/
theorem spelled_supports {condition : Condition} {values : List Component}
    (hspells : Spells values condition.css)
    (h : Condition.Spelled (context.inRule .supports) condition (Component.significant values)) :
    Spelled context (.supports condition) values where
  spells hbehind hdelimited := hspells.append hbehind.toReadFrom hdelimited
  reads location := by
    have hread : Reads (entirely (Condition.parser (context.inRule .supports))) (space :: values)
        (Exactly condition []) := Condition.reads_of_spelled h
    exact hread.entirely_map _
  undelimited := h.isDelimiter_eq_false _

/-- What is written for the prelude of an at-rule of a tight source spells it, if it can be
written. -/
theorem exists_spelled {front : List Component} {stop : Position} {last : Cursor}
    (h : entirely (parser context location kind) ⟨front, stop⟩ = .ok found last)
    (hgood : AreTight front) (hwhole : AreWhole front) (hwritable : found.IsWritable) :
    ∃ values, Spelled context found values := by
  have hsound : Cursor.All SoundTokens ⟨front, stop⟩ := hgood.lexed.sound
  have hcanonical := ((parser_yields context location kind).entirely hsound h).1
  cases found with
  | counterStyle name => exact ⟨_, spelled_counterStyle hcanonical⟩
  | media queries =>
      exact ⟨_, spelled_media hcanonical fun q hq => (hcanonical q hq).isSpelled (hwritable q hq)⟩
  | keyframes vendorPrefix name => exact ⟨_, spelled_keyframes hcanonical vendorPrefix⟩
  | supports condition =>
      obtain rfl := kind_eq_of_read h
      obtain ⟨_, hread, ⟨⟩⟩ := entirely_map_eq_ok_iff.mp h
      have hspelled := (Condition.entirely_parser_eq_ok_iff.mp hread).1
      obtain ⟨values, hspells, hvalues⟩ := hspelled.exists_written hgood
        (Condition.isWritable_of_read hread hwhole hwritable)
      exact ⟨values, spelled_supports hspells hvalues⟩

end Prelude

end Css
