import Css.Proofs.Component.Echoes
import Css.Proofs.Declaration.Accepts
import Css.Proofs.Declaration.Order
import Css.Proofs.Declaration.Reads

/-!
# Written declarations are read back

The name of a declaration is written as it is, so it is read back if it needs no escapes,
`Declaration.IsWritable`. Where the tokens of a source are tight, the value that was read from it is
written as a text that is read as an equal value, `PropertyValue.exists_renders`, and so are
declarations, `Declaration.Spelled.exists_written`, and lists of them, `Declarations.gives_written`.
-/

namespace Css

open Css.Parser
open Component (significant written errorTokenOf? keptText bareOf Captured ReadFrom AreTight Echoes
  bareOf_eq_append bareOf_eq_leaf_cons isSeen_keyword? isSeen_identName? map_significant_of_bareOf)

namespace PropertyValue

variable {components others : List Component}

/-- Which keyword for every property components are is seen of them. -/
theorem wide?_eq_of_map
    (h : (significant components).map keyword? = (significant others).map keyword?) :
    wide? components = wide? others := by
  unfold wide?
  rcases hc : significant components with _ | ⟨c, _ | ⟨c', cs⟩⟩ <;>
    rcases ho : significant others with _ | ⟨o, _ | ⟨o', os⟩⟩ <;>
    simp_all

/-- Components that look alike are the same value. -/
theorem ofComponents_of_bareOf (h : bareOf components = bareOf others) :
    ofComponents components = ofComponents others := by
  rw [ofComponents, wide?_eq_of_map (map_significant_of_bareOf h isSeen_keyword?),
    Component.keptText_of_bareOf h, ofComponents]

/-- An echo of components is the same value. -/
theorem ofComponents_of_echoes (h : Echoes components others) :
    ofComponents others = ofComponents components := by
  rw [ofComponents, wide?_eq_of_map (h.map_significant isSeen_keyword?), h.keptText_eq,
    ofComponents]

/-- The values are read from what is written for the components as a value, and make up the same
value. They hold nothing of which a grammar takes note that the components do not hold. -/
structure Renders (components values : List Component) : Prop where
  captured : Captured values (ofComponents components).css.toList
  value : ofComponents values = ofComponents components
  clean : errorTokenOf? values = none
  nothing : significant values = [] → significant components = []
  free : ∀ {delimiters : List Char}, (∀ c ∈ components, isDelimiter delimiters c = false) →
    ∀ c ∈ values, isDelimiter delimiters c = false

/-- The word for a keyword is the keyword. -/
theorem wide?_word (keyword : WideKeyword) :
    wide? [written (.ident (Vocabulary.word keyword))] = some keyword := by
  have hword : keyword? (written (.ident (Vocabulary.word keyword))) =
      some (Vocabulary.word keyword) := congrArg some (word_spec keyword).2
  have hrow : significant [written (.ident (Vocabulary.word keyword))] =
      [written (.ident (Vocabulary.word keyword))] := rfl
  rw [wide?, hrow]
  exact (congrArg (Option.bind · _) hword).trans (Vocabulary.find?_word keyword)

/-- What is written for a value of a tight source is read as the value. -/
theorem exists_renders (h : AreTight components) (herror : errorTokenOf? components = none) :
    ∃ values, Renders components values := by
  cases hwide : wide? components with
  | some keyword =>
      have hvalue : ofComponents components = .wide keyword := by rw [ofComponents, hwide]; rfl
      refine ⟨[written (.ident (Vocabulary.word keyword))], ?_, ?_, rfl,
        fun hnil => absurd hnil (List.cons_ne_nil _ _), fun _ c hc => ?_⟩
      · rw [hvalue]
        exact Component.captured_word (word_spec keyword).1
      · rw [hvalue, ofComponents, wide?_word]
        rfl
      · rw [List.mem_singleton.mp hc]
        rfl
  | none =>
      have hvalue : ofComponents components = .specified (keptText components) := by
        rw [ofComponents, hwide]
        rfl
      obtain ⟨values, hechoes⟩ := h.exists_echoes herror
      refine ⟨values, ?_, ofComponents_of_echoes hechoes, hechoes.errorTokenOf?_eq_none herror,
        hechoes.significant_eq_nil_iff.mp, hechoes.isDelimiter_eq_false⟩
      rw [hvalue]
      exact hechoes.captured

end PropertyValue

namespace Declaration

variable {context : Context} {d : Declaration} {components : List Component}

/-- The name of the declared property needs no escapes. -/
def IsWritable (d : Declaration) : Prop := identifierText d.fullName = d.fullName

instance (d : Declaration) : Decidable d.IsWritable :=
  inferInstanceAs (Decidable (identifierText d.fullName = d.fullName))

/-- What is shown is seen of the significant components. -/
theorem shows_iff_map {α : Type} {value? : Component → Option α} {a : α}
    {part : List Component} : Shows value? a part ↔ (significant part).map value? = [some a] := by
  simp [Shows, Single, List.map_eq_singleton_iff]

section Alike

variable {name : String} {value tail others : List Component} {important : Bool}

/-- What looks like a mark is one. -/
theorem Mark.of_bareOf (h : Mark important tail) (hlook : bareOf others = bareOf tail) :
    Mark important others := by
  cases h with
  | absent =>
      obtain rfl : others = [] := by simpa [Component.bareOf_eq_map] using hlook
      exact .absent
  | present hword =>
      obtain ⟨⟨_, _, _⟩, back, rfl, rfl, -, hback⟩ := bareOf_eq_leaf_cons hlook
      refine .present (shows_iff_map.mpr ?_)
      rw [map_significant_of_bareOf hback isSeen_keyword?]
      exact shows_iff_map.mp hword

/-- What looks like a value and a mark is one. -/
theorem ValueParts.of_bareOf (h : ValueParts value important components)
    (hlook : bareOf others = bareOf components) :
    ∃ again, bareOf again = bareOf value ∧ ValueParts again important others := by
  cases h with
  | intro hvalue hmark =>
      obtain ⟨again, tail, rfl, hagain, htail⟩ := bareOf_eq_append hlook
      exact ⟨again, hagain, .intro (Component.isDelimiter_eq_false_of_bareOf hagain hvalue)
        (hmark.of_bareOf htail)⟩

/-- What looks like the parts of a declaration is made of such parts. -/
theorem Parts.of_bareOf (h : Parts name value important components)
    (hlook : bareOf others = bareOf components) :
    ∃ again, bareOf again = bareOf value ∧ Parts name again important others := by
  cases h with
  | intro hname hrest =>
      obtain ⟨front, back, rfl, hfront, hback⟩ := bareOf_eq_append hlook
      obtain ⟨⟨_, _, _⟩, rest, rfl, rfl, -, hbehind⟩ := bareOf_eq_leaf_cons hback
      obtain ⟨again, hagain, hparts⟩ := hrest.of_bareOf hbehind
      refine ⟨again, hagain, .intro (shows_iff_map.mpr ?_) hparts⟩
      rw [map_significant_of_bareOf hfront isSeen_identName?]
      exact shows_iff_map.mp hname

/-- A value is allowed where one is that it looks like. -/
theorem Allowed.of_bareOf (h : Allowed context name value important)
    (hlook : bareOf others = bareOf value) : Allowed context name others important :=
  ⟨(Component.errorTokenOf?_eq_none_of_bareOf hlook).mpr h.clean,
    fun hempty => h.custom_of_empty ((Component.significant_eq_nil_of_bareOf hlook).mp hempty),
    h.ne_keyframe⟩

/-- Values that look alike make up the same declaration. -/
theorem ofParts_of_bareOf (hlook : bareOf others = bareOf value) :
    ofParts name others important = ofParts name value important := by
  rw [ofParts, PropertyValue.ofComponents_of_bareOf hlook, ofParts]

/-- What looks like a declaration is the same one. -/
theorem Spelled.of_bareOf (h : Spelled context d components)
    (hlook : bareOf others = bareOf components) : Spelled context d others := by
  obtain ⟨name, value, important, hparts, hallowed, rfl⟩ := h
  obtain ⟨again, hagain, hothers⟩ := hparts.of_bareOf hlook
  exact ⟨name, again, important, hothers, hallowed.of_bareOf hagain,
    (ofParts_of_bareOf hagain).symm⟩

/-- A declaration is read behind its name and colon. -/
theorem reads_afterColon (hparts : ValueParts value important components)
    (hallowed : Allowed context name value important) :
    Reads (afterColon context name) components (Exactly (ofParts name value important) []) := by
  intro c hc
  obtain ⟨again, hagain, hothers⟩ := hparts.of_bareOf hc
  exact ⟨_, _, afterColon_eq_ok_iff.mpr
    ⟨⟨again, important, hothers, hallowed.of_bareOf hagain, rfl⟩, rfl⟩, [], rfl,
    ofParts_of_bareOf hagain, rfl⟩

end Alike

/-- The text of a declaration is its name, and what is written behind the colon. -/
theorem css_eq (d : Declaration) :
    d.css = d.fullName ++ ":" ++ (d.value.css ++ d.importanceCss) := by
  simp [css, fullName, String.append_assoc]

/-- The name of a property is the one of the same property. -/
theorem nameParts_propertyName (name : String) :
    nameParts (propertyName name) = nameParts name := by
  unfold propertyName nameParts
  split <;> rename_i hcustom
  · rfl
  · rw [if_neg (by rwa [isCustomName_lowerCase]), Text.lowerCase_lowerCase]

/-- What is written for the importance of a declaration. -/
def importanceComponents (important : Bool) : List Component :=
  if important then [written (.delim '!'), written (.ident "important")] else []

/-- The mark of importance is read from its text. -/
theorem captured_importance (d : Declaration) :
    Captured (importanceComponents d.important) d.importanceCss.toList := by
  rw [importanceComponents, importanceCss]
  split
  · have hword : IsName "important" ∧ identifierText "important" = "important" := by decide
    have hleaf : (Token.written (.delim '!')).IsLeaf := ⟨rfl, fun _ h => by cases h⟩
    exact (Component.captured_word hword).cons hleaf Token.isPlain_exclamation rfl fun _ _ =>
      Token.readsBefore_exclamation _
  · exact Component.captured_nil

/-- The mark of importance is an ending. -/
theorem ends_importance (d : Declaration) {rest : List Char} (hrest : Ends rest) :
    Ends (d.importanceCss.toList ++ rest) := by
  rw [importanceCss]
  split
  · have hmark : Ends ('!' :: 'i' :: ("mportant".toList ++ rest)) := .cons (by decide) (by simp)
    exact hmark
  · exact hrest

/-- What is written for the importance is the mark of it. -/
theorem mark_importance (important : Bool) : Mark important (importanceComponents important) := by
  have hword : keyword? (written (.ident "important")) = some "important" :=
    congrArg some (Text.lowerCase_of_isSmallAscii (by decide))
  cases important with
  | false => exact .absent
  | true => exact .present ⟨written (.ident "important"), rfl, hword⟩

/-- What stands behind the colon is read from what is written there for the declaration, and as the
declaration. -/
structure ReadsBack (context : Context) (d : Declaration) (back : List Component) : Prop where
  captured : Captured back (d.value.css ++ d.importanceCss).toList
  parts : ∃ value important, ValueParts value important back ∧
    Allowed context d.fullName value important ∧ d = ofParts d.fullName value important

/-- A declaration is read behind its name and its colon from what is written there. -/
theorem ReadsBack.reads {back : List Component} (h : ReadsBack context d back) :
    Reads (afterColon context d.fullName) back (Exactly d []) := by
  obtain ⟨value, important, hparts, hallowed, hd⟩ := h.parts
  have hread := reads_afterColon hparts hallowed
  rwa [← hd] at hread

/-- What is written for the value and the importance of a declaration is read behind its name. -/
theorem exists_readsBack {name : String} {value rest : List Component} {important : Bool}
    (hparts : ValueParts value important rest) (hallowed : Allowed context name value important)
    (hgood : AreTight value) :
    ∃ back, ReadsBack context (ofParts name value important) back ∧
      ∀ delimiters, '!' ∉ delimiters → (∀ c ∈ value, isDelimiter delimiters c = false) →
        ∀ c ∈ back, isDelimiter delimiters c = false := by
  obtain ⟨values, hrenders⟩ := PropertyValue.exists_renders hgood hallowed.clean
  have hfree : ∀ c ∈ value, isDelimiter ['!'] c = false := by
    cases hparts with | intro hvalue _ => exact hvalue
  refine ⟨values ++ importanceComponents important, ⟨?_, ?_⟩, fun delimiters hmark hnone c hc => ?_⟩
  · rw [String.toList_append]
    exact hrenders.captured.append (captured_importance (ofParts name value important))
      fun rest => ends_importance _
  · have hagain : Allowed context (propertyName name) values important :=
      ⟨hrenders.clean, fun hempty => by
        rw [nameParts_propertyName]
        exact hallowed.custom_of_empty (hrenders.nothing hempty), hallowed.ne_keyframe⟩
    have hsame : ofParts (propertyName name) values important = ofParts name value important := by
      rw [ofParts, nameParts_propertyName, hrenders.value, ofParts]
    rw [fullName_ofParts]
    exact ⟨values, important, .intro (hrenders.free hfree) (mark_importance important), hagain,
      hsame.symm⟩
  · rcases List.mem_append.mp hc with hc | hc
    · exact hrenders.free hnone c hc
    · rw [importanceComponents] at hc
      split at hc
      · rcases List.mem_cons.mp hc with rfl | hc
        · simpa [isDelimiter, Component.delimiter?, written, Token.written] using hmark
        · rw [List.mem_singleton.mp hc]
          rfl
      · cases hc

/-- The name of a declaration of a source is a name if it needs no escapes. -/
theorem Spelled.isName_fullName (h : Spelled context d components) (hgood : AreTight components)
    (hwritable : d.IsWritable) : IsName d.fullName := by
  obtain ⟨name, value, important, hparts, -, rfl⟩ := h
  obtain ⟨gap, component, rest, rfl, -, hname, -⟩ := parts_iff.mp hparts
  have hsound : component.All (Component.AllTokens fun t => t.kind.Sound) :=
    Hereditary.of_mem hgood.lexed.sound (by simp)
  have hne : name ≠ "" := by
    unfold identName? at hname
    split at hname
    · cases hname
      exact fun hempty => hsound.token.ne_nil (by rw [hempty]; rfl)
    · cases hname
  refine isName_of_identifierText ?_ hwritable
  rw [fullName_ofParts]
  exact propertyName_ne_empty hne

/-- What is written behind the name of a declaration of a source is read as the declaration. -/
theorem Spelled.exists_readsBack (h : Spelled context d components) (hgood : AreTight components) :
    ∃ back, ReadsBack context d back ∧
      ∀ delimiters, '!' ∉ delimiters → (∀ c ∈ components, isDelimiter delimiters c = false) →
        ∀ c ∈ back, isDelimiter delimiters c = false := by
  obtain ⟨name, value, important, hparts, hallowed, rfl⟩ := h
  have hpart := hparts.value_infix
  obtain ⟨-, hvalue⟩ := hparts
  obtain ⟨back, hback, hfree⟩ :=
    exists_readsBack hvalue hallowed (Hereditary.of_infix hgood hpart)
  exact ⟨back, hback, fun delimiters hmark hnone =>
    hfree delimiters hmark fun c hc => hnone c (hpart.subset hc)⟩

/-- What is written for a declaration spells it. -/
theorem ReadsBack.spelled {back : List Component} (h : ReadsBack context d back) :
    Spelled context d (written (.ident d.fullName) :: written .colon :: back) := by
  obtain ⟨value, important, hparts, hallowed, hd⟩ := h.parts
  have hname : Shows identName? d.fullName [written (.ident d.fullName)] :=
    ⟨written (.ident d.fullName), rfl, rfl⟩
  exact ⟨d.fullName, value, important, .intro hname hparts, hallowed, hd⟩

/-- A declaration whose name needs no escapes is captured as what is written for it. -/
theorem ReadsBack.captured_css {back : List Component} (h : ReadsBack context d back)
    (hname : IsName d.fullName) (hwritable : d.IsWritable) :
    Captured (written (.ident d.fullName) :: written .colon :: back) d.css.toList := by
  have hcolon : Captured (written .colon :: back)
      (":".toList ++ (d.value.css ++ d.importanceCss).toList) :=
    h.captured.cons ⟨rfl, nofun⟩ Token.isPlain_colon rfl fun _ _ => Token.readsBefore_colon _
  have hleaf : (Token.written (.ident d.fullName)).IsLeaf := ⟨rfl, nofun⟩
  have hall := hcolon.cons hleaf (Token.isPlain_ident _) rfl fun rest _ =>
    Token.readsBefore_ident hname (delimited_cons (by decide) _)
  rw [Token.Kind.css, hwritable] at hall
  have htext : d.css.toList = d.fullName.toList ++
      (":".toList ++ (d.value.css ++ d.importanceCss).toList) := by
    rw [css_eq, String.toList_append, String.toList_append, List.append_assoc]
  rwa [htext]

/-- A declaration of a tight source whose name needs no escapes is written as a text that spells
it. -/
theorem Spelled.exists_written (h : Spelled context d components) (hgood : AreTight components)
    (hwritable : d.IsWritable) : ∃ back,
      Captured (written (.ident d.fullName) :: written .colon :: back) d.css.toList ∧
      Spelled context d (written (.ident d.fullName) :: written .colon :: back) := by
  obtain ⟨back, hback, -⟩ := h.exists_readsBack hgood
  exact ⟨back, hback.captured_css (h.isName_fullName hgood hwritable) hwritable, hback.spelled⟩

end Declaration

namespace Declarations

open Declaration (ReadsBack)

/-- Written declarations are read from the text of them all. -/
theorem readFrom_css {context : Context} {list : List Declaration}
    {back : Declaration → List Component}
    (h : ∀ d ∈ list, ReadsBack context d (back d) ∧ IsName d.fullName ∧ d.IsWritable) :
    ReadFrom (list.flatMap fun d => Component.declaration d.fullName (back d)) (css ⟨list⟩) := by
  induction list with
  | nil => exact Component.readFrom_nil
  | cons d list ih =>
      obtain ⟨⟨hback, hname, hwritable⟩, hothers⟩ := List.forall_mem_cons.mp h
      have hbefore := (hback.captured_css hname hwritable).before (ih hothers).semicolon
        fun rest => by
          rw [String.toList_append, List.append_assoc]
          exact .cons (by decide) nofun
      have htext : css ⟨d :: list⟩ = d.css ++ (";" ++ css ⟨list⟩) := by
        simp [css, String.append_assoc]
      rw [String.ofList_toList, ← htext] at hbefore
      simpa [Component.declaration, written] using hbefore

/-- The declarations of a tight source, if their names need no escapes, are read back from their
text. -/
theorem gives_written (context : Context) :
    Gives AreTight (parser context) fun list => (∀ d ∈ list.declarations, d.IsWritable) →
      ∃ values, ReadFrom values list.css ∧ Reads (parser context) values (Exactly list []) := by
  intro c list after hgood h hwritable
  have hentries := parser_eq_ok_iff.mp ⟨after, h⟩
  have hback : ∀ d ∈ list.declarations, ∃ back, (ReadsBack context d back ∧ IsName d.fullName ∧
      d.IsWritable) ∧ ∀ c ∈ back, c.delimiter? ≠ some ';' := by
    intro d hd
    obtain ⟨segment, hsegment, hspelled⟩ := exists_mem_of_forall₂ hentries hd
    have hmem := (List.mem_filter.mp hsegment).1
    have hpart := Hereditary.of_infix hgood (Component.contents_infix hmem)
    obtain ⟨back, hreads, hfree⟩ := hspelled.exists_readsBack hpart
    refine ⟨back, ⟨hreads, hspelled.isName_fullName hpart (hwritable d hd), hwritable d hd⟩,
      fun c hc hsemicolon => ?_⟩
    have hnone := hfree [';'] (by decide) (Component.isEnd_of_mem_contents hmem) c hc
    simp [isDelimiter, hsemicolon] at hnone
  choose! back hback hfree using hback
  refine ⟨_, readFrom_css hback, ?_⟩
  have hread : ∀ d ∈ list.declarations,
      ReadsAll (Declaration.afterColon context d.fullName) (back d) d :=
    fun d hd => ⟨[], rfl, (hback d hd).1.reads⟩
  exact (reads_declarationList hread hfree).andThen (reads_pure _ _)

end Declarations

end Css
