import Css.Proofs.Component.Nesting
import Css.Proofs.Supports.Alike
import Css.Proofs.Supports.Canonical

/-!
# What is written for conditions

A condition is written as a text that spells it, `Condition.Spelled.exists_written`, if the names of
its declarations need no escapes and the texts that it keeps are whole, `Condition.IsWritable`.
Brackets, `not` and the words that join are written in one way. What is kept of a source is read
back as it is.
-/

namespace Css

open Css.Parser
open Component (significant written space bareOf AreTight Spells ReadFrom AreGrouped AreOpen)

/-- No bracket is left open in the text. -/
def IsWholeText (text : String) : Prop :=
  ∃ source, Source.ofString text = .ok source ∧ AreGrouped none (Component.ofTokens source.tokens)

namespace Component

/-- A component of a source whose text leaves no bracket open is grouped. -/
theorem StandsBefore.isGrouped_of_isWholeText {c : Component} {closer : Option Bracket}
    {rest : List Char} (h : StandsBefore closer rest [c]) (hplain : AllTokens Token.IsPlain [c])
    (hwhole : IsWholeText (String.ofList c.text)) : c.IsGrouped closer := by
  rcases areOpen_singleton.mp h.areOpen with hgrouped | hcut
  · exact hgrouped
  have hopen : AreOpen none [c] := areOpen_singleton.mpr (.inr hcut)
  obtain rfl : rest = [] := by
    by_contra hne
    exact absurd (h.grouped hne).1 (hcut.not_isGrouped closer)
  obtain ⟨source, hsource, hgrouped⟩ := hwhole
  have htext : (String.ofList c.text).toList = Token.textOf (tokensOf [c]) := by
    rw [String.toList_ofList, textOf_tokensOf, textOf, textOf, List.append_nil]
  obtain ⟨again, hagain, hbare⟩ := h.readBack.exists_ofString hplain htext
  obtain rfl : source = again := by
    rw [hsource] at hagain
    exact Except.ok.inj hagain
  have hlook : bareOf (ofTokens source.tokens) = bareOf [c] := by
    rw [bareOf_ofTokens, hbare, ← bareOf_ofTokens, hopen.ofTokens_tokensOf]
  rw [← areGrouped_saidOf, ← saidOf_bareOf, hlook, saidOf_bareOf, areGrouped_saidOf] at hgrouped
  exact absurd hgrouped.1 (hcut.not_isGrouped none)

/-- The components stand in a source, and the end of the source cuts none of them off. -/
structure AreWhole (components : List Component) : Prop where
  lexed : Lexed components
  grouped : ∃ closer, AreGrouped closer components

instance : Hereditary AreWhole where
  of_infix := by
    rintro components part ⟨hlexed, closer, hgrouped⟩ ⟨front, back, rfl⟩
    rw [areGrouped_append, areGrouped_append] at hgrouped
    exact ⟨Hereditary.of_infix hlexed ⟨front, back, rfl⟩, closer, hgrouped.1.2⟩
  contents := by
    rintro opening contents closing ⟨hlexed, closer, ⟨⟨bracket, -, hcontents, -⟩, -⟩⟩
    exact ⟨Hereditary.contents hlexed, _, hcontents⟩

/-- What stands in front of a component of a source is whole. -/
theorem Lexed.areWhole_of_append {front back : List Component} {c : Component}
    (h : Lexed (front ++ c :: back)) : AreWhole front := by
  obtain ⟨closer, rest, hstands⟩ := h.stands
  obtain ⟨hfront, hback⟩ := hstands.of_append
  exact ⟨Hereditary.of_infix h (List.prefix_append front _).isInfix, closer,
    hfront.grouped (textOf_tokensOf_ne_nil hback.readBack (List.cons_ne_nil c back))⟩

/-- The text of a whole group without error tokens leaves no bracket open. -/
theorem AreWhole.isWholeText {opening : Token} {contents : List Component} {closing : Option Token}
    (h : AreWhole [.group opening contents closing])
    (herror : (group opening contents closing).errorToken? = none) :
    IsWholeText (String.ofList (group opening contents closing).text) := by
  obtain ⟨hlexed, closer, ⟨⟨bracket, hopening, hcontents, t, rfl, hkind⟩, -⟩⟩ := h
  obtain ⟨_, rest, hstands⟩ := hlexed.stands
  obtain ⟨source, hsource, hlook⟩ := (hstands.readFrom_group hlexed.plain herror).ofString
  refine ⟨source, hsource, ?_⟩
  have hgrouped : AreGrouped none [group opening contents (some t)] :=
    ⟨⟨bracket, hopening, hcontents, t, rfl, hkind⟩, trivial⟩
  change bareOf (ofTokens source.tokens) = _ at hlook
  rwa [← areGrouped_saidOf, ← saidOf_bareOf, hlook, saidOf_bareOf, areGrouped_saidOf]

end Component

open Component (AreWhole)

namespace Condition

variable {context : Context}

/-- The names of the declarations in the condition need no escapes, and no text that is kept leaves
a bracket open. -/
def IsWritable (c : Condition) : Prop := c.Forall Declaration.IsWritable IsWholeText

/-- The component spells the term, in its text. -/
structure Rewrites (context : Context) (t : Condition) (component : Component) : Prop where
  spells : Spells [component] t.css
  term : termOf? context component = some t

/-- A name in front of a colon starts no condition. -/
theorem not_spelled_of_leaves {c : Condition} {t u : Token} {rest : List Component} :
    ¬Spelled context c (.leaf t :: .leaf u :: rest) := by
  rintro ⟨form, terms, children, hspells, hterms, -⟩
  generalize hrow : Component.leaf t :: Component.leaf u :: rest = row at hspells
  cases hspells with
  | negation hword =>
      cases hrow
      rcases hterms with _ | ⟨hterm, _⟩
      cases hterm
  | single term => cases hrow
  | joined hsome hwords =>
      obtain ⟨rfl, -⟩ := List.cons.inj hrow
      rcases hterms with _ | ⟨hterm, _⟩
      cases hterm

/-- Brackets make a block. -/
theorem isBlock_inBrackets (components : List Component) :
    isBlock .round (inBrackets components) = true := rfl

/-- Brackets start visibly. -/
theorem spells_inBrackets {components : List Component} {text : String}
    (h : ReadFrom [inBrackets components] (Bracket.round.around text)) :
    Spells [inBrackets components] ("(" ++ text ++ ")") where
  toReadFrom := h
  visible := ⟨'(', text.toList ++ [')'], by simp, rfl⟩

/-- What stands for a condition is in brackets around what spells it. -/
theorem termOf?_inBrackets {components : List Component} {c : Condition}
    (h : Spelled context c (significant components)) :
    termOf? context (inBrackets components) = some (.parenthesized c) := by
  have hinside : result? (inside (inBrackets components) (parser context)) = some c :=
    result?_inside_parser_eq_some_iff.mpr h
  rw [termOf?_eq, if_pos (isBlock_inBrackets _), hinside]
  rfl

/-- What stands for a declaration is in brackets around what spells it, since no condition starts
with a name and a colon. -/
theorem termOf?_inBrackets_declaration {t u : Token} {back : List Component} {d : Declaration}
    (ht : (Component.leaf t).isFiller = false) (hu : (Component.leaf u).isFiller = false)
    (h : Declaration.Spelled context d (.leaf t :: .leaf u :: back)) :
    termOf? context (inBrackets (.leaf t :: .leaf u :: back)) = some (.declaration d) := by
  have hcondition : result? (inside (inBrackets (.leaf t :: .leaf u :: back)) (parser context)) =
      none := by
    refine Option.eq_none_iff_forall_ne_some.mpr fun c hc => ?_
    have hspelled := result?_inside_parser_eq_some_iff.mp hc
    rw [Component.significant_cons ht, Component.significant_cons hu] at hspelled
    exact not_spelled_of_leaves hspelled
  have hdeclaration : result? (inside (inBrackets (.leaf t :: .leaf u :: back))
      (Declaration.parser context)) = some d := result?_inside_declaration_eq_some_iff.mpr h
  rw [termOf?_eq, if_pos (isBlock_inBrackets _), hcondition, hdeclaration]
  rfl

/-- What is kept of a source is read from its text as it is, if the text leaves no bracket open. -/
theorem rewrites_of_kept? {t : Condition} {component : Component}
    (hgroup : isBlock .round component = true ∨ isFunction component = true)
    (h : termOf? context component = some t) (hkept : kept? component = some t)
    (hgood : AreTight [component]) (hwritable : t.IsWritable) : Rewrites context t component := by
  obtain ⟨⟨⟨closer, rest, hstands⟩, hsound, hplain⟩, -⟩ := hgood
  rw [kept?] at hkept
  split at hkept
  · rename_i hclean
    cases hkept
    have hgrouped := hstands.isGrouped_of_isWholeText hplain hwritable
    obtain ⟨opening, contents, closing, rfl⟩ := exists_group hgroup
    obtain ⟨bracket, hopening, -, u, rfl, -⟩ := hgrouped
    refine ⟨⟨hstands.readFrom_group hplain hclean, ?_⟩, h⟩
    obtain ⟨c, tail, htext, hscan⟩ : opening.ReadsBefore _ := hstands.readBack.1
    refine ⟨c, _, by rw [css, String.toList_ofList, Component.text, htext]; rfl, ?_⟩
    by_contra hspace
    obtain ⟨text, hkind⟩ : ∃ text, opening.kind = .space text :=
      hstands.readBack.1.kind_of_isSpace htext (by simpa using hspace)
    rw [hkind] at hopening
    cases hopening
  · cases hkept

/-- What a term of a source is written as spells it, if what is written for the condition in its
brackets does. -/
theorem exists_rewrites {t : Condition} {component : Component}
    (h : termOf? context component = some t) (hgood : AreTight [component])
    (hwritable : t.IsWritable)
    (hnested : ∀ opening contents closing c, component = .group opening contents closing →
      Spelled context c (significant contents) → c.IsWritable →
      ∃ values, Spells values c.css ∧ Spelled context c (significant values)) :
    ∃ again, Rewrites context t again := by
  have hterm := h
  rw [termOf?_eq] at h
  split at h
  · rename_i hblock
    obtain ⟨opening, contents, closing, rfl⟩ := exists_group (.inl hblock)
    cases hcondition : result? (inside (.group opening contents closing) (parser context)) with
    | some c =>
        obtain rfl : .parenthesized c = t := by simpa [hcondition] using h
        obtain ⟨values, hspells, hspelled⟩ := hnested opening contents closing c rfl
          (result?_inside_parser_eq_some_iff.mp hcondition) hwritable
        exact ⟨inBrackets values, spells_inBrackets (hspells.toReadFrom.around .round),
          termOf?_inBrackets hspelled⟩
    | none =>
        cases hdeclaration :
            result? (inside (.group opening contents closing) (Declaration.parser context)) with
        | some d =>
            obtain rfl : .declaration d = t := by simpa [hcondition, hdeclaration] using h
            obtain ⟨back, hcaptured, hspelled⟩ :=
              (result?_inside_declaration_eq_some_iff.mp hdeclaration).exists_written
                (Hereditary.contents hgood) hwritable
            have haround := hcaptured.around .round
            rw [String.ofList_toList] at haround
            exact ⟨inBrackets _, spells_inBrackets haround,
              termOf?_inBrackets_declaration rfl rfl hspelled⟩
        | none =>
            have hkept : kept? (.group opening contents closing) = some t := by
              simpa [hcondition, hdeclaration] using h
            exact ⟨_, rewrites_of_kept? (.inl hblock) hterm hkept hgood hwritable⟩
  · split at h
    · rename_i hfunction
      exact ⟨_, rewrites_of_kept? (.inr hfunction) hterm h hgood hwritable⟩
    · cases h

/-- The texts of conditions are those of each of them. -/
theorem cssOf_eq_map (cs : List Condition) : cssOf cs = cs.map css := by
  induction cs with
  | nil => rfl
  | cons c cs ih => rw [cssOf, ih, List.map_cons]

/-- The parts of a condition that is written are written. -/
theorem Form.Makes.isWritable {form : Form} {children : List Condition} {c : Condition}
    (h : form.Makes children c) (hwritable : c.IsWritable) :
    ∀ child ∈ children, child.IsWritable := by
  cases h with
  | negation c => simpa [IsWritable, Forall] using hwritable
  | single c => simpa using hwritable
  | conjunction hcs => exact forallIn_iff.mp hwritable
  | disjunction hcs => exact forallIn_iff.mp hwritable

/-- The component of a term is no filler. -/
theorem isFiller_of_termOf? {component : Component} {t : Condition}
    (h : termOf? context component = some t) : component.isFiller = false := by
  cases component with
  | leaf token => cases h
  | group => rfl

/-- The word that joins terms is written without escapes. -/
theorem Connective.word_spec (connective : Connective) :
    IsName (Vocabulary.word connective) ∧
      identifierText (Vocabulary.word connective) = Vocabulary.word connective := by
  cases connective <;> decide

/-- The text of terms that are joined. -/
theorem css_join (connective : Connective) (cs : List Condition) :
    (join connective cs).css =
      (" " ++ Vocabulary.word connective ++ " ").intercalate (cs.map css) := by
  cases connective <;> rw [join, css, cssOf_eq_map] <;> rfl

/-- Two or more conditions are joined by a word. -/
theorem Form.makes_join (connective : Connective) {cs : List Condition} (h : 2 ≤ cs.length) :
    (Form.joined connective).Makes cs (join connective cs) := by
  cases connective with
  | and => exact .conjunction h
  | or => exact .disjunction h

/-- A term with `not` in front of it is spelled by what is written for it. -/
theorem Rewrites.exists_negation {t : Condition} {component : Component}
    (h : Rewrites context t component) : ∃ values, Spells values (negation t).css ∧
      Spelled context (negation t) (significant values) := by
  have hword : IsName "not" ∧ identifierText "not" = "not" := by decide
  have hnot : keyword? (written (.ident "not")) = some "not" :=
    congrArg some (Text.lowerCase_of_isSmallAscii (by decide))
  have hrow : significant [written (.ident "not"), space, component] =
      written (.ident "not") :: significant [component] := rfl
  refine ⟨[written (.ident "not"), space, component],
    (Component.spells_word hword).append_space h.spells, .negation, [component], [t], ?_,
    .cons h.term .nil, .negation t⟩
  rw [hrow, Component.significant_cons (isFiller_of_termOf? h.term)]
  exact .negation hnot

/-- Components with a word and spaces in front of each are significant with the word. -/
theorem significant_joined {f : Condition → Component} {word : String} {cs : List Condition}
    (h : ∀ c ∈ cs, (f c).isFiller = false) :
    significant (cs.flatMap fun c => [space, written (.ident word), space] ++ [f c]) =
      (cs.map fun c => (written (.ident word), f c)).flatMap fun other => [other.1, other.2] := by
  induction cs with
  | nil => rfl
  | cons c cs ih =>
      obtain ⟨hc, hcs⟩ := List.forall_mem_cons.mp h
      have hrow : significant ([space, written (.ident word), space] ++ [f c]) =
          written (.ident word) :: significant [f c] := rfl
      rw [List.flatMap_cons, Component.significant_append, ih hcs, hrow,
        Component.significant_cons hc]
      rfl

/-- Terms that are joined are spelled by what is written for them. -/
theorem exists_join {connective : Connective} {first second : Condition} {others : List Condition}
    {again : Condition → Component}
    (h : ∀ child ∈ first :: second :: others, Rewrites context child (again child)) :
    ∃ values, Spells values (join connective (first :: second :: others)).css ∧
      Spelled context (join connective (first :: second :: others)) (significant values) := by
  have hjoined {a b : List Component} {x y : String} (ha : Spells a x) (hb : Spells b y) :
      Spells (a ++ ([space, written (.ident (Vocabulary.word connective)), space] ++ b))
        (x ++ (" " ++ Vocabulary.word connective ++ " ") ++ y) := by
    have hall := ha.append_space ((Component.spells_word connective.word_spec).append_space hb)
    simpa [written, space, String.append_assoc] using hall
  have hword : keyword? (written (.ident (Vocabulary.word connective))) =
      some (Vocabulary.word connective) := by
    cases connective <;> exact congrArg some (Text.lowerCase_of_isSmallAscii (by decide))
  have hfiller : ∀ child ∈ first :: second :: others, (again child).isFiller = false :=
    fun child hmem => isFiller_of_termOf? (h child hmem).term
  refine ⟨[again first] ++ (second :: others).flatMap fun child =>
      [space, written (.ident (Vocabulary.word connective)), space] ++ [again child], ?_,
    .joined connective, (first :: second :: others).map again, _, ?_, ?_,
    Form.makes_join connective (by simp)⟩
  · rw [css_join]
    exact Component.spells_intercalate hjoined first (second :: others) fun child hmem =>
      (h child hmem).spells
  · obtain ⟨hfirst, hothers⟩ := List.forall_mem_cons.mp hfiller
    rw [List.singleton_append, Component.significant_cons hfirst, significant_joined hothers]
    let pair := fun child => (written (.ident (Vocabulary.word connective)), again child)
    have hwords : ∀ other ∈ (second :: others).map pair,
        keyword? other.1 = some (Vocabulary.word connective) := by
      intro other hother
      obtain ⟨child, -, rfl⟩ := List.mem_map.mp hother
      exact hword
    have hterms : ((second :: others).map pair).map Prod.snd = (second :: others).map again := by
      rw [List.map_map]
      rfl
    rw [List.map_cons, ← hterms]
    exact .joined (by simp) hwords
  · exact List.forall₂_map_left_iff.mpr
      (List.forall₂_same.mpr fun child hmem => (h child hmem).term)

/-- What terms are written as makes up a condition as they do. -/
theorem exists_written_of_makes {form : Form} {children : List Condition} {c : Condition}
    (h : form.Makes children c)
    (hterms : ∀ child ∈ children, ∃ again, Rewrites context child again) :
    ∃ values, Spells values c.css ∧ Spelled context c (significant values) := by
  choose! again hagain using hterms
  have hjoin (connective : Connective) (hlength : 2 ≤ children.length) : ∃ values,
      Spells values (join connective children).css ∧
        Spelled context (join connective children) (significant values) := by
    obtain _ | ⟨first, _ | ⟨second, others⟩⟩ := children
    · cases hlength
    · simp at hlength
    · exact exists_join hagain
  cases h with
  | negation c => exact (hagain c (List.mem_singleton_self c)).exists_negation
  | single c =>
      have hterm := hagain c (List.mem_singleton_self c)
      refine ⟨[again c], hterm.spells, .single, [again c], [c], ?_,
        .cons hterm.term .nil, .single c⟩
      rw [Component.significant_cons (isFiller_of_termOf? hterm.term)]
      exact .single _
  | conjunction hcs => exact hjoin .and hcs
  | disjunction hcs => exact hjoin .or hcs

/-- A condition of a tight source whose declarations and kept texts can be written is written as a
text that spells it. -/
theorem Spelled.exists_written {components : List Component} {c : Condition}
    (h : Spelled context c (significant components)) (hgood : AreTight components)
    (hwritable : c.IsWritable) :
    ∃ values, Spells values c.css ∧ Spelled context c (significant values) := by
  induction hdepth : Component.depthOf components using Nat.strong_induction_on
    generalizing components c with
  | _ n ih =>
    obtain ⟨form, terms, children, hspells, hterms, hmakes⟩ := h
    refine exists_written_of_makes hmakes fun child hchild => ?_
    obtain ⟨term, hterm, htermOf⟩ := exists_mem_of_forall₂ hterms hchild
    have hmem : term ∈ components := (List.mem_filter.mp (hspells.mem term hterm)).1
    have hterm : AreTight [term] := Hereditary.of_mem hgood hmem
    refine exists_rewrites htermOf hterm (hmakes.isWritable hwritable child hchild) ?_
    -- what a term holds is nested less deeply
    rintro opening contents closing nested rfl hspelled hnested
    have hless : Component.depthOf contents < n := by
      have hle := Component.depth_le_of_mem hmem
      rw [Component.depth] at hle
      omega
    exact ih _ hless hspelled (Hereditary.contents hterm) hnested rfl

/-- A term ends nothing. -/
theorem delimiter?_of_termOf? {component : Component} {t : Condition}
    (h : termOf? context component = some t) : component.delimiter? = none := by
  rw [termOf?_eq] at h
  split at h
  · rename_i hblock
    obtain ⟨⟨kind, text, start⟩, contents, closing, rfl⟩ := exists_group (.inl hblock)
    cases kind with
    | opening bracket =>
        obtain rfl : bracket = .round := of_decide_eq_true hblock
        rfl
    | _ => cases hblock
  · split at h
    · rename_i hfunction
      obtain ⟨⟨kind, text, start⟩, contents, closing, rfl⟩ := exists_group (.inr hfunction)
      cases kind <;> first | rfl | cases hfunction
    · cases h

/-- Neither words nor terms end a part. -/
theorem Spelled.isDelimiter_eq_false {components : List Component} {c : Condition}
    (h : Spelled context c (significant components)) (delimiters : List Char) :
    ∀ component ∈ components, isDelimiter delimiters component = false := by
  obtain ⟨form, terms, children, hspells, hterms, -⟩ := h
  have hterm : ∀ term ∈ terms, isDelimiter delimiters term = false := by
    intro term hmem
    obtain ⟨child, -, htermOf⟩ :=
      exists_mem_of_forall₂ (List.Forall₂.flip (R := flip _) hterms) hmem
    rw [isDelimiter, delimiter?_of_termOf? htermOf]
    rfl
  have hword {component : Component} {word : String} (h : keyword? component = some word) :
      isDelimiter delimiters component = false := by
    obtain ⟨name, hname, -⟩ := Option.map_eq_some_iff.mp h
    obtain ⟨⟨_, text, start⟩, rfl, rfl⟩ := identName?_eq_some hname
    rfl
  intro component hmem
  refine Bool.eq_false_iff.mpr fun hend => ?_
  have hsignificant : component ∈ significant components :=
    List.mem_filter.mpr ⟨hmem, by simp [isFiller_of_isDelimiter hend]⟩
  rw [hspells.forall_mem hword hterm component hsignificant] at hend
  cases hend

/-- A condition of whole components whose declarations can be written can be written. -/
theorem isWritable_of_read {components : List Component} {stop : Position} {c : Condition}
    {last : Cursor} (h : entirely (parser context) ⟨components, stop⟩ = .ok c last)
    (hwhole : AreWhole components) (hdeclared : c.Forall Declaration.IsWritable fun _ => True) :
    c.IsWritable := by
  have hkept : Yields AreWhole (parser context) (Forall (fun _ => True) IsWholeText) :=
    parser_yields Component.AreWhole.isWholeText context
  have hcursor : Cursor.All AreWhole ⟨components, stop⟩ := hwhole
  exact (forall_iff c).mpr ⟨hdeclared, (hkept.entirely hcursor h).1⟩

end Condition

end Css
