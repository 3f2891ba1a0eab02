import Css.Proofs.Component.Tight

/-!
# What kept text is read as

What is read from the text that is kept of components says what they say, closed and without the
white space at its ends: it `Echoes` them. Whatever is seen of components without their texts is
seen of their echo, `Component.Echoes.map_significant`.
-/

namespace Css

open Css.Parser
open Component (significant)

namespace Component

/-- What is seen of a component without its text, and does not depend on whether it is closed. -/
structure IsSeen {β : Type} (f : Component → β) : Prop where
  said : ∀ c, f c.said = f c
  closed : ∀ c, f c.closed = f c

/-- What is seen without texts is seen without places. -/
theorem IsSeen.bare {β : Type} {f : Component → β} (h : IsSeen f) (c : Component) :
    f c.bare = f c := by
  rw [← h.said, said_bare, h.said]

/-- What is seen does not depend on how a token is closed. -/
theorem IsSeen.of_leaf {β : Type} {f : Component → β} (hsaid : ∀ c, f c.said = f c)
    (hgroup : ∀ c opening contents closing, c = group opening contents closing → f c.closed = f c)
    (hleaf : ∀ t : Token, f (closedLeaf t.kind) = f (leaf t)) : IsSeen f where
  said := hsaid
  closed c := by
    cases c with
    | group opening contents closing => exact hgroup _ opening contents closing rfl
    | leaf t =>
        rw [Component.closed]
        split
        · rfl
        · exact hleaf t

/-- Fillers are seen. -/
theorem isSeen_isFiller : IsSeen isFiller :=
  .of_leaf (fun c => by cases c <;> rfl) (by rintro _ _ _ _ rfl; rfl)
    fun ⟨kind, _, _⟩ => by cases kind <;> rfl

/-- What is seen of the kind of a token alone, and of no group, is seen. -/
theorem IsSeen.of_kind {β : Type} {f : Component → β} (otherwise : β)
    (hleaf : ∀ t u : Token, t.kind = u.kind → f (leaf t) = f (leaf u))
    (hgroup : ∀ opening contents closing, f (group opening contents closing) = otherwise)
    (hclosed : ∀ t : Token, f (closedLeaf t.kind) = f (leaf t)) : IsSeen f :=
  .of_leaf
    (fun c => by
      cases c with
      | leaf t => exact hleaf _ t rfl
      | group opening contents closing => rw [Component.said, hgroup, hgroup])
    (by rintro _ opening contents closing rfl; rw [Component.closed, hgroup, hgroup])
    hclosed

/-- The names of identifiers are seen. -/
theorem isSeen_identName? : IsSeen identName? :=
  .of_kind none (by rintro ⟨kind, _, _⟩ ⟨_, _, _⟩ ⟨⟩; cases kind <;> rfl) (fun _ _ _ => rfl)
    (by rintro ⟨kind, _, _⟩; cases kind <;> rfl)

/-- Keywords are seen. -/
theorem isSeen_keyword? : IsSeen keyword? where
  said c := by rw [keyword?, isSeen_identName?.said, keyword?]
  closed c := by rw [keyword?, isSeen_identName?.closed, keyword?]

/-- Delimiters are seen. -/
theorem isSeen_delimiter? : IsSeen delimiter? :=
  .of_leaf (fun c => by cases c <;> rfl) (by rintro _ _ _ _ rfl; rfl)
    fun ⟨kind, _, _⟩ => by cases kind <;> rfl

mutual

/-- What a component says holds an error token if the component does. -/
theorem isSome_errorToken?_said (c : Component) :
    c.said.errorToken?.isSome = c.errorToken?.isSome := by
  cases c with
  | leaf t =>
      rw [said, errorToken?, errorToken?]
      split <;> rfl
  | group opening contents closing => exact isSome_errorTokenOf?_saidOf contents

/-- What components say holds an error token if the components do. -/
theorem isSome_errorTokenOf?_saidOf (components : List Component) :
    (errorTokenOf? (saidOf components)).isSome = (errorTokenOf? components).isSome := by
  cases components with
  | nil => rfl
  | cons c rest =>
      rw [saidOf, errorTokenOf?, errorTokenOf?, Option.isSome_or, Option.isSome_or,
        isSome_errorToken?_said c, isSome_errorTokenOf?_saidOf rest]

end

mutual

/-- A closed component holds an error token if the component does. -/
theorem isSome_errorToken?_closed (c : Component) :
    c.closed.errorToken?.isSome = c.errorToken?.isSome := by
  cases c with
  | leaf t =>
      rw [closed]
      split
      · rfl
      · obtain ⟨kind, _, _⟩ := t
        cases kind <;> rfl
  | group opening contents closing => exact isSome_errorTokenOf?_closedOf contents

/-- Closed components hold an error token if the components do. -/
theorem isSome_errorTokenOf?_closedOf (components : List Component) :
    (errorTokenOf? (closedOf components)).isSome = (errorTokenOf? components).isSome := by
  cases components with
  | nil => rfl
  | cons c rest =>
      rw [closedOf, errorTokenOf?, errorTokenOf?, Option.isSome_or, Option.isSome_or,
        isSome_errorToken?_closed c, isSome_errorTokenOf?_closedOf rest]

end

/-- Error tokens are seen. -/
theorem isSeen_errorToken? : IsSeen fun c => c.errorToken?.isSome :=
  ⟨isSome_errorToken?_said, isSome_errorToken?_closed⟩

/-- It is seen of the significant components whether there is an error token. -/
theorem errorTokenOf?_eq_none_iff_seen {components : List Component} :
    errorTokenOf? components = none ↔
      ∀ seen ∈ (significant components).map fun c => c.errorToken?.isSome, seen = false := by
  simp [errorTokenOf?_eq_none_iff]

/-- Components say what they say one by one. -/
theorem saidOf_eq_map (components : List Component) : saidOf components = components.map said := by
  induction components with
  | nil => rfl
  | cons c rest ih => rw [saidOf, ih, List.map_cons]

/-- Components are closed one by one. -/
theorem closedOf_eq_map (components : List Component) :
    closedOf components = components.map closed := by
  induction components with
  | nil => rfl
  | cons c rest ih => rw [closedOf, ih, List.map_cons]

/-- What is seen of significant components is seen if they are changed in a way in which it is seen
that they are significant. -/
theorem map_significant_map {β : Type} {f : Component → β} {g : Component → Component}
    (hg : ∀ c, (g c).isFiller = c.isFiller) (hf : ∀ c, f (g c) = f c)
    (components : List Component) :
    (significant (components.map g)).map f = (significant components).map f := by
  rw [significant, List.filter_map, List.map_map, significant]
  simp only [Function.comp_def, hg, hf]

mutual

/-- Components that look alike are written alike. -/
theorem closedText_bare (c : Component) : c.bare.closedText = c.closedText := by
  cases c with
  | leaf t => rfl
  | group opening contents closing =>
      cases closing <;> simp [bare, closedText, closedTextOf_bareOf contents, Token.bare]

/-- Rows that look alike are written alike. -/
theorem closedTextOf_bareOf (components : List Component) :
    closedTextOf (bareOf components) = closedTextOf components := by
  cases components with
  | nil => rfl
  | cons c rest =>
      rw [bareOf, closedTextOf, closedTextOf, closedText_bare c, closedTextOf_bareOf rest]

end

/-- Delimiters are significant, so there is none where none is seen. -/
theorem isDelimiter_eq_false_of_map {components others : List Component}
    (h : (significant components).map delimiter? = (significant others).map delimiter?)
    {delimiters : List Char} (hfree : ∀ c ∈ others, isDelimiter delimiters c = false) :
    ∀ c ∈ components, isDelimiter delimiters c = false := by
  intro c hmem
  by_contra hdelimiter
  have hfiller : c.isFiller = false := isFiller_of_isDelimiter (by simpa using hdelimiter)
  have hseen : c.delimiter? ∈ (significant components).map delimiter? :=
    List.mem_map_of_mem (List.mem_filter.mpr ⟨hmem, by simp [hfiller]⟩)
  rw [h] at hseen
  obtain ⟨d, hd, heq⟩ := List.mem_map.mp hseen
  rw [isDelimiter, ← heq] at hdelimiter
  exact hdelimiter (hfree d (List.mem_filter.mp hd).1)

section Alike

variable {components others : List Component} (h : bareOf components = bareOf others)

include h

/-- What is seen of components is seen of those that look like them. -/
theorem map_significant_of_bareOf {β : Type} {f : Component → β} (hf : IsSeen f) :
    (significant components).map f = (significant others).map f := by
  rw [← map_significant_map isSeen_isFiller.bare hf.bare, ← bareOf_eq_map, h, bareOf_eq_map,
    map_significant_map isSeen_isFiller.bare hf.bare]

/-- There is something in what looks alike if there is something. -/
theorem significant_eq_nil_of_bareOf : significant components = [] ↔ significant others = [] := by
  rw [← List.map_eq_nil_iff (f := isFiller), map_significant_of_bareOf h isSeen_isFiller,
    List.map_eq_nil_iff]

/-- Error tokens stand in what looks alike. -/
theorem errorTokenOf?_eq_none_of_bareOf :
    errorTokenOf? components = none ↔ errorTokenOf? others = none := by
  rw [errorTokenOf?_eq_none_iff_seen, map_significant_of_bareOf h isSeen_errorToken?,
    errorTokenOf?_eq_none_iff_seen]

/-- No delimiter stands in what looks alike if none stands in the components. -/
theorem isDelimiter_eq_false_of_bareOf {delimiters : List Char}
    (hfree : ∀ c ∈ others, isDelimiter delimiters c = false) :
    ∀ c ∈ components, isDelimiter delimiters c = false :=
  isDelimiter_eq_false_of_map (map_significant_of_bareOf h isSeen_delimiter?) hfree

/-- The same text is kept of what looks alike. -/
theorem keptText_of_bareOf : keptText components = keptText others := by
  have hkept (components : List Component) :
      bareOf (components.rdropWhile isFiller) = (bareOf components).rdropWhile isFiller := by
    have hseen : isFiller ∘ bare = isFiller := funext isFiller_bare
    rw [bareOf_eq_map, bareOf_eq_map, List.rdropWhile, List.rdropWhile, ← List.map_reverse,
      List.dropWhile_map, List.map_reverse, hseen]
  rw [keptText, keptText, ← closedTextOf_bareOf, hkept, h, ← hkept, closedTextOf_bareOf]

end Alike

/-- White space is a filler. -/
theorem isFiller_of_isGap {c : Component} (h : c.isGap) : c.isFiller = true := by
  obtain ⟨t, text, rfl, hkind⟩ := isGap_iff.mp h
  simp [isFiller, hkind, Token.Kind.isFiller]

/-- White space at the ends, and fillers at the end, are not significant. -/
theorem significant_stripOf (components : List Component) :
    significant (stripOf (components.rdropWhile isFiller)) = significant components := by
  have hgap {part : List Component} (hpart : ∀ c ∈ part, c.isGap) : significant part = [] :=
     significant_eq_nil_iff_forall.mpr fun c hmem => isFiller_of_isGap (hpart c hmem)
  obtain ⟨front, back, hsplit, hfront, hback, -⟩ :=
    stripOf_append (components.rdropWhile isFiller)
  have hfillers : significant (components.rtakeWhile isFiller) = [] :=
    significant_eq_nil_iff_forall.mpr fun c hmem => List.mem_rtakeWhile_imp hmem
  conv_rhs => rw [← List.rdropWhile_append_rtakeWhile (p := isFiller) (l := components)]
  rw [significant_append, hfillers, List.append_nil]
  conv_rhs => rw [hsplit]
  rw [significant_append, significant_append, hgap hfront, hgap hback, List.nil_append,
    List.append_nil]

/-- The values are read from the text that is kept of the components, and say what they say, closed
and without the white space at their ends. -/
structure Echoes (components values : List Component) : Prop where
  captured : Captured values (keptText components).toList
  said : saidOf values = saidOf (closedOf (stripOf (components.rdropWhile isFiller)))

/-- Components of a tight source without error tokens have an echo. -/
theorem AreTight.exists_echoes {components : List Component} (h : AreTight components)
    (herror : errorTokenOf? components = none) : ∃ values, Echoes components values := by
  obtain ⟨values, hcaptured, hsaid⟩ := h.exists_captured herror
  exact ⟨values, hcaptured, hsaid⟩

variable {components values : List Component}

/-- What is seen of components is seen of their echo. -/
theorem Echoes.map_significant (h : Echoes components values) {β : Type} {f : Component → β}
    (hf : IsSeen f) : (significant values).map f = (significant components).map f := by
  rw [← map_significant_map isSeen_isFiller.said hf.said, ← saidOf_eq_map, h.said, saidOf_eq_map,
    map_significant_map isSeen_isFiller.said hf.said, closedOf_eq_map,
    map_significant_map isSeen_isFiller.closed hf.closed, significant_stripOf]

/-- There is something in an echo if there is something significant. -/
theorem Echoes.significant_eq_nil_iff (h : Echoes components values) :
    significant values = [] ↔ significant components = [] := by
  rw [← List.map_eq_nil_iff (f := isFiller), h.map_significant isSeen_isFiller, List.map_eq_nil_iff]

/-- An echo holds no error token. -/
theorem Echoes.errorTokenOf?_eq_none (h : Echoes components values)
    (herror : errorTokenOf? components = none) : errorTokenOf? values = none := by
  rw [errorTokenOf?_eq_none_iff_seen] at herror ⊢
  rwa [h.map_significant isSeen_errorToken?]

/-- An echo holds no delimiter that the components do not hold. -/
theorem Echoes.isDelimiter_eq_false (h : Echoes components values) {delimiters : List Char}
    (hfree : ∀ c ∈ components, isDelimiter delimiters c = false) :
    ∀ c ∈ values, isDelimiter delimiters c = false :=
  isDelimiter_eq_false_of_map (h.map_significant isSeen_delimiter?) hfree

mutual

/-- A grouped component without tokens that are cut off is closed as it is. -/
theorem closed_of_isGrouped (c : Component) {closer : Option Bracket} (h : c.IsGrouped closer)
    (hclosed : ∀ t ∈ c.tokens, t.kind.isClosed) : c.closed = c := by
  cases c with
  | leaf t => rw [closed, if_pos (hclosed t (List.mem_singleton_self t))]
  | group opening contents closing =>
      obtain ⟨bracket, -, hcontents, t, rfl, -⟩ := h
      have hinside : ∀ u ∈ tokensOf contents, u.kind.isClosed := fun u hu =>
        hclosed u (by simp [tokens, hu])
      rw [closed, closedOf_of_areGrouped contents hcontents hinside]
      rfl

/-- Grouped components without tokens that are cut off are closed as they are. -/
theorem closedOf_of_areGrouped (components : List Component) {closer : Option Bracket}
    (h : AreGrouped closer components) (hclosed : ∀ t ∈ tokensOf components, t.kind.isClosed) :
    closedOf components = components := by
  cases components with
  | nil => rfl
  | cons c rest =>
      obtain ⟨hc, hrest⟩ := List.forall_mem_append.mp hclosed
      rw [closedOf, closed_of_isGrouped c h.1 hc, closedOf_of_areGrouped rest h.2 hrest]

end

/-- Captured components are closed. -/
theorem Captured.closedOf_eq {text : List Char} (h : Captured values text) :
    closedOf values = values :=
  closedOf_of_areGrouped values (h.grouped none) h.closed

/-- Up to the last component that is no filler, and without white space at the ends, there is no
filler at the end. -/
theorem isFiller_getLast?_stripOf (components : List Component) :
    ∀ c ∈ (stripOf (components.rdropWhile isFiller)).getLast?, c.isFiller = false := by
  intro c hc
  obtain ⟨front, back, hsplit, -, hback, -⟩ := stripOf_append (components.rdropWhile isFiller)
  have hkept : ∀ d ∈ (components.rdropWhile isFiller).getLast?, d.isFiller = false := by
    intro d hd
    obtain ⟨hne, rfl⟩ := List.mem_getLast?_eq_getLast hd
    simpa using List.rdropWhile_last_not isFiller components hne
  rcases List.eq_nil_or_concat' back with rfl | ⟨others, d, rfl⟩
  · rw [hsplit, List.append_nil] at hkept
    exact hkept c (List.mem_getLast?_append_of_mem_getLast? hc)
  · -- white space at the end would be a filler that is kept
    have hspace := hkept d (by rw [hsplit]; simp)
    rw [isFiller_of_isGap (hback d (by simp))] at hspace
    cases hspace

/-- An echo does not end with a filler. -/
theorem Echoes.isFiller_getLast? (h : Echoes components values) :
    ∀ c ∈ values.getLast?, c.isFiller = false := by
  have hlast : (values.getLast?).map isFiller =
      (stripOf (components.rdropWhile isFiller)).getLast?.map isFiller := by
    have hseen (row : List Component) {g : Component → Component}
        (hg : ∀ c, (g c).isFiller = c.isFiller) :
        (row.map g).getLast?.map isFiller = row.getLast?.map isFiller := by
      rw [List.getLast?_map, Option.map_map]
      exact congrArg (Option.map · row.getLast?) (funext hg)
    rw [← hseen values isSeen_isFiller.said, ← saidOf_eq_map, h.said, saidOf_eq_map,
      hseen _ isSeen_isFiller.said, closedOf_eq_map, hseen _ isSeen_isFiller.closed]
  intro c hc
  rw [Option.mem_def.mp hc, Option.map_some] at hlast
  obtain ⟨d, hd, hfiller⟩ := Option.map_eq_some_iff.mp hlast.symm
  rw [← hfiller]
  exact isFiller_getLast?_stripOf components d hd

/-- What is kept of a row that starts with no filler starts with the same component, and nothing but
fillers is left out. -/
theorem exists_stripOf_cons {first : Component} (h : first.isFiller = false)
    (rest : List Component) :
    ∃ more gap, stripOf ((first :: rest).rdropWhile isFiller) = first :: more ∧
      rest = more ++ gap ∧ significant gap = [] := by
  have hrow : (first :: rest).rdropWhile isFiller = first :: rest.rdropWhile isFiller :=
    rdropWhile_append_cons h [] rest
  have hgap {c : Component} (hc : c.isFiller = false) : ¬c.isGap := fun hgap => by
    rw [isFiller_of_isGap hgap] at hc
    cases hc
  have hfillers : significant (rest.rtakeWhile isFiller) = [] :=
    significant_eq_nil_iff_forall.mpr fun c hmem => List.mem_rtakeWhile_imp hmem
  refine ⟨_, _, ?_, (List.rdropWhile_append_rtakeWhile (p := isFiller) (l := rest)).symm, hfillers⟩
  rw [stripOf, hrow, List.dropWhile_cons_of_neg (hgap h), List.rdropWhile_eq_self_iff]
  intro hne
  have hlast := List.rdropWhile_last_not isFiller (first :: rest) (by simp [hrow])
  simp only [hrow] at hlast
  exact hgap (by simpa using hlast)

/-- An echo of a row that starts with no filler starts with what is seen alike. -/
theorem Echoes.exists_cons {first : Component} {rest : List Component}
    (h : Echoes (first :: rest) values) (hfirst : first.isFiller = false) :
    ∃ start others, values = start :: others ∧
      ∀ {β : Type} {f : Component → β}, IsSeen f → f start = f first := by
  obtain ⟨more, gap, hstrip, -, -⟩ := exists_stripOf_cons hfirst rest
  have hsaid := h.said
  rw [hstrip, closedOf, saidOf] at hsaid
  cases values with
  | nil => cases hsaid
  | cons start others =>
      have hstart : start.said = first.closed.said := (List.cons.inj hsaid).1
      exact ⟨start, others, rfl, fun hf => by rw [← hf.said, hstart, hf.said, hf.closed]⟩

/-- The text that is kept of an echo is the one that is kept of the components. -/
theorem Echoes.keptText_eq (h : Echoes components values) :
    keptText values = keptText components := by
  have hrow : values.rdropWhile isFiller = values := by
    simpa using @rdropWhile_append values [] rfl h.isFiller_getLast?
  have htext : closedTextOf values = (keptText components).toList := by
    rw [← textOf_tokensOf_closedOf, h.captured.closedOf_eq, h.captured.textOf]
  rw [keptText, hrow, htext, keptText, String.toList_ofList, Text.trim_trim]

end Component

end Css
