import Css.Proofs.Component.Echoes
import Css.Proofs.Rule.Dispatch
import Css.Proofs.Rule.Prefixes

/-!
# Selectors are read back

The text that is kept of selectors of a tight source is read as the selectors, and kept again,
`Selector.exists_echo`: the same prefixes are found in it, and it starts with a component of the
same kind.
-/

namespace Css

open Css.Parser
open Component (significant errorTokenOf? keptText bareOf saidOf closedOf saidOf_eq_map
  closedOf_eq_map Captured AreTight IsSeen Echoes isSeen_identName? isSeen_isFiller)

/-- At-keywords are seen. -/
theorem AtRule.isSeen_isKeyword : IsSeen isKeyword :=
  .of_kind false (by rintro ⟨kind, _, _⟩ ⟨_, _, _⟩ ⟨⟩; cases kind <;> rfl) (fun _ _ _ => rfl)
    (by rintro ⟨kind, _, _⟩; cases kind <;> rfl)

/-- Marks that hide a stylesheet are seen. -/
theorem Item.isSeen_isHtmlMark : IsSeen isHtmlMark :=
  .of_kind false (by rintro ⟨kind, _, _⟩ ⟨_, _, _⟩ ⟨⟩; cases kind <;> rfl) (fun _ _ _ => rfl)
    (by rintro ⟨kind, _, _⟩; cases kind <;> rfl)

namespace Selector

variable {namespaces : Namespaces}

/-- The kind of a token says whether it is a bar. -/
theorem isBar_leaf {t u : Token} (h : t.kind = u.kind) : isBar (.leaf t) = isBar (.leaf u) := by
  obtain ⟨kind, text, start⟩ := t
  obtain ⟨_, text', start'⟩ := u
  cases h
  unfold isBar
  split <;> split <;> simp_all

/-- Bars are seen. -/
theorem isSeen_isBar : IsSeen isBar := by
  refine .of_kind false (fun _ _ => isBar_leaf) (fun _ _ _ => rfl) fun t => ?_
  obtain ⟨kind, text, start⟩ := t
  cases kind with
  | delim c => exact isBar_leaf rfl
  | _ => rfl

/-- What starts a prefix that is not bound is an identifier in front of what makes it a prefix. -/
theorem startsUnbound_cons_eq (isPrefixOf : List Component → Bool) (component : Component)
    (rest : List Component) :
    startsUnbound namespaces isPrefixOf (component :: rest) =
      (identName? component).any fun name => isPrefixOf rest && !namespaces.binds (some name) := by
  cases hname : identName? component with
  | none => rw [startsUnbound_cons hname]; rfl
  | some name =>
      obtain ⟨⟨_, text, start⟩, rfl, rfl⟩ := identName?_eq_some hname
      rfl

/-- What follows an identifier is seen to make it a prefix. -/
theorem followsPrefix_map {g : Component → Component} (hg : ∀ c, isBar (g c) = isBar c)
    (row : List Component) : followsPrefix (row.map g) = followsPrefix row := by
  match row with
  | [] => rfl
  | [bar] => simp [followsPrefix, hg]
  | bar :: second :: rest => simp [followsPrefix, hg]

/-- Whether a row starts with a prefix that is not bound is seen of it. -/
theorem startsUnbound_map {g : Component → Component} (hname : ∀ c, identName? (g c) = identName? c)
    (hbar : ∀ c, isBar (g c) = isBar c) (component : Component) (rest : List Component) :
    startsUnbound namespaces followsPrefix (g component :: rest.map g) =
      startsUnbound namespaces followsPrefix (component :: rest) := by
  rw [startsUnbound_cons_eq, startsUnbound_cons_eq, hname, followsPrefix_map hbar]

mutual

/-- A prefix that is not bound is found in what a component says. -/
theorem isSome_unboundPrefix?_said (c : Component) :
    (unboundPrefix? namespaces c.said).isSome = (unboundPrefix? namespaces c).isSome := by
  cases c with
  | leaf t => rfl
  | group opening contents closing => exact isSome_unboundPrefixOf?_saidOf contents

/-- A prefix that is not bound is found in what components say. -/
theorem isSome_unboundPrefixOf?_saidOf (components : List Component) :
    (unboundPrefixOf? namespaces (saidOf components)).isSome =
      (unboundPrefixOf? namespaces components).isSome := by
  cases components with
  | nil => rfl
  | cons c rest =>
      rw [Component.saidOf, isSome_unboundPrefixOf?_cons, isSome_unboundPrefixOf?_cons,
        isSome_unboundPrefix?_said c, isSome_unboundPrefixOf?_saidOf rest, saidOf_eq_map,
        startsUnbound_map isSeen_identName?.said isSeen_isBar.said]

end

mutual

/-- A prefix that is not bound is found in a closed component. -/
theorem isSome_unboundPrefix?_closed (c : Component) :
    (unboundPrefix? namespaces c.closed).isSome = (unboundPrefix? namespaces c).isSome := by
  cases c with
  | leaf t =>
      rw [Component.closed]
      split
      · rfl
      · obtain ⟨kind, _, _⟩ := t
        cases kind <;> rfl
  | group opening contents closing => exact isSome_unboundPrefixOf?_closedOf contents

/-- A prefix that is not bound is found in closed components. -/
theorem isSome_unboundPrefixOf?_closedOf (components : List Component) :
    (unboundPrefixOf? namespaces (closedOf components)).isSome =
      (unboundPrefixOf? namespaces components).isSome := by
  cases components with
  | nil => rfl
  | cons c rest =>
      rw [Component.closedOf, isSome_unboundPrefixOf?_cons, isSome_unboundPrefixOf?_cons,
        isSome_unboundPrefix?_closed c, isSome_unboundPrefixOf?_closedOf rest, closedOf_eq_map,
        startsUnbound_map isSeen_identName?.closed isSeen_isBar.closed]

end

/-- Fillers behind selectors hold no prefix. -/
theorem isSome_unboundPrefixOf?_append {gap : List Component} (hgap : significant gap = [])
    (part : List Component) :
    (unboundPrefixOf? namespaces (part ++ gap)).isSome =
      (unboundPrefixOf? namespaces part).isSome := by
  rw [Bool.eq_iff_iff, isSome_unboundPrefixOf?, isSome_unboundPrefixOf?]
  exact occurs_append_iff hgap part

/-- None of two rows holds a prefix if a prefix is seen in both or in neither. -/
theorem unboundPrefixOf?_eq_none_iff {components others : List Component}
    (h : (unboundPrefixOf? namespaces components).isSome =
      (unboundPrefixOf? namespaces others).isSome) :
    unboundPrefixOf? namespaces components = none ↔ unboundPrefixOf? namespaces others = none := by
  rw [← Option.not_isSome_iff_eq_none, h, Option.not_isSome_iff_eq_none]

/-- Selectors are read if they are more than fillers, hold no error token, and bind their
prefixes. -/
theorem parser_eq_ok_iff {c after : Cursor} {text : String} :
    parser namespaces c = .ok text after ↔ c.isExhausted = false ∧ noErrorToken c = .ok () after ∧
      text = keptText c.rest ∧ unboundPrefixOf? namespaces c.rest = none := by
  have hlook : isExhausted c = .ok c.isExhausted c := rfl
  have hget (c : Cursor) : (get : Parser Cursor) c = .ok c c := rfl
  rw [parser, bind_of_ok hlook]
  cases c.isExhausted with
  | true => exact ⟨fun h => (by cases h), fun h => (by cases h.1)⟩
  | false =>
      rw [if_neg Bool.false_ne_true]
      dsimp only
      rw [bind_of_ok (hget c)]
      cases hread : noErrorToken c with
      | error e mid => rw [bind_of_error hread]; simp
      | ok u mid =>
          obtain ⟨⟨gap, hgap, hsplit⟩, htext⟩ := read_of_noErrorToken hread
          have hbound : unboundPrefixOf? namespaces c.rest = none ↔
              unboundPrefixOf? namespaces (c.read mid) = none := by
            refine unboundPrefixOf?_eq_none_iff ?_
            conv_lhs => rw [hsplit]
            exact isSome_unboundPrefixOf?_append hgap _
          rw [bind_of_ok hread, bind_of_ok (hget mid), ← htext, hbound]
          cases unboundPrefixOf? namespaces (c.read mid) with
          | some t => exact ⟨fun h => (by cases h), fun h => (by cases h.2.2.2)⟩
          | none =>
              constructor
              · intro h
                cases h
                exact ⟨rfl, rfl, rfl, rfl⟩
              · rintro ⟨-, h, rfl, -⟩
                cases h
                rfl

/-- The prefixes in an echo of a row that starts with no filler are those of the row. -/
theorem isSome_unboundPrefixOf?_of_echoes {first : Component} {rest values : List Component}
    (h : Echoes (first :: rest) values) (hfirst : first.isFiller = false) :
    (unboundPrefixOf? namespaces values).isSome =
      (unboundPrefixOf? namespaces (first :: rest)).isSome := by
  obtain ⟨more, gap, hstrip, rfl, hgap⟩ := Component.exists_stripOf_cons hfirst rest
  rw [← isSome_unboundPrefixOf?_saidOf values, h.said, isSome_unboundPrefixOf?_saidOf,
    isSome_unboundPrefixOf?_closedOf, hstrip, ← List.cons_append,
    isSome_unboundPrefixOf?_append hgap]

/-- The prefixes in rows that look alike are the same. -/
theorem isSome_unboundPrefixOf?_of_bareOf {components others : List Component}
    (h : bareOf components = bareOf others) :
    (unboundPrefixOf? namespaces components).isSome =
      (unboundPrefixOf? namespaces others).isSome := by
  rw [← isSome_unboundPrefixOf?_saidOf, ← Component.saidOf_bareOf, h, Component.saidOf_bareOf,
    isSome_unboundPrefixOf?_saidOf]

/-- Selectors are read to their end. -/
theorem reads_selectors {components : List Component}
    (hsome : components.all Component.isFiller = false) (hclean : errorTokenOf? components = none)
    (hbound : unboundPrefixOf? namespaces components = none) :
    Reads (entirely (parser namespaces)) components (Exactly (keptText components) []) := by
  intro c hc
  obtain ⟨after, hread⟩ := exists_noErrorToken
    ((Component.errorTokenOf?_eq_none_of_bareOf hc).mpr hclean)
  obtain ⟨_, -, hend, -⟩ := getLast?_of_noErrorToken hread
  have hrun : parser namespaces c = .ok (keptText components) after := by
    refine parser_eq_ok_iff.mpr ⟨?_, hread, (Component.keptText_of_bareOf hc).symm, ?_⟩
    · rw [Cursor.isExhausted, Component.all_isFiller_of_bareOf hc, hsome]
    · exact (unboundPrefixOf?_eq_none_iff (isSome_unboundPrefixOf?_of_bareOf hc)).mpr hbound
  exact ⟨_, _, entirely_eq_ok_iff.mpr ⟨after, hrun, hend, rfl⟩, [], rfl, rfl, rfl⟩

/-- What is kept of selectors of a tight source is read as selectors that are kept alike. -/
theorem exists_echo {first : Component} {front : List Component} {stop : Position} {last : Cursor}
    {selectors : String}
    (h : entirely (parser namespaces) ⟨first :: front, stop⟩ = .ok selectors last)
    (hfirst : first.isFiller = false) (hgood : AreTight (first :: front)) :
    ∃ start others, Captured (start :: others) selectors.toList ∧
      Reads (entirely (parser namespaces)) (start :: others) (Exactly selectors []) ∧
      (∀ {f : Component → Bool}, IsSeen f → f start = f first) ∧
      ∀ {delimiters : List Char}, (∀ c ∈ first :: front, isDelimiter delimiters c = false) →
        ∀ c ∈ start :: others, isDelimiter delimiters c = false := by
  obtain ⟨mid, hrun, -, -⟩ := entirely_eq_ok_iff.mp h
  obtain ⟨hsome, hread, rfl, hbound⟩ := parser_eq_ok_iff.mp hrun
  have hclean : errorTokenOf? (first :: front) = none := by
    obtain ⟨part, -, hend, -⟩ := getLast?_of_noErrorToken hread
    have hentirely := entirely_eq_ok_iff.mpr ⟨mid, hread, hend, rfl⟩
    exact ((readsExactly_noErrorToken.entirely_eq_ok_iff fun _ h => h).mp hentirely).1
  obtain ⟨values, hechoes⟩ := hgood.exists_echoes hclean
  obtain ⟨start, others, rfl, hseen⟩ := hechoes.exists_cons hfirst
  refine ⟨start, others, hechoes.captured, ?_, hseen, hechoes.isDelimiter_eq_false⟩
  rw [← hechoes.keptText_eq]
  refine reads_selectors ?_ (hechoes.errorTokenOf?_eq_none hclean) ?_
  · rw [List.all_cons, hseen isSeen_isFiller, hfirst, Bool.false_and]
  · exact (unboundPrefixOf?_eq_none_iff (isSome_unboundPrefixOf?_of_echoes hechoes hfirst)).mpr
      hbound

end Selector

end Css
