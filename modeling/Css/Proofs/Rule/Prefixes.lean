import Css.Proofs.Parser.Kept
import Css.Proofs.Parser.Run
import Css.Rule.Selector

/-!
# Prefixes in selectors

A selector is refused because of an identifier, at any depth, that is not bound and directly in
front of a bar, unless a second bar follows directly, `Selector.unknownPrefix_iff`. Where bars only
stand directly between the parts of qualified names, or in pairs, that is the prefix of a qualified
name.
-/

namespace Css

open Css.Parser
open Component (significant significant_eq_nil_iff_forall errorTokenOf? keptText)

namespace Component

/-- At some depth, the predicate holds of what stands from some place on. -/
inductive Occurs (p : List Component → Bool) : List Component → Prop where
  | here {row : List Component} (h : p row = true) : Occurs p row
  | behind {component : Component} {rest : List Component} (h : Occurs p rest) :
      Occurs p (component :: rest)
  | inside {opening : Token} {contents : List Component} {closing : Option Token}
      {rest : List Component} (h : Occurs p contents) :
      Occurs p (.group opening contents closing :: rest)

variable {p q r : List Component → Bool}

/-- What occurs in no components holds of none. -/
theorem occurs_nil_iff : Occurs p [] ↔ p [] = true := by
  constructor
  · rintro ⟨h⟩
    exact h
  · exact .here

/-- What occurs in components occurs inside the first one, holds of them, or occurs behind it. -/
theorem occurs_cons_iff {component : Component} {rest : List Component} :
    Occurs p (component :: rest) ↔
      (∃ opening contents closing, component = .group opening contents closing ∧
          Occurs p contents) ∨ p (component :: rest) = true ∨ Occurs p rest := by
  constructor
  · rintro (h | h | h)
    · exact .inr (.inl h)
    · exact .inr (.inr h)
    · exact .inl ⟨_, _, _, rfl, h⟩
  · rintro (⟨opening, contents, closing, rfl, h⟩ | h | h)
    · exact .inside h
    · exact .here h
    · exact .behind h

/-- Where a predicate nowhere holds, one that implies another elsewhere does so at every place. -/
theorem Occurs.imp (himp : ∀ row, ¬Occurs r row → p row = true → q row = true)
    {row : List Component} (h : Occurs p row) (hr : ¬Occurs r row) : Occurs q row := by
  induction h with
  | here h => exact .here (himp _ hr h)
  | behind _ ih => exact .behind (ih fun h => hr (.behind h))
  | inside _ ih => exact .inside (ih fun h => hr (.inside h))

end Component

open Component (Occurs occurs_nil_iff occurs_cons_iff)

namespace Selector

variable {namespaces : Namespaces}

/-- The components start with an identifier that is not bound, and what follows it makes it a
prefix. -/
def startsUnbound (namespaces : Namespaces) (isPrefixOf : List Component → Bool) :
    List Component → Bool
  | .leaf ⟨.ident name, _, _⟩ :: rest => isPrefixOf rest && !namespaces.binds (some name)
  | _ => false

/-- A component that is no identifier starts no prefix. -/
theorem startsUnbound_cons {isPrefixOf : List Component → Bool} {component : Component}
    (h : identName? component = none) (rest : List Component) :
    startsUnbound namespaces isPrefixOf (component :: rest) = false := by
  unfold startsUnbound
  split
  · rename_i heq
    cases heq
    cases h
  · rfl

/-- A prefix that is not bound is found inside the first component, at its place, or behind it. -/
theorem isSome_unboundPrefixOf?_cons (component : Component) (rest : List Component) :
    (unboundPrefixOf? namespaces (component :: rest)).isSome =
      ((unboundPrefix? namespaces component).isSome ||
        (startsUnbound namespaces followsPrefix (component :: rest) ||
          (unboundPrefixOf? namespaces rest).isSome)) := by
  cases hname : identName? component with
  | none =>
      have hno : ∀ name text start, component ≠ .leaf ⟨.ident name, text, start⟩ := by
        rintro name text start rfl
        cases hname
      rw [startsUnbound_cons hname, unboundPrefixOf?, Option.isSome_or, Bool.false_or]
      · rfl
      · exact fun name text start heq => hno name text start heq
  | some name =>
      obtain ⟨⟨_, text, start⟩, rfl, rfl⟩ := identName?_eq_some hname
      rw [unboundPrefixOf?, Option.isSome_or, Option.isSome_or]
      congr 2
      rw [startsUnbound]
      cases followsPrefix rest && !namespaces.binds (some name) <;> rfl

mutual

/-- A prefix that is not bound is found inside a group if one occurs in its contents. -/
theorem isSome_unboundPrefix? (component : Component) :
    (unboundPrefix? namespaces component).isSome ↔
      ∃ opening contents closing, component = .group opening contents closing ∧
        Occurs (startsUnbound namespaces followsPrefix) contents := by
  match component with
  | .leaf t => simp [unboundPrefix?]
  | .group opening contents closing =>
    rw [unboundPrefix?, isSome_unboundPrefixOf? contents]
    constructor
    · exact fun h => ⟨opening, contents, closing, rfl, h⟩
    · rintro ⟨_, _, _, ⟨⟩, h⟩
      exact h

/-- A prefix that is not bound is found if one occurs. -/
theorem isSome_unboundPrefixOf? (components : List Component) :
    (unboundPrefixOf? namespaces components).isSome ↔
      Occurs (startsUnbound namespaces followsPrefix) components := by
  match components with
  | [] => simp [unboundPrefixOf?, occurs_nil_iff, startsUnbound]
  | component :: rest =>
    rw [isSome_unboundPrefixOf?_cons, Bool.or_eq_true, Bool.or_eq_true,
      isSome_unboundPrefix? component, isSome_unboundPrefixOf? rest, occurs_cons_iff]

end

/-- A filler is no bar. -/
theorem isBar_of_isFiller {component : Component} (h : component.isFiller = true) :
    isBar component = false := by
  unfold isBar
  split
  · cases h
  · rfl

/-- Fillers behind what follows an identifier do not make it a prefix. -/
theorem followsPrefix_append {gap : List Component} (hgap : significant gap = [])
    (rest : List Component) : followsPrefix (rest ++ gap) = followsPrefix rest := by
  have hhead : gap.head?.any isBar = false := by
    cases gap with
    | nil => rfl
    | cons first gap =>
        have hfiller := significant_eq_nil_iff_forall.mp hgap first (List.mem_cons_self ..)
        exact isBar_of_isFiller hfiller
  match rest with
  | [] =>
    cases gap with
    | nil => rfl
    | cons first gap => simp [followsPrefix, show isBar first = false from hhead]
  | [bar] => simp [followsPrefix, hhead]
  | bar :: second :: rest => simp [followsPrefix]

/-- Prefixes do not occur in fillers behind components. -/
theorem occurs_append_iff {gap : List Component} (hgap : significant gap = [])
    (part : List Component) :
    Occurs (startsUnbound namespaces followsPrefix) (part ++ gap) ↔
      Occurs (startsUnbound namespaces followsPrefix) part := by
  induction part with
  | nil =>
      -- in the fillers alone no component starts a prefix
      have hno : ¬Occurs (startsUnbound namespaces followsPrefix) [] := by
        simp [occurs_nil_iff, startsUnbound]
      rw [List.nil_append, iff_false_right hno]
      induction gap with
      | nil => exact hno
      | cons first gap ih =>
          obtain ⟨hfiller, hrest⟩ :=
            List.forall_mem_cons.mp (significant_eq_nil_iff_forall.mp hgap)
          have hname : identName? first = none := by
            unfold identName?
            split
            · cases hfiller
            · rfl
          rw [occurs_cons_iff, startsUnbound_cons hname]
          rintro (⟨opening, contents, closing, rfl, -⟩ | h | h)
          · cases hfiller
          · cases h
          · exact ih (significant_eq_nil_iff_forall.mpr hrest) h
  | cons component part ih =>
      have hstart : startsUnbound namespaces followsPrefix (component :: (part ++ gap)) =
          startsUnbound namespaces followsPrefix (component :: part) := by
        cases hname : identName? component with
        | none => rw [startsUnbound_cons hname, startsUnbound_cons hname]
        | some name =>
            obtain ⟨⟨_, text, start⟩, rfl, rfl⟩ := identName?_eq_some hname
            rw [startsUnbound, startsUnbound, followsPrefix_append hgap]
      rw [List.cons_append, occurs_cons_iff, occurs_cons_iff, hstart, ih]

/-- A selector without error tokens is refused because of a prefix that is not bound if one occurs
in it, and its text is kept otherwise. -/
theorem parser_of_clean (namespaces : Namespaces) {c : Cursor} (hsome : c.isExhausted = false)
    (hclean : errorTokenOf? c.rest = none) :
    ∃ after, (∃ t, parser namespaces c = .error ⟨.unknownPrefix t, t.start⟩ after ∧
        Occurs (startsUnbound namespaces followsPrefix) c.rest) ∨
      (parser namespaces c = .ok (keptText c.rest) after ∧
        ¬Occurs (startsUnbound namespaces followsPrefix) c.rest) := by
  obtain ⟨after, hread⟩ := exists_noErrorToken hclean
  obtain ⟨⟨gap, hgap, hsplit⟩, htext⟩ := read_of_noErrorToken hread
  -- only what was read is searched, and fillers are all that is left behind it
  have hoccurs : (unboundPrefixOf? namespaces (c.read after)).isSome ↔
      Occurs (startsUnbound namespaces followsPrefix) c.rest := by
    rw [isSome_unboundPrefixOf?, ← occurs_append_iff hgap, ← hsplit]
  have hlook : isExhausted c = .ok false c := by rw [← hsome]; rfl
  have hget (c : Cursor) : (get : Parser Cursor) c = .ok c c := rfl
  refine ⟨after, ?_⟩
  rw [parser, bind_of_ok hlook, if_neg Bool.false_ne_true]
  dsimp only
  rw [bind_of_ok (hget c), bind_of_ok hread, bind_of_ok (hget after), ← hoccurs, ← htext]
  cases unboundPrefixOf? namespaces (c.read after) with
  | some t => exact .inl ⟨t, rfl, rfl⟩
  | none => exact .inr ⟨rfl, Bool.false_ne_true⟩

/-- The component is the name in a qualified name, or the asterisk that stands for every name. -/
def isLocalName : Component → Bool
  | .leaf ⟨.ident _, _, _⟩ => true
  | .leaf ⟨.delim '*', _, _⟩ => true
  | _ => false

/-- The name in a qualified name is neither a bar nor a comment. -/
theorem ne_of_isLocalName {component : Component} (h : isLocalName component = true) :
    isBar component = false ∧ component.isComment = false := by
  unfold isLocalName at h
  split at h
  · exact ⟨rfl, rfl⟩
  · exact ⟨rfl, rfl⟩
  · cases h

/-- A bar is no comment. -/
theorem isComment_of_isBar {component : Component} (h : isBar component = true) :
    component.isComment = false := by
  refine Bool.eq_false_iff.mpr fun hcomment => ?_
  cases (isBar_of_isFiller (Component.isFiller_of_isComment hcomment)).symm.trans h

/-- What follows an identifier, comments aside, is a bar and a name or an asterisk. -/
def precedesName (rest : List Component) : Bool :=
  match rest.dropWhile Component.isComment with
  | bar :: after => isBar bar && (after.dropWhile Component.isComment).head?.any isLocalName
  | [] => false

/-- The components start with a comment in front of a bar, or with a bar that stands directly in
front of neither a second bar nor the name or the asterisk of a qualified name. -/
def startsUnusual : List Component → Bool
  | [] => false
  | [first] => isBar first
  | first :: second :: _ => (first.isComment && isBar second) ||
      (isBar first && !(isBar second || isLocalName second))

/-- Where no bar is unusual, no comments stand in front of one. -/
theorem eq_cons_of_dropWhile {rest after : List Component} {bar : Component}
    (h : ¬Occurs startsUnusual rest) (hbar : isBar bar = true)
    (hdrop : rest.dropWhile Component.isComment = bar :: after) : rest = bar :: after := by
  induction rest with
  | nil => cases hdrop
  | cons first rest ih =>
      rw [List.dropWhile_cons] at hdrop
      split at hdrop
      · rename_i hcomment
        obtain rfl := ih (fun hrest => h (.behind hrest)) hdrop
        exact absurd (.here (by simp [startsUnusual, hcomment, hbar])) h
      · exact hdrop

/-- In front of a second bar or of a name, a bar makes the identifier before it a prefix if and only
if a name follows. -/
theorem followsPrefix_bar {bar second : Component} (hbar : isBar bar = true)
    (hsecond : isBar second = true ∨ isLocalName second = true) (after : List Component) :
    followsPrefix (bar :: second :: after) = precedesName (bar :: second :: after) := by
  have hplain : second.isComment = false := by
    rcases hsecond with hsecond | hsecond
    · exact isComment_of_isBar hsecond
    · exact (ne_of_isLocalName hsecond).2
  rw [precedesName, List.dropWhile_cons_of_neg (by simp [isComment_of_isBar hbar])]
  dsimp only
  rw [List.dropWhile_cons_of_neg (by simp [hplain])]
  simp only [followsPrefix, hbar, Bool.true_and, List.head?_cons, Option.any_some]
  cases hlocal : isLocalName second with
  | true => rw [(ne_of_isLocalName hlocal).1]; rfl
  | false => rw [hsecond.resolve_right (by simp [hlocal])]; rfl

/-- What starts with no bar does not make the identifier in front of it a prefix. -/
theorem followsPrefix_of_head? {rest : List Component} (h : rest.head?.any isBar = false) :
    followsPrefix rest = false := by
  cases rest with
  | nil => rfl
  | cons first rest =>
      have hfirst : isBar first = false := h
      simp [followsPrefix, hfirst]

/-- Where no bar is unusual, one makes the identifier in front of it a prefix if a qualified name
follows. -/
theorem followsPrefix_eq_precedesName {rest : List Component} (h : ¬Occurs startsUnusual rest) :
    followsPrefix rest = precedesName rest := by
  cases hhead : rest.head?.any isBar with
  | true =>
      obtain ⟨bar, after, rfl, hbar⟩ : ∃ bar after, rest = bar :: after ∧ isBar bar = true := by
        cases rest with
        | nil => cases hhead
        | cons bar after => exact ⟨bar, after, rfl, hhead⟩
      cases after with
      | nil => exact absurd (.here hbar) h
      | cons second after =>
          have husual : startsUnusual (bar :: second :: after) = false :=
            Bool.eq_false_iff.mpr fun hunusual => h (.here hunusual)
          simp only [startsUnusual, hbar, Bool.true_and, Bool.or_eq_false_iff,
            Bool.not_eq_false', Bool.or_eq_true] at husual
          exact followsPrefix_bar hbar husual.2 after
  | false =>
      rw [followsPrefix_of_head? hhead, precedesName]
      split
      · rename_i bar after hdrop
        -- no bar stands behind comments, so it would be the first component
        cases hbar : isBar bar with
        | false => rfl
        | true =>
            rw [eq_cons_of_dropWhile h hbar hdrop] at hhead
            cases hbar.symm.trans hhead
      · rfl

/-- Where no bar is unusual, an identifier that is not bound is found in front of a bar if it is the
prefix of a qualified name. -/
theorem startsUnbound_eq {row : List Component} (h : ¬Occurs startsUnusual row) :
    startsUnbound namespaces followsPrefix row = startsUnbound namespaces precedesName row := by
  unfold startsUnbound
  split
  · rw [followsPrefix_eq_precedesName fun hrest => h (.behind hrest)]
  · rfl

/-- A selector without error tokens is refused because of a prefix if and only if an identifier that
is not bound stands directly in front of a bar, at some depth, and no second bar follows directly.
Its text is kept otherwise. Where no comment stands in front of a bar, and each bar directly in
front of a name, of an asterisk or of a second bar, this is so if and only if an identifier that is
not bound is the prefix of a qualified name. -/
theorem unknownPrefix_iff {c : Cursor} (hsome : c.isExhausted = false)
    (hclean : errorTokenOf? c.rest = none) :
    ((∃ t after, parser namespaces c = .error ⟨.unknownPrefix t, t.start⟩ after) ↔
        Occurs (startsUnbound namespaces followsPrefix) c.rest) ∧
      ((∃ after, parser namespaces c = .ok (keptText c.rest) after) ↔
        ¬Occurs (startsUnbound namespaces followsPrefix) c.rest) ∧
      (¬Occurs startsUnusual c.rest →
        (Occurs (startsUnbound namespaces followsPrefix) c.rest ↔
          Occurs (startsUnbound namespaces precedesName) c.rest)) := by
  obtain ⟨last, houtcome⟩ := parser_of_clean namespaces hsome hclean
  refine ⟨?_, ?_, fun husual => ⟨fun h => ?_, fun h => ?_⟩⟩
  · constructor
    · rintro ⟨t, after, h⟩
      rcases houtcome with ⟨-, -, hoccurs⟩ | ⟨hread, -⟩
      · exact hoccurs
      · cases hread.symm.trans h
    · intro hoccurs
      rcases houtcome with ⟨t, herror, -⟩ | ⟨-, hno⟩
      · exact ⟨t, last, herror⟩
      · exact absurd hoccurs hno
  · constructor
    · rintro ⟨after, h⟩
      rcases houtcome with ⟨t, herror, -⟩ | ⟨-, hno⟩
      · cases herror.symm.trans h
      · exact hno
    · intro hno
      rcases houtcome with ⟨-, -, hoccurs⟩ | ⟨hread, -⟩
      · exact absurd hoccurs hno
      · exact ⟨last, hread⟩
  · exact h.imp (fun row hrow hstart => startsUnbound_eq hrow ▸ hstart) husual
  · exact h.imp (fun row hrow hstart => startsUnbound_eq hrow ▸ hstart) husual

/-- A column combinator, and a qualified name in a function whose prefix is not bound. -/
theorem unknownPrefix_iff_nested : ∃ c t after,
    Cursor.ofText "a||b:f(c|d)" = .ok c ∧ c.isExhausted = false ∧ errorTokenOf? c.rest = none ∧
      parser .empty c = .error ⟨.unknownPrefix t, t.start⟩ after := by
  obtain ⟨c, hc, hsome, hclean, hoccurs⟩ : ∃ c, Cursor.ofText "a||b:f(c|d)" = .ok c ∧
      c.isExhausted = false ∧ errorTokenOf? c.rest = none ∧
      Occurs (startsUnbound .empty followsPrefix) c.rest :=
    ⟨_, by cbv, by cbv, by cbv,
      .behind (.behind (.behind (.behind (.behind (.inside (.here rfl))))))⟩
  obtain ⟨t, after, herror⟩ := (unknownPrefix_iff hsome hclean).1.mpr hoccurs
  exact ⟨c, t, after, hc, hsome, hclean, herror⟩

/-- **The sign of an attribute is taken for a namespace.** In `[a|=b]` the bar belongs to the sign
that compares the attribute, and no qualified name occurs, but the selector is refused. -/
theorem not_unknownPrefix_iff : ∃ c t after,
    Cursor.ofText "[a|=b]" = .ok c ∧ c.isExhausted = false ∧ errorTokenOf? c.rest = none ∧
      parser .empty c = .error ⟨.unknownPrefix t, t.start⟩ after ∧
      ¬Occurs (startsUnbound .empty precedesName) c.rest := by
  refine ⟨_, ⟨.ident "a", ['a'], ⟨1, 1, 2⟩⟩, _, by cbv, by cbv, by cbv, by cbv, ?_⟩
  simp [occurs_cons_iff, occurs_nil_iff, startsUnbound, precedesName, isBar, isLocalName,
    Component.isComment]

end Selector

end Css
