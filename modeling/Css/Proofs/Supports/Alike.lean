import Css.Proofs.Declaration.RoundTrip
import Css.Proofs.Supports.Accepts

/-!
# Conditions do not depend on places

Components that look like those from which a condition is read are read as the same condition,
`Condition.reads_of_spelled`. The induction is on how deeply the components are nested: what a term
stands for is asked of its contents.
-/

namespace Css

open Css.Parser
open Component (significant bareOf)

namespace Component

mutual

/-- Components that look alike have the same text. -/
theorem text_bare (c : Component) : c.bare.text = c.text := by
  cases c with
  | leaf t => rfl
  | group opening contents closing =>
      cases closing <;> simp [bare, text, textOf_bareOf contents, Token.bare]

/-- Rows that look alike have the same text. -/
theorem textOf_bareOf (components : List Component) :
    textOf (bareOf components) = textOf components := by
  cases components with
  | nil => rfl
  | cons c rest => rw [bareOf, textOf, textOf, text_bare c, textOf_bareOf rest]

end

/-- The significant components of rows that look alike look alike one by one. -/
theorem forall₂_significant_of_bareOf {components others : List Component}
    (h : bareOf others = bareOf components) :
    List.Forall₂ (fun c d => c.bare = d.bare) (significant components) (significant others) := by
  have hmap (row : List Component) : (significant row).map bare = significant (bareOf row) := by
    rw [bareOf_eq_map, significant, significant, List.filter_map]
    exact congrArg (List.map bare ·)
      (List.filter_congr fun c _ => by rw [Function.comp_apply, isFiller_bare])
  have heq : (significant components).map bare = (significant others).map bare := by
    rw [hmap, hmap, h]
  rw [← List.forall₂_eq_eq_eq, List.forall₂_map_left_iff, List.forall₂_map_right_iff] at heq
  exact heq

end Component

namespace Condition

variable {context : Context}

/-- A component that is kept as it is written. -/
def kept? (component : Component) : Option Condition :=
  if component.errorToken? = none then some (.future (String.ofList component.text)) else none

/-- What is kept of a group is its text, unless it holds an error token. -/
theorem result?_enclosed {component : Component}
    (hgroup : isBlock .round component = true ∨ isFunction component = true) :
    result? (enclosed component) = kept? component := by
  have hstays : Stays (enclosed component) := (stays_inside _ _).bind fun _ => stays_pure _
  ext t
  have hrun : result? (enclosed component) = some t ↔ enclosed component default = .ok t default :=
    ⟨fun h => hstays.eq_ok_iff.mpr ⟨h, rfl⟩, fun h => (hstays.eq_ok_iff.mp h).1⟩
  rw [hrun, enclosed_eq_ok_iff hgroup, kept?]
  split
  · rename_i hclean
    exact ⟨fun h => congrArg some h.2.1.symm, fun h => ⟨hclean, (Option.some.inj h).symm, rfl⟩⟩
  · rename_i herror
    exact ⟨fun h => absurd h.1 herror, nofun⟩

/-- What a term stands for: a condition in brackets, else a declaration in brackets, else its
text. -/
theorem termOf?_eq (context : Context) (component : Component) : termOf? context component =
    if isBlock .round component then
      ((result? (inside component (parser context))).map .parenthesized).or
        (((result? (inside component (Declaration.parser context))).map .declaration).or
          (kept? component))
    else if isFunction component then kept? component else none := by
  have hinside {α : Type} (p : Parser α) : Stays (inside component p) := stays_inside _ _
  unfold termOf? termIn
  split
  · rename_i hblock
    rw [(hinside _).attempt.result?_bind, (hinside _).result?_attempt, Option.bind_some]
    cases result? (inside component (parser context)) with
    | some c => rfl
    | none =>
        show result? (attempt _ >>= _) = _
        rw [(hinside _).attempt.result?_bind, (hinside _).result?_attempt, Option.bind_some]
        cases result? (inside component (Declaration.parser context)) with
        | some d => rfl
        | none => exact result?_enclosed (.inl hblock)
  · split
    · rename_i hfunction
      exact result?_enclosed (.inr hfunction)
    · rfl

/-- Forms are spelled by what agrees in its words. -/
theorem Form.Spells.of_forall₂ {form : Form} {terms components others : List Component}
    {R : Component → Component → Prop} (h : form.Spells terms components)
    (hrow : List.Forall₂ R components others) (hR : ∀ c d, R c d → keyword? c = keyword? d) :
    ∃ again, form.Spells again others ∧ List.Forall₂ R terms again := by
  cases h with
  | negation hword =>
      rcases hrow with _ | ⟨hfirst, _ | ⟨hterm, _ | _⟩⟩
      exact ⟨[_], .negation (hR _ _ hfirst ▸ hword), .cons hterm .nil⟩
  | single term =>
      rcases hrow with _ | ⟨hterm, _ | _⟩
      exact ⟨[_], .single _, .cons hterm .nil⟩
  | @joined connective first pairs hsome hwords =>
      obtain ⟨first, behind, hfirst, hbehind, rfl⟩ := List.forall₂_cons_left_iff.mp hrow
      -- the words and terms behind the first one agree pair by pair
      obtain ⟨again, rfl, hterms, hagain, hlength⟩ : ∃ again : List (Component × Component),
          behind = (again.flatMap fun other => [other.1, other.2]) ∧
          List.Forall₂ R (pairs.map Prod.snd) (again.map Prod.snd) ∧
          (∀ other ∈ again, keyword? other.1 = some (Vocabulary.word connective)) ∧
          again.length = pairs.length := by
        clear hsome hrow
        induction pairs generalizing behind with
        | nil =>
            cases hbehind
            exact ⟨[], rfl, .nil, nofun, rfl⟩
        | cons pair pairs ih =>
            obtain ⟨hpair, hpairs⟩ := List.forall_mem_cons.mp hwords
            rcases hbehind with _ | ⟨hword, _ | ⟨hterm, hbehind⟩⟩
            obtain ⟨again, rfl, hterms, hagain, hlength⟩ := ih hpairs _ hbehind
            exact ⟨(_, _) :: again, rfl, .cons hterm hterms,
              List.forall_mem_cons.mpr ⟨hR _ _ hword ▸ hpair, hagain⟩, by simp [hlength]⟩
      have hne :
          again ≠ [] := fun hnil => hsome (List.length_eq_zero_iff.mp (by simp [← hlength, hnil]))
      exact ⟨_, .joined hne hagain, .cons hfirst hterms⟩

/-- Terms that stand for the same make up the same condition. -/
theorem Spelled.of_forall₂ {c : Condition} {components others : List Component}
    (h : Spelled context c components)
    (hrow : List.Forall₂
      (fun a b => keyword? a = keyword? b ∧ termOf? context a = termOf? context b)
      components others) : Spelled context c others := by
  obtain ⟨form, terms, children, hspells, hterms, hmakes⟩ := h
  obtain ⟨again, hagain, hsame⟩ := hspells.of_forall₂ hrow fun _ _ h => h.1
  refine ⟨form, again, children, hagain, ?_, hmakes⟩
  clear hspells hagain hmakes
  induction hsame generalizing children with
  | nil => exact hterms
  | cons hfirst _ ih =>
      cases hterms with
      | cons hchild hterms => exact .cons (hfirst.2 ▸ hchild) (ih _ hterms)

/-- A condition is read entirely where one is spelled. -/
theorem entirely_parser_eq_ok_iff {c after : Cursor} {t : Condition} :
    entirely (parser context) c = .ok t after ↔
      Spelled context t (significant c.rest) ∧ after = ⟨[], c.stop⟩ :=
  (parser_readsExactly context).entirely_eq_ok_iff fun _ h => h

/-- A declaration is read entirely where one is spelled. -/
theorem entirely_declaration_eq_ok_iff {c after : Cursor} {d : Declaration} :
    entirely (Declaration.parser context) c = .ok d after ↔
      Declaration.Spelled context d c.rest ∧ after = ⟨[], c.stop⟩ := by
  rw [entirely_eq_ok_iff]
  constructor
  · rintro ⟨mid, hread, -, rfl⟩
    obtain ⟨hspelled, rfl⟩ := Declaration.parser_eq_ok_iff.mp hread
    exact ⟨hspelled, rfl⟩
  · rintro ⟨hspelled, rfl⟩
    exact ⟨_, Declaration.parser_eq_ok_iff.mpr ⟨hspelled, rfl⟩, rfl, rfl⟩

/-- Inside a group, a parser has the result that is spelled by the contents. -/
theorem result?_inside_eq_some_iff {α : Type} {p : Parser α} (spelled : α → List Component → Prop)
    (hp : ∀ {c after : Cursor} {a : α},
      entirely p c = .ok a after ↔ spelled a c.rest ∧ after = ⟨[], c.stop⟩)
    {opening : Token} {contents : List Component} {closing : Option Token} {a : α} :
    result? (inside (.group opening contents closing) p) = some a ↔ spelled a contents := by
  have hstays := stays_inside (.group opening contents closing) p
  constructor
  · intro h
    obtain ⟨-, _, _, _, inner, heq, hcontents⟩ :=
      inside_eq_ok_iff.mp ((hstays.eq_ok_iff (c := default)).mpr ⟨h, rfl⟩)
    cases heq
    exact (hp.mp hcontents).1
  · intro h
    have hinside : inside (.group opening contents closing) p default = .ok a default :=
      inside_eq_ok_iff.mpr ⟨rfl, opening, contents, closing, _, rfl, hp.mpr ⟨h, rfl⟩⟩
    exact (hstays.eq_ok_iff.mp hinside).1

/-- A condition is inside of a group if it is spelled there. -/
theorem result?_inside_parser_eq_some_iff {opening : Token} {contents : List Component}
    {closing : Option Token} {c : Condition} :
    result? (inside (.group opening contents closing) (parser context)) = some c ↔
      Spelled context c (significant contents) :=
  result?_inside_eq_some_iff (fun c part => Spelled context c (significant part))
    entirely_parser_eq_ok_iff

/-- A declaration is inside of a group if it is spelled there. -/
theorem result?_inside_declaration_eq_some_iff {opening : Token} {contents : List Component}
    {closing : Option Token} {d : Declaration} :
    result? (inside (.group opening contents closing) (Declaration.parser context)) = some d ↔
      Declaration.Spelled context d contents :=
  result?_inside_eq_some_iff _ entirely_declaration_eq_ok_iff

/-- The same is kept of components that look alike. -/
theorem kept?_of_bare {component other : Component} (h : other.bare = component.bare) :
    kept? component = kept? other := by
  have hclean : component.errorToken? = none ↔ other.errorToken? = none := by
    rw [← Option.not_isSome_iff_eq_none, ← Option.not_isSome_iff_eq_none,
      ← Component.isSeen_errorToken?.bare component, ← h, Component.isSeen_errorToken?.bare other]
  rw [kept?, kept?, ← Component.text_bare component, ← h, Component.text_bare other]
  simp only [hclean]

/-- Blocks look alike. -/
theorem isBlock_bare (bracket : Bracket) (component : Component) :
    isBlock bracket component.bare = isBlock bracket component := by
  cases component with
  | leaf t => rfl
  | group opening contents closing =>
      obtain ⟨kind, _, _⟩ := opening
      cases kind <;> rfl

/-- Functions look alike. -/
theorem isFunction_bare (component : Component) :
    isFunction component.bare = isFunction component := by
  cases component with
  | leaf t => rfl
  | group opening contents closing =>
      obtain ⟨kind, _, _⟩ := opening
      cases kind <;> rfl

/-- Terms that look alike stand for the same, if the conditions in them do. -/
theorem termOf?_of_bare {component other : Component} (hlook : other.bare = component.bare)
    (hnested : ∀ opening contents closing, component = .group opening contents closing →
      ∀ others, bareOf others = bareOf contents → ∀ c,
        Spelled context c (significant contents) ↔ Spelled context c (significant others)) :
    termOf? context component = termOf? context other := by
  rw [termOf?_eq, termOf?_eq, kept?_of_bare hlook, ← isBlock_bare .round component,
    ← isFunction_bare component, ← hlook, isBlock_bare, isFunction_bare]
  cases component with
  | leaf t =>
      cases other with
      | leaf u => rfl
      | group => cases hlook
  | group opening contents closing =>
      cases other with
      | leaf u => cases hlook
      | group opening' others closing' =>
          rw [Component.bare, Component.bare, Component.group.injEq] at hlook
          obtain ⟨-, hcontents, -⟩ := hlook
          have hcondition : result? (inside (.group opening contents closing) (parser context)) =
              result? (inside (.group opening' others closing') (parser context)) := by
            ext c
            rw [result?_inside_parser_eq_some_iff, result?_inside_parser_eq_some_iff]
            exact hnested opening contents closing rfl others hcontents c
          have hdeclaration :
              result? (inside (.group opening contents closing) (Declaration.parser context)) =
                result? (inside (.group opening' others closing')
                  (Declaration.parser context)) := by
            ext d
            rw [result?_inside_declaration_eq_some_iff, result?_inside_declaration_eq_some_iff]
            exact ⟨fun h => h.of_bareOf hcontents, fun h => h.of_bareOf hcontents.symm⟩
          rw [hcondition, hdeclaration]

/-- What looks like a condition is the same one. -/
theorem spelled_iff_of_bareOf {components others : List Component}
    (hlook : bareOf others = bareOf components) (c : Condition) :
    Spelled context c (significant components) ↔ Spelled context c (significant others) := by
  induction hdepth : Component.depthOf components using Nat.strong_induction_on
    generalizing components others c with
  | _ n ih =>
    have hterm {component other : Component} (hmem : component ∈ components)
        (hbare : component.bare = other.bare) :
        keyword? component = keyword? other ∧
          termOf? context component = termOf? context other := by
      refine ⟨?_, termOf?_of_bare hbare.symm fun opening contents closing heq others hlook c => ?_⟩
      · rw [← Component.isSeen_keyword?.bare component, hbare, Component.isSeen_keyword?.bare other]
      · have hless : Component.depthOf contents < n := by
          have hle := Component.depth_le_of_mem hmem
          rw [heq, Component.depth] at hle
          omega
        exact ih _ hless hlook c rfl
    have hrow : List.Forall₂ (fun a b => keyword? a = keyword? b ∧
        termOf? context a = termOf? context b) (significant components) (significant others) := by
      have hmem : ∀ a ∈ significant components, a ∈ components := fun a ha =>
        (List.mem_filter.mp ha).1
      exact ((List.forall₂_and_left _ _).mpr
        ⟨hmem, Component.forall₂_significant_of_bareOf hlook⟩).imp
        fun a b h => hterm h.1 h.2
    exact ⟨fun h => h.of_forall₂ hrow, fun h =>
      h.of_forall₂ (hrow.flip.imp fun _ _ h => ⟨h.1.symm, h.2.symm⟩)⟩

/-- A condition is read from what it is spelled with. -/
theorem reads_of_spelled {components : List Component} {c : Condition}
    (h : Spelled context c (significant components)) :
    Reads (entirely (parser context)) components (Exactly c []) := by
  intro cursor hlook
  exact ⟨c, _, entirely_parser_eq_ok_iff.mpr ⟨(spelled_iff_of_bareOf hlook c).mp h, rfl⟩, [],
    rfl, rfl, rfl⟩

end Condition

end Css
