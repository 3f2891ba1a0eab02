import Css.Proofs.Parser.Recursive
import Css.Proofs.Supports.Forms

/-!
# Terms of supports conditions

A term of a condition is a block in round brackets or a function. Whatever way it is read in, it is
read if and only if it holds no error token: the ways that are tried first fail on error tokens too,
and the last one fails on nothing else.
-/

namespace Css

open Css.Parser
open Component (significant)

/-- A value that is read holds no error token. -/
theorem PropertyValue.parser_clean (allowEmpty : Bool) :
    ReadsClean (PropertyValue.parser allowEmpty) := by
  have hspecified : ReadsClean (specifiedValue allowEmpty) := by
    have hcaptured := (readsExactly_noErrorToken.clean fun _ _ h => h).captured
    refine (clean_look Cursor.isExhausted).bind fun exhausted => ?_
    split
    · refine (clean_look Cursor.location).bind fun location => ?_
      exact (clean_fault _ _).bind fun _ => hcaptured
    · exact hcaptured
  refine clean_member.entirely.attempt.bind fun found => ?_
  split
  · exact clean_pure _
  · exact hspecified.bind fun _ => clean_pure _

/-- A declaration that is read holds no error token. -/
theorem Declaration.parser_clean (context : Context) : ReadsClean (Declaration.parser context) := by
  have hcolon : ReadsClean colon := clean_expect fun component a h => by
    split at h
    · rfl
    · cases h
  have hmark : ReadsClean (delim '!') := clean_expect fun component a h => by
    split at h
    · rfl
    · cases h
  have hname := clean_expect fun component name => Component.errorToken?_of_identName?
  have himportance : ReadsClean importance :=
    (hmark.bind fun _ => clean_identMatching "important").attempt.bind fun _ => clean_pure _
  refine hname.bind fun name => hcolon.bind fun _ => ?_
  refine ((PropertyValue.parser_clean _).untilBefore _).bind fun value => ?_
  refine (clean_look Cursor.location).bind fun location => himportance.bind fun important => ?_
  dsimp only
  split
  · exact (clean_fault _ _).bind fun _ => clean_atEnd.bind fun _ => clean_pure _
  · exact clean_atEnd.bind fun _ => clean_pure _

namespace Condition

/-- What is done with the component that a term is. -/
def termIn (context : Context) (condition : Parser Condition) (component : Component) :
    Parser Condition := do
  if isBlock .round component then
    match ← attempt (inside component condition) with
    | some c => return .parenthesized c
    | none =>
      match ← attempt (inside component (Declaration.parser context)) with
      | some d => return .declaration d
      | none => enclosed component
  else if isFunction component then enclosed component
  else unexpected component

/-- A term is told without moving. -/
theorem stays_termIn (context : Context) (condition : Parser Condition) (component : Component) :
    Stays (termIn context condition component) := by
  have henclosed : Stays (enclosed component) :=
    (stays_inside _ _).bind fun _ => stays_pure _
  unfold termIn
  split
  · refine (stays_inside _ _).attempt.bind fun nested => ?_
    split
    · exact stays_pure _
    · refine (stays_inside _ _).attempt.bind fun found => ?_
      split
      · exact stays_pure _
      · exact henclosed
  · split
    · exact henclosed
    · exact stays_unexpected _

/-- The condition that a component stands for, if it is a term. -/
def termOf? (context : Context) (component : Component) : Option Condition :=
  result? (termIn context (parser context) component)

/-- A term is read where one is. -/
theorem readsExactly_term (context : Context) :
    ReadsExactly (term context (parser context)) (Shows (termOf? context)) Anything :=
  (readsExactly_expect _).congr fun _ _ _ => next_bind_eq_ok_iff (stays_termIn context _)

/-- A term is a group. -/
theorem exists_group {component : Component}
    (h : isBlock .round component = true ∨ isFunction component = true) :
    ∃ opening contents closing, component = .group opening contents closing := by
  cases component with
  | leaf t => rcases h with h | h <;> cases h
  | group opening contents closing => exact ⟨opening, contents, closing, rfl⟩

/-- What is kept as it is written holds no error token. -/
theorem enclosed_eq_ok_iff {component : Component} {c after : Cursor} {t : Condition}
    (hgroup : isBlock .round component = true ∨ isFunction component = true) :
    enclosed component c = .ok t after ↔
      component.errorToken? = none ∧ t = .future (String.ofList component.text) ∧ after = c := by
  obtain ⟨opening, contents, closing, rfl⟩ := exists_group hgroup
  refine bind_eq_ok.trans ⟨?_, ?_⟩
  · rintro ⟨u, mid, hinside, hpure⟩
    cases hpure
    have hclean := (readsExactly_noErrorToken.clean fun _ _ h => h).errorToken?_of_inside hinside
    exact ⟨hclean, rfl, (inside_eq_ok_iff.mp hinside).1⟩
  · rintro ⟨hclean, rfl, rfl⟩
    have hread : entirely noErrorToken
        ⟨contents, Component.contentsStop opening contents closing⟩ = .ok () _ :=
      (readsExactly_noErrorToken.entirely_eq_ok_iff fun _ h => h).mpr ⟨hclean, rfl⟩
    exact ⟨(), after, inside_eq_ok_iff.mpr ⟨rfl, opening, contents, closing, _, rfl, hread⟩, rfl⟩

/-- A component with a condition is a term, if the conditions in brackets hold no error token. -/
theorem isTerm_of_termOf? {context : Context} {component : Component} {t : Condition}
    (hnested : ∀ {c before after}, inside component (parser context) before = .ok c after →
      component.errorToken? = none)
    (h : termOf? context component = some t) :
    IsTerm component ∧ StandsFor context component t := by
  have hrun : termIn context (parser context) component default = .ok t default :=
    (stays_termIn context _ component).eq_ok_iff.mpr ⟨h, rfl⟩
  unfold termIn at hrun
  split at hrun
  · rename_i hblock
    obtain ⟨nested, mid, hattempt, hrun⟩ := bind_eq_ok.mp hrun
    rcases attempt_eq_ok_iff.mp hattempt with ⟨c, rfl, hread⟩ | ⟨rfl, rfl, e, last, hfails⟩
    · cases hrun
      exact ⟨⟨.inl hblock, hnested hread⟩, .parenthesized ⟨hblock, _, _, hread⟩⟩
    · have hcondition := not_isReadInside_of_error hfails
      obtain ⟨found, mid, hattempt, hrun⟩ := bind_eq_ok.mp hrun
      rcases attempt_eq_ok_iff.mp hattempt with ⟨d, rfl, hread⟩ | ⟨rfl, rfl, e, last, hfails⟩
      · cases hrun
        exact ⟨⟨.inl hblock, (Declaration.parser_clean context).errorToken?_of_inside hread⟩,
          .declaration hcondition ⟨hblock, _, _, hread⟩⟩
      · obtain ⟨hclean, rfl, -⟩ := (enclosed_eq_ok_iff (.inl hblock)).mp hrun
        exact ⟨⟨.inl hblock, hclean⟩, .future hcondition (not_isReadInside_of_error hfails)⟩
  · rename_i hblock
    split at hrun
    · rename_i hfunction
      obtain ⟨hclean, rfl, -⟩ := (enclosed_eq_ok_iff (.inr hfunction)).mp hrun
      exact ⟨⟨.inr hfunction, hclean⟩, .future (fun _ h => hblock h.1) fun _ h => hblock h.1⟩
    · cases hrun

/-- A term stands for a condition, since its text is kept if it is read in no other way. -/
theorem exists_termOf? (context : Context) {component : Component} (h : IsTerm component) :
    ∃ t, termOf? context component = some t := by
  suffices hrun : ∃ t after, termIn context (parser context) component default = .ok t after by
    obtain ⟨t, after, hrun⟩ := hrun
    exact ⟨t, ((stays_termIn context _ component).eq_ok_iff.mp hrun).1⟩
  obtain ⟨hgroup, hclean⟩ := h
  have henclosed (c : Cursor) :
      enclosed component c = .ok (.future (String.ofList component.text)) c :=
    (enclosed_eq_ok_iff hgroup).mpr ⟨hclean, rfl, rfl⟩
  unfold termIn
  split
  · have hattempt {α : Type} (p : Parser α) (c : Cursor) :
        ∃ found after, attempt p c = .ok found after := by
      unfold attempt
      cases p c with
      | ok a mid => exact ⟨_, _, rfl⟩
      | error e mid => exact ⟨_, _, rfl⟩
    obtain ⟨nested, mid, hnested⟩ := hattempt (inside component (parser context)) default
    rw [bind_of_ok hnested]
    cases nested with
    | some c => exact ⟨_, _, rfl⟩
    | none =>
        obtain ⟨found, mid', hfound⟩ :=
          hattempt (inside component (Declaration.parser context)) mid
        show ∃ t after, (attempt _ >>= _) mid = .ok t after
        rw [bind_of_ok hfound]
        cases found with
        | some d => exact ⟨_, _, rfl⟩
        | none => exact ⟨_, _, henclosed mid'⟩
  · rename_i hblock
    have hfunction : isFunction component = true := hgroup.resolve_left hblock
    rw [if_pos hfunction]
    exact ⟨_, _, henclosed default⟩

end Condition

end Css
