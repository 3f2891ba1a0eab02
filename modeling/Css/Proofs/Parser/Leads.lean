import Css.Proofs.Parser.Expect

/-!
# Where parsers lead

A parser that succeeds leaves an end of what it was given, in front of the same place. Confined
parsers read their part without moving, so what a parser leaves follows from the few combinators
that move. A parser that `Consumes` leaves less than it was given.
-/

namespace Css

namespace Cursor

/-- The second cursor stands at or behind the first, in the same components. -/
structure Leads (c after : Cursor) : Prop where
  suffix : after.rest <:+ c.rest
  stop : after.stop = c.stop

/-- A cursor leads to itself. -/
theorem Leads.refl (c : Cursor) : c.Leads c := ⟨List.suffix_rfl, rfl⟩

/-- What leads on leads on together. -/
theorem Leads.trans {c mid after : Cursor} (h : c.Leads mid) (h' : mid.Leads after) :
    c.Leads after :=
  ⟨h'.suffix.trans h.suffix, h'.stop.trans h.stop⟩

/-- Skipping leads on. -/
theorem leads_skip (c : Cursor) (skipped : Component → Bool) : c.Leads (c.skip skipped) :=
  ⟨List.dropWhile_suffix skipped, rfl⟩

/-- What was read and what is left make up what there was. -/
theorem Leads.read_append {c after : Cursor} (h : c.Leads after) :
    c.read after ++ after.rest = c.rest := by
  obtain ⟨front, hfront⟩ := h.suffix
  rw [read, ← hfront, List.length_append, Nat.add_sub_cancel, List.take_left]

/-- Nothing but fillers is left behind fillers. -/
theorem isExhausted_iff (c : Cursor) :
    c.isExhausted = true ↔ c.rest.dropWhile Component.isFiller = [] := by
  rw [isExhausted, List.all_eq_true, List.dropWhile_eq_nil_iff]

/-- More than fillers is left in front of a component that is none. -/
theorem isExhausted_of_cons {c : Cursor} {component : Component} {rest : List Component}
    (h : c.rest.dropWhile Component.isFiller = component :: rest) : c.isExhausted = false := by
  rw [Bool.eq_false_iff, ne_eq, c.isExhausted_iff, h]
  exact List.cons_ne_nil component rest

end Cursor

namespace Parser

variable {α β : Type} {p : Parser α}

/-- The parser, if it succeeds, leads on. -/
def Advances (p : Parser α) : Prop :=
  ∀ ⦃c a after⦄, p c = .ok a after → c.Leads after

/-- The parser, if it succeeds, leads on over something. -/
def Consumes (p : Parser α) : Prop :=
  ∀ ⦃c a after⦄, p c = .ok a after → c.Leads after ∧ after.rest.length < c.rest.length

/-- What leads on over something leads on. -/
theorem Consumes.advances (h : Consumes p) : Advances p := fun _ _ _ hrun => (h hrun).1

/-- A result without reading does not move. -/
theorem advances_pure (a : α) : Advances (pure a : Parser α) := by
  intro c b after hrun
  cases hrun
  exact .refl c

/-- A refusal leads nowhere. -/
theorem advances_fault (f : Fault) (location : Position) :
    Advances (fault f location : Parser α) := by
  intro c a after hrun
  cases hrun

/-- A refused component leads nowhere. -/
theorem advances_unexpected (component : Component) :
    Advances (unexpected component : Parser α) := advances_fault _ _

/-- Parts that lead on lead on in sequence. -/
theorem Advances.bind {f : α → Parser β} (hp : Advances p) (hf : ∀ a, Advances (f a)) :
    Advances (p >>= f) := by
  intro c b after hrun
  obtain ⟨a, mid, hrunp, hrunf⟩ := bind_eq_ok.mp hrun
  exact (hp hrunp).trans (hf a hrunf)

/-- A sequence leads on over something if its first part does. -/
theorem Consumes.bind {f : α → Parser β} (hp : Consumes p) (hf : ∀ a, Advances (f a)) :
    Consumes (p >>= f) := by
  intro c b after hrun
  obtain ⟨a, mid, hrunp, hrunf⟩ := bind_eq_ok.mp hrun
  obtain ⟨hmid, hlength⟩ := hp hrunp
  have hafter := hf a hrunf
  exact ⟨hmid.trans hafter, Nat.lt_of_le_of_lt hafter.suffix.length_le hlength⟩

/-- A sequence leads on over something if its second part does. -/
theorem Advances.bind_consumes {f : α → Parser β} (hp : Advances p) (hf : ∀ a, Consumes (f a)) :
    Consumes (p >>= f) := by
  intro c b after hrun
  obtain ⟨a, mid, hrunp, hrunf⟩ := bind_eq_ok.mp hrun
  obtain ⟨hafter, hlength⟩ := hf a hrunf
  have hmid := hp hrunp
  exact ⟨hmid.trans hafter, Nat.lt_of_lt_of_le hlength hmid.suffix.length_le⟩

/-- Asking whether something is left does not move. -/
theorem advances_isExhausted : Advances isExhausted := by
  intro c a after hrun
  cases hrun
  exact .refl c

/-- An attempt leads on, or does not move. -/
theorem Advances.attempt (hp : Advances p) : Advances (attempt p) := by
  intro c found after hrun
  unfold Parser.attempt at hrun
  cases h : p c with
  | ok a mid =>
      rw [h] at hrun
      cases hrun
      exact hp h
  | error e mid =>
      rw [h] at hrun
      cases hrun
      exact .refl c

/-- The next component is passed. -/
theorem consumes_nextAfter (skipped : Component → Bool) : Consumes (nextAfter skipped) := by
  intro c a after hrun
  rw [nextAfter_eq] at hrun
  cases hrest : c.rest.dropWhile skipped with
  | nil =>
      rw [hrest] at hrun
      cases hrun
  | cons component rest =>
      rw [hrest] at hrun
      cases hrun
      have hsuffix := Component.suffix_of_dropWhile hrest
      refine ⟨⟨(List.suffix_cons _ _).trans hsuffix, rfl⟩, ?_⟩
      have hlength := hsuffix.length_le
      simp only [List.length_cons] at hlength
      exact hlength

/-- The next component is passed. -/
theorem consumes_next : Consumes next := consumes_nextAfter _

/-- A component that is expected is passed. -/
theorem consumes_expect (value? : Component → Option α) : Consumes (expect value?) := by
  refine consumes_next.bind fun component => ?_
  split
  · exact advances_pure _
  · exact advances_unexpected _

/-- A confined parser reads all of its part, and leaves the cursor alone. -/
theorem within_eq_ok_iff {contents : List Component} {stop : Position} {c after : Cursor} {a : α} :
    within contents stop p c = .ok a after ↔
      after = c ∧ ∃ last, entirely p ⟨contents, stop⟩ = .ok a last := by
  unfold within
  cases entirely p ⟨contents, stop⟩ with
  | ok b last => simp [eq_comm, and_comm]
  | error e last => simp

/-- A parser inside a component reads all that a group holds. -/
theorem inside_eq_ok_iff {component : Component} {c after : Cursor} {a : α} :
    inside component p c = .ok a after ↔ after = c ∧ ∃ opening contents closing last,
      component = .group opening contents closing ∧
        entirely p ⟨contents, Component.contentsStop opening contents closing⟩ = .ok a last := by
  cases component with
  | leaf t =>
      constructor
      · intro h
        cases h
      · rintro ⟨_, _, _, _, _, ⟨⟩, _⟩
  | group opening contents closing =>
      refine within_eq_ok_iff.trans (and_congr_right fun _ => ?_)
      constructor
      · rintro ⟨last, h⟩
        exact ⟨opening, contents, closing, last, rfl, h⟩
      · rintro ⟨_, _, _, last, ⟨⟩, h⟩
        exact ⟨last, h⟩

/-- A parser inside a group does not move. -/
theorem advances_inside (component : Component) (p : Parser α) :
    Advances (inside component p) := by
  intro c a after hrun
  obtain ⟨rfl, _⟩ := inside_eq_ok_iff.mp hrun
  exact .refl _

/-- A parser in front of a delimiter succeeds on the components in front of the delimiter, and leads
to it. -/
theorem untilBefore_eq_ok {delimiters : List Char} {c after : Cursor} {a : α} :
    untilBefore delimiters p c = .ok a after ↔
      after = c.skip (fun component => !isDelimiter delimiters component) ∧
        ∃ last, entirely p ⟨c.read after, after.location⟩ = .ok a last := by
  unfold untilBefore
  dsimp only
  constructor
  · intro h
    split at h
    · rename_i b mid hwithin
      cases h
      exact ⟨rfl, (within_eq_ok_iff.mp hwithin).2⟩
    · cases h
  · rintro ⟨rfl, hlast⟩
    rw [within_eq_ok_iff.mpr ⟨rfl, hlast⟩]

/-- A parser in front of a delimiter leads to the delimiter. -/
theorem advances_untilBefore (delimiters : List Char) (p : Parser α) :
    Advances (untilBefore delimiters p) := by
  intro c a after hrun
  obtain ⟨rfl, _⟩ := untilBefore_eq_ok.mp hrun
  exact c.leads_skip _

end Parser

end Css
