import Css.Parser.Expect
import Css.Proofs.Parser.Outcome

/-!
# Parsers that accept more

`Extends p q` says that `q` reads whatever `p` reads, in the same way. There is one rule for each
combinator through which a grammar can come to accept more. There is none for `attempt`: where it
tries a parser that accepts more, it no longer takes the way that it took when the parser failed, so
a grammar may only try parsers that accept the same.
-/

namespace Css.Parser

variable {α β σ : Type} {p q : Parser α}

/-- The second parser succeeds wherever the first one does, with the same result, and leaves the
same. -/
def Extends (p q : Parser α) : Prop :=
  ∀ ⦃c a after⦄, p c = .ok a after → q c = .ok a after

/-- A parser extends itself. -/
theorem Extends.refl (p : Parser α) : Extends p p := fun _ _ _ h => h

/-- A check that refuses less accepts more. -/
theorem extends_check {P Q : Prop} [Decidable P] [Decidable Q] {f : Fault} {location : Position}
    {next : β → Parser α} {refusal : Parser α} (himp : Q → P) (h : Extends p q) :
    Extends (if P then fault f location >>= next else p) (if Q then refusal else q) := by
  intro c a after hrun
  split at hrun
  · cases hrun
  · rename_i hP
    rw [if_neg (mt himp hP)]
    exact h hrun

/-- Parts that accept more accept more in sequence. -/
theorem Extends.bind {f g : α → Parser β} (hp : Extends p q) (hf : ∀ a, Extends (f a) (g a)) :
    Extends (p >>= f) (q >>= g) := by
  intro c b after h
  obtain ⟨a, mid, hrunp, hrunf⟩ := bind_eq_ok.mp h
  exact bind_eq_ok.mpr ⟨a, mid, hp hrunp, hf a hrunf⟩

/-- After the same first part, more may be accepted. -/
theorem extends_bind {f g : α → Parser β} (hf : ∀ a, Extends (f a) (g a)) :
    Extends (p >>= f) (p >>= g) :=
  (Extends.refl p).bind hf

/-- A function of the result accepts as much as its parser. -/
theorem Extends.map {f : α → β} (hp : Extends p q) : Extends (f <$> p) (f <$> q) := by
  rw [map_eq_pure_bind, map_eq_pure_bind]
  exact hp.bind fun a => .refl (pure (f a))

/-- More components may be expected. -/
theorem extends_expect {value? other? : Component → Option α}
    (h : ∀ component a, value? component = some a → other? component = some a) :
    Extends (expect value?) (expect other?) := by
  intro c a after hrun
  obtain ⟨component, rest, hrest, hvalue, rfl⟩ := expect_eq_ok_iff.mp hrun
  exact expect_eq_ok_iff.mpr ⟨component, rest, hrest, h component a hvalue, rfl⟩

/-- Parsers that have to read everything accept more if they do otherwise. -/
theorem Extends.entirely (h : Extends p q) : Extends (entirely p) (entirely q) :=
  h.bind fun a => .refl (atEnd >>= fun _ => pure a)

/-- Parsers inside a component accept more if they do otherwise. -/
theorem Extends.inside (h : Extends p q) (component : Component) :
    Extends (inside component p) (inside component q) := by
  intro c a after hrun
  obtain ⟨hafter, opening, contents, closing, last, hgroup, hread⟩ := inside_eq_ok_iff.mp hrun
  exact inside_eq_ok_iff.mpr ⟨hafter, opening, contents, closing, last, hgroup, h.entirely hread⟩

/-- Parsers in front of a delimiter accept more if they do otherwise. -/
theorem Extends.untilBefore (h : Extends p q) (delimiters : List Char) :
    Extends (untilBefore delimiters p) (untilBefore delimiters q) := by
  intro c a after hrun
  obtain ⟨hafter, last, hread⟩ := untilBefore_eq_ok.mp hrun
  exact untilBefore_eq_ok.mpr ⟨hafter, last, h.entirely hread⟩

/-- Parsers up to a delimiter accept more if they do otherwise. -/
theorem Extends.untilAfter (h : Extends p q) (delimiters : List Char) :
    Extends (untilAfter delimiters p) (untilAfter delimiters q) :=
  (h.untilBefore delimiters).bind fun a => .refl (step >>= fun _ => pure a)

/-- A repeated step that meets no fault is repeated in the same way where more is accepted. -/
theorem collect_of_extends {more : Cursor → Bool}
    {step other : σ → Cursor → σ × EStateM.Result ParseError Cursor α}
    (hstep : ∀ {state c next a after}, step state c = (next, .ok a after) →
      other state c = (next, .ok a after))
    {state : σ} {c : Cursor} (herror : (collect more step state c).error? = none) :
    collect more other state c = collect more step state c := by
  fun_induction collect more step state c with
  | case1 state c hmore next e after hrun => cases herror
  | case2 state c hmore next a mid hrun hless others ih =>
      rw [collect, if_pos hmore, hstep hrun]
      simp only [hless, if_true, ih herror]
      rfl
  | case3 state c hmore next a mid hrun hless =>
      rw [collect, if_pos hmore, hstep hrun]
      simp only [hless, if_false]
  | case4 state c hmore => exact collect_of_not_more (by simpa using hmore)

/-- Repeated parsers accept more if each repetition does. -/
theorem Extends.repeatWhile (h : Extends p q) (more : Cursor → Bool) :
    Extends (repeatWhile more p) (repeatWhile more q) := by
  intro c items after hrun
  have hstep {state : Unit} {c : Cursor} {next : Unit} {a : α} {after : Cursor}
      (hp : (state, p c) = (next, .ok a after)) : (state, q c) = (next, .ok a after) := by
    rw [h (Prod.mk.inj hp).2]
  unfold Parser.repeatWhile at hrun ⊢
  cases herror : (collect more (fun _ c => ((), p c)) () c).error? with
  | some e => simp [herror] at hrun
  | none =>
      have hsame : collect more (fun _ c => ((), q c)) () c =
          collect more (fun _ c => ((), p c)) () c := collect_of_extends hstep herror
      rw [hsame]
      exact hrun

/-- Parsers that are repeated to the end accept more if each repetition does. -/
theorem Extends.many (h : Extends p q) : Extends (many p) (many q) := h.repeatWhile _

/-- Parsers of segments between commas accept more if they do on each segment. -/
theorem Extends.commaSeparated (h : Extends p q) :
    Extends (commaSeparated p) (commaSeparated q) := by
  refine (h.untilBefore [',']).bind fun first => ?_
  refine Extends.bind ?_ fun others => .refl (pure (first :: others))
  exact (extends_bind (p := step) fun _ => h.untilBefore [',']).repeatWhile _

/-- A parser that reads the contents of groups by itself accepts more if one level of it does. -/
theorem extends_recursive {body other : Parser α → Parser α}
    (h : ∀ {p q}, Extends p q → Extends (body p) (other q)) :
    Extends (recursive body) (recursive other) := by
  intro c
  induction c using recursive.induct with
  | case1 c ih =>
      intro a after hrun
      rw [recursive] at hrun ⊢
      refine h ?_ hrun
      intro inner b mid hinner
      dsimp only at hinner ⊢
      split at hinner
      · rename_i hdepth
        rw [if_pos hdepth]
        exact ih inner hdepth hinner
      · cases hinner

end Css.Parser
