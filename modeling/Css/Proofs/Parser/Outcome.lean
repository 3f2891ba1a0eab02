import Css.Parser.Run
import Css.Proofs.Parser.Leads

/-!
# What repeated steps come to

`Steps more step` relates the state and the cursor in front of some successful steps to those behind
them. A repeated step takes such steps up to the end or to the first one that fails,
`steps_collect`, and goes on behind them as it would from there, `Steps.collect_eq`. Two repeated
steps that agree step by step agree throughout, `collect_congr`.
-/

namespace Css.Parser

variable {α β σ τ : Type} {p : Parser α}

/-- Whether more than fillers is left, and what. -/
theorem atEnd_eq (c : Cursor) :
    atEnd c =
      match c.rest.dropWhile Component.isFiller with
      | [] => .ok () ⟨[], c.stop⟩
      | component :: rest =>
        .error ⟨.unexpectedToken component.token, component.start⟩ ⟨component :: rest, c.stop⟩ := by
  show (match (c.skip Component.isFiller).rest with
    | [] => pure ()
    | component :: _ => unexpected component : Parser Unit) (c.skip Component.isFiller) = _
  unfold Cursor.skip
  cases c.rest.dropWhile Component.isFiller with
  | nil => rfl
  | cons component rest => rfl

/-- The end is there if nothing but fillers is left. -/
theorem atEnd_eq_ok_iff {c after : Cursor} {u : Unit} :
    atEnd c = .ok u after ↔ c.isExhausted = true ∧ after = ⟨[], c.stop⟩ := by
  rw [atEnd_eq, c.isExhausted_iff]
  cases c.rest.dropWhile Component.isFiller with
  | nil => simp [eq_comm]
  | cons component rest => simp

/-- A parser reads everything if it succeeds and leaves nothing but fillers. -/
theorem entirely_eq_ok_iff {c after : Cursor} {a : α} :
    entirely p c = .ok a after ↔
      ∃ mid, p c = .ok a mid ∧ mid.isExhausted = true ∧ after = ⟨[], mid.stop⟩ := by
  unfold entirely
  rw [bind_eq_ok]
  constructor
  · rintro ⟨b, mid, hp, hrest⟩
    obtain ⟨u, last, hend, hpure⟩ := bind_eq_ok.mp hrest
    cases hpure
    exact ⟨mid, hp, atEnd_eq_ok_iff.mp hend⟩
  · rintro ⟨mid, hp, hend⟩
    exact ⟨a, mid, hp, bind_eq_ok.mpr ⟨(), after, atEnd_eq_ok_iff.mpr hend, rfl⟩⟩

/-- A parser is all there is if there is something, and it reads everything. -/
theorem only_eq_ok_iff {c after : Cursor} {a : α} :
    only p c = .ok a after ↔ c.isExhausted = false ∧ entirely p c = .ok a after := by
  unfold only
  rw [bind_eq_ok]
  constructor
  · rintro ⟨exhausted, mid, hlook, hrest⟩
    cases hlook
    cases hc : c.isExhausted with
    | true =>
        rw [hc] at hrest
        cases hrest
    | false =>
        rw [hc] at hrest
        exact ⟨rfl, hrest⟩
  · rintro ⟨hc, hrun⟩
    refine ⟨c.isExhausted, c, rfl, ?_⟩
    rw [hc]
    exact hrun

/-- Some successful steps, with what they read. -/
inductive Steps (more : Cursor → Bool)
    (step : σ → Cursor → σ × EStateM.Result ParseError Cursor α) :
    σ → Cursor → List α → σ → Cursor → Prop where
  | refl (state : σ) (c : Cursor) : Steps more step state c [] state c
  | cons {state next last : σ} {c mid after : Cursor} {a : α} {items : List α}
      (hmore : more c = true) (hstep : step state c = (next, .ok a mid))
      (hrest : Steps more step next mid items last after) :
      Steps more step state c (a :: items) last after

variable {more : Cursor → Bool} {step : σ → Cursor → σ × EStateM.Result ParseError Cursor α}

/-- Every successful step leaves less than there was. -/
def Shrinks (step : σ → Cursor → σ × EStateM.Result ParseError Cursor α) : Prop :=
  ∀ ⦃state c next a after⦄, step state c = (next, .ok a after) →
    after.rest.length < c.rest.length

/-- What every step keeps, steps keep. -/
theorem Steps.invariant (inv : σ → Cursor → Prop) {state last : σ} {c after : Cursor}
    {items : List α} (h : Steps more step state c items last after) (hstart : inv state c)
    (hkeep : ∀ {state next c a mid}, inv state c → step state c = (next, .ok a mid) →
      inv next mid) : inv last after := by
  induction h with
  | refl => exact hstart
  | cons _ hstep _ ih => exact ih (hkeep hstart hstep)

/-- A repeated step is not taken where nothing is left. -/
theorem collect_of_not_more {state : σ} {c : Cursor} (h : more c = false) :
    collect more step state c = ⟨[], none, state, c⟩ := by
  rw [collect, if_neg (by simp [h])]

/-- A repeated step that fails is the last one. -/
theorem collect_of_error {state next : σ} {c after : Cursor} {e : ParseError}
    (h : more c = true) (hstep : step state c = (next, .error e after)) :
    collect more step state c = ⟨[], some e, next, after⟩ := by
  rw [collect, if_pos h, hstep]

/-- A repeated step goes on behind some of its steps as from there. -/
theorem Steps.collect_eq {state last : σ} {c after : Cursor} {items : List α}
    (h : Steps more step state c items last after) (hshrinks : Shrinks step) :
    collect more step state c =
      { collect more step last after with
        items := items ++ (collect more step last after).items } := by
  induction h with
  | refl => rfl
  | cons hmore hstep _ ih =>
      rw [collect, if_pos hmore, hstep]
      simp only [hshrinks hstep, if_true, ih, List.cons_append]

/-- A repeated step takes its steps up to the end or to the first one that fails. -/
theorem steps_collect (more : Cursor → Bool) (hshrinks : Shrinks step) (state : σ) (c : Cursor) :
    ∃ last after, Steps more step state c (collect more step state c).items last after ∧
      ((more after = false ∧ (collect more step state c).error? = none ∧
          (collect more step state c).state = last ∧
          (collect more step state c).cursor = after) ∨
        ∃ e, more after = true ∧ (collect more step state c).error? = some e ∧
          step last after =
            ((collect more step state c).state,
              .error e (collect more step state c).cursor)) := by
  fun_induction collect more step state c with
  | case1 state c hmore next e after hstep =>
      exact ⟨state, c, .refl state c, .inr ⟨e, hmore, rfl, hstep⟩⟩
  | case2 state c hmore next a mid hstep _ others ih =>
      obtain ⟨last, after, hsteps, hend⟩ := ih
      exact ⟨last, after, .cons hmore hstep hsteps, hend⟩
  | case3 state c hmore next a mid hstep hless => exact absurd (hshrinks hstep) hless
  | case4 state c hmore =>
      exact ⟨state, c, .refl state c, .inl ⟨by simpa using hmore, rfl, rfl, rfl⟩⟩

/-- Two repeated steps agree if they agree step by step, where related states and an invariant of
the cursor are kept. -/
theorem collect_congr (more : Cursor → Bool)
    (step : σ → Cursor → σ × EStateM.Result ParseError Cursor α)
    (step' : τ → Cursor → τ × EStateM.Result ParseError Cursor α)
    (rel : σ → τ → Prop) (inv : Cursor → Prop)
    (hstep : ∀ {s t c}, rel s t → inv c → more c = true →
      (step s c).2 = (step' t c).2 ∧ rel (step s c).1 (step' t c).1)
    (hinv : ∀ {s c next a after}, inv c → step s c = (next, .ok a after) → inv after)
    {s : σ} {t : τ} {c : Cursor} (hrel : rel s t) (hc : inv c) :
    (collect more step s c).items = (collect more step' t c).items ∧
      (collect more step s c).error? = (collect more step' t c).error? ∧
      (collect more step s c).cursor = (collect more step' t c).cursor ∧
      rel (collect more step s c).state (collect more step' t c).state := by
  revert t
  fun_induction collect more step s c with
  | case1 s c hmore next e after hrun =>
      intro t hrel
      obtain ⟨hsame, hnext⟩ := hstep hrel hc hmore
      rw [hrun] at hsame hnext
      have hother : step' t c = ((step' t c).1, .error e after) := Prod.ext rfl hsame.symm
      rw [collect_of_error hmore hother]
      exact ⟨rfl, rfl, rfl, hnext⟩
  | case2 s c hmore next a mid hrun hless others ih =>
      intro t hrel
      obtain ⟨hsame, hnext⟩ := hstep hrel hc hmore
      rw [hrun] at hsame hnext
      have hother : step' t c = ((step' t c).1, .ok a mid) := Prod.ext rfl hsame.symm
      obtain ⟨hitems, herror, hcursor, hstate⟩ := ih (hinv hc hrun) hnext
      rw [collect.eq_def more step' t c, if_pos hmore, hother]
      simp only [hless, if_true]
      exact ⟨congrArg (List.cons a) hitems, herror, hcursor, hstate⟩
  | case3 s c hmore next a mid hrun hless =>
      intro t hrel
      obtain ⟨hsame, hnext⟩ := hstep hrel hc hmore
      rw [hrun] at hsame hnext
      have hother : step' t c = ((step' t c).1, .ok a mid) := Prod.ext rfl hsame.symm
      rw [collect.eq_def more step' t c, if_pos hmore, hother]
      simp only [hless, if_false]
      exact ⟨trivial, trivial, trivial, hnext⟩
  | case4 s c hmore =>
      intro t hrel
      rw [collect_of_not_more (by simpa using hmore)]
      exact ⟨rfl, rfl, rfl, hrel⟩

/-- A repeated parser reads one item and then the others, for as long as there is more. -/
theorem repeatWhile_eq (more : Cursor → Bool) (p : Parser α) (c : Cursor) :
    repeatWhile more p c =
      if more c then
        match p c with
        | .error e after => .error e after
        | .ok a after =>
          if after.rest.length < c.rest.length then (List.cons a <$> repeatWhile more p) after
          else .ok [a] after
      else .ok [] c := by
  rw [repeatWhile, collect]
  cases hmore : more c with
  | false => simp
  | true =>
      cases hp : p c with
      | error e after => simp
      | ok a after =>
          by_cases hless : after.rest.length < c.rest.length
          · have hmap : (List.cons a <$> repeatWhile more p) after =
                EStateM.map (List.cons a) (repeatWhile more p) after := rfl
            simp only [if_true, hless, hmap, EStateM.map, repeatWhile]
            cases (collect more (fun _ c => ((), p c)) () after).error? <;> rfl
          · simp [hless]

end Css.Parser
