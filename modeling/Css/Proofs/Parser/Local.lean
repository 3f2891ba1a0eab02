import Css.Proofs.Parser.Significant

/-!
# Repeated steps that look at nothing behind them

A step is local if it skips fillers, passes over something, and reads what it passes over alike
whatever follows. Steps in a row are then local as well, `Local.steps`. So a repeated step
over two rows of components comes to what it comes to over the first row and, from there, over the
second, `Local.joins`. What it read up to a fault is what it reads in front of the fault,
`Local.exists_front_of_error`.
-/

namespace Css

namespace Cursor

/-- Fillers are skipped once. -/
theorem skip_skip (c : Cursor) (skipped : Component → Bool) :
    (c.skip skipped).skip skipped = c.skip skipped := by
  simp only [skip, List.dropWhile_idempotent]

/-- As much is left behind fillers as in front of them. -/
theorem isExhausted_skip (c : Cursor) :
    (c.skip Component.isFiller).isExhausted = c.isExhausted := by
  rw [Bool.eq_iff_iff, isExhausted_iff, isExhausted_iff, skip, List.dropWhile_idempotent]

end Cursor

namespace Parser

variable {α σ : Type} {step : σ → Cursor → σ × EStateM.Result ParseError Cursor α}
  {closed : List Component → Prop}

/-- More than fillers is left to read. -/
abbrev hasMore (c : Cursor) : Bool := !c.isExhausted

/-- The step reads what it passes over, and nothing behind it. This need not hold of a step that
comes to the end of components that are not closed. -/
structure Local (closed : List Component → Prop)
    (step : σ → Cursor → σ × EStateM.Result ParseError Cursor α) : Prop where
  skip : ∀ state c, step state (c.skip Component.isFiller) = step state c
  leads : ∀ {state c next a after}, step state c = (next, .ok a after) →
    c.Leads after ∧ after.rest.length < c.rest.length
  closed_of_suffix : ∀ {components rest}, closed components → rest <:+ components → closed rest
  exists_front : ∀ {state c next a after}, step state c = (next, .ok a after) →
    after.rest ≠ [] ∨ closed c.rest →
    ∃ front, c.rest.dropWhile Component.isFiller = front ++ after.rest ∧ ∀ tail stop,
      step state ⟨front ++ tail, stop⟩ = (next, .ok a ⟨tail, stop⟩)

/-- An outcome is put together from what two rows come to: the items of both, and everything else
from the second. The fillers between the rows may be left. -/
structure Outcome.Joins (whole before behind : Outcome σ α) : Prop where
  items : whole.items = before.items ++ behind.items
  error? : whole.error? = behind.error?
  state : whole.state = behind.state
  cursor : whole.cursor.skip Component.isFiller = behind.cursor.skip Component.isFiller

namespace Local

/-- A local step leaves less than there was. -/
theorem shrinks (h : Local closed step) : Shrinks step := fun _ _ _ _ _ hstep => (h.leads hstep).2

/-- The fillers in front of what a step reads may be read along. -/
theorem exists_front_of_ok (h : Local closed step) {state next : σ} {c after : Cursor} {a : α}
    (hstep : step state c = (next, .ok a after)) (hend : after.rest ≠ [] ∨ closed c.rest) :
    ∃ front, c.rest = front ++ after.rest ∧ ∀ tail stop,
      step state ⟨front ++ tail, stop⟩ = (next, .ok a ⟨tail, stop⟩) := by
  obtain ⟨front, hfront, hlocal⟩ := h.exists_front hstep hend
  refine ⟨c.rest.takeWhile Component.isFiller ++ front, ?_, fun tail stop => ?_⟩
  · rw [List.append_assoc, ← hfront, List.takeWhile_append_dropWhile]
  · have hskip : Cursor.skip Component.isFiller
        ⟨c.rest.takeWhile Component.isFiller ++ (front ++ tail), stop⟩ =
          Cursor.skip Component.isFiller ⟨front ++ tail, stop⟩ := by
      rw [Cursor.skip, Cursor.skip,
        List.dropWhile_append_of_pos (List.all_eq_true.mp List.all_takeWhile)]
    rw [List.append_assoc, ← h.skip, hskip, h.skip, hlocal]

/-- A step passes over more than fillers. -/
theorem hasMore_front (h : Local closed step) {state next : σ} {a : α} {front : List Component}
    (hfront : ∀ tail stop, step state ⟨front ++ tail, stop⟩ = (next, .ok a ⟨tail, stop⟩))
    (tail : List Component) (stop : Position) : hasMore ⟨front ++ tail, stop⟩ = true := by
  by_contra hmore
  have hfillers : ∀ component ∈ front, component.isFiller = true := by
    simp only [hasMore, Bool.not_eq_true, Bool.not_eq_false', Cursor.isExhausted,
      List.all_append, Bool.and_eq_true] at hmore
    exact List.all_eq_true.mp hmore.1
  have hskip : Cursor.skip Component.isFiller ⟨front ++ [], stop⟩ = ⟨[], stop⟩ :=
    Cursor.skip_append hfillers (by simp)
  have hstep := hfront [] stop
  rw [← h.skip, hskip] at hstep
  exact absurd (h.shrinks hstep) (Nat.lt_irrefl 0)

/-- Steps read what they pass over, and nothing behind it. -/
theorem steps (h : Local closed step) {state last : σ} {c after : Cursor} {items : List α}
    (hsteps : Steps hasMore step state c items last after)
    (hend : after.rest ≠ [] ∨ closed c.rest) :
    ∃ front, c.rest = front ++ after.rest ∧ ∀ tail stop,
      Steps hasMore step state ⟨front ++ tail, stop⟩ items last ⟨tail, stop⟩ := by
  induction hsteps with
  | refl state c => exact ⟨[], rfl, fun tail stop => .refl state ⟨tail, stop⟩⟩
  | cons hmore hstep hrest ih =>
      rename_i state next last c mid after a items
      have hmid : mid.rest ≠ [] ∨ closed c.rest := by
        refine hend.imp_left fun hafter hnil => ?_
        cases hrest with
        | refl => exact hafter hnil
        | cons hmid _ _ => simp [hasMore, Cursor.isExhausted, hnil] at hmid
      obtain ⟨front, hfront, hlocal⟩ := h.exists_front_of_ok hstep hmid
      have hsuffix : mid.rest <:+ c.rest := ⟨front, hfront.symm⟩
      obtain ⟨others, hothers, hsteps⟩ :=
        ih (hend.imp_right fun hclosed => h.closed_of_suffix hclosed hsuffix)
      refine ⟨front ++ others, by rw [hfront, hothers, List.append_assoc], fun tail stop => ?_⟩
      rw [List.append_assoc]
      exact .cons (h.hasMore_front hlocal _ stop) (hlocal _ stop) (hsteps tail stop)

/-- Fillers in front do not matter. -/
theorem collect_of_skip (h : Local closed step) (state : σ) {c d : Cursor}
    (hskip : c.skip Component.isFiller = d.skip Component.isFiller) :
    (collect hasMore step state c).Joins ⟨[], none, state, d⟩ (collect hasMore step state d) := by
  have hmore : hasMore c = hasMore d := by
    rw [hasMore, ← c.isExhausted_skip, hskip, d.isExhausted_skip]
  have hstep : step state c = step state d := by rw [← h.skip, hskip, h.skip]
  cases hd : hasMore d with
  | false =>
      rw [collect_of_not_more (hmore.trans hd), collect_of_not_more hd]
      exact ⟨rfl, rfl, rfl, hskip⟩
  | true =>
      have heq : collect hasMore step state c = collect hasMore step state d := by
        rw [collect, if_pos (hmore.trans hd), hstep, collect.eq_def _ _ _ d, if_pos hd]
        cases hrun : step state d with
        | mk next result =>
            cases result with
            | error e after => rfl
            | ok a after => simp only [h.shrinks hrun, h.shrinks (hstep.trans hrun), if_true]
      rw [heq]
      exact ⟨rfl, rfl, rfl, rfl⟩

/-- A repeated step over two rows of components, of which it reads the first one to its end, comes
to what it comes to over the second one from there. -/
theorem joins (h : Local closed step) {state : σ} {first second : List Component}
    {stop stop' : Position} (herror : (collect hasMore step state ⟨first, stop⟩).error? = none)
    (hclosed : closed first) :
    (collect hasMore step state ⟨first ++ second, stop'⟩).Joins
      (collect hasMore step state ⟨first, stop⟩)
      (collect hasMore step (collect hasMore step state ⟨first, stop⟩).state ⟨second, stop'⟩) := by
  obtain ⟨last, after, hsteps, ⟨hmore, -, hlast, -⟩ | ⟨e, -, hsome, -⟩⟩ :=
    steps_collect hasMore h.shrinks state ⟨first, stop⟩
  · obtain ⟨front, hfront, hlocal⟩ := h.steps hsteps (.inr hclosed)
    have hexhausted : after.isExhausted = true := by simpa [hasMore] using hmore
    have hskip : Cursor.skip Component.isFiller ⟨after.rest ++ second, stop'⟩ =
        Cursor.skip Component.isFiller ⟨second, stop'⟩ := by
      rw [Cursor.skip, Cursor.skip, List.dropWhile_append_of_pos (List.all_eq_true.mp hexhausted)]
    have hwhole := (hlocal (after.rest ++ second) stop').collect_eq h.shrinks
    have hbehind := h.collect_of_skip last hskip
    have hfirst : first = front ++ after.rest := hfront
    rw [← List.append_assoc, ← hfirst] at hwhole
    rw [hwhole, hlast]
    exact ⟨congrArg _ hbehind.items, hbehind.error?, hbehind.state, hbehind.cursor⟩
  · rw [hsome] at herror
    cases herror

/-- What a repeated step reads up to a fault is what it reads in front of the step that fails, and
the fault is the one of that step. -/
theorem exists_front_of_error (h : Local closed step) {state : σ} {c : Cursor} {e : ParseError}
    (herror : (collect hasMore step state c).error? = some e) :
    ∃ last front back, c.rest = front ++ back ∧
      (∀ stop, collect hasMore step state ⟨front, stop⟩ =
        ⟨(collect hasMore step state c).items, none, last, ⟨[], stop⟩⟩) ∧
      collect hasMore step last ⟨back, c.stop⟩ =
        { collect hasMore step state c with items := [] } := by
  obtain ⟨last, after, hsteps, ⟨-, hnone, -, -⟩ | ⟨_, hmore, hsome, hstep⟩⟩ :=
    steps_collect hasMore h.shrinks state c
  · rw [hnone] at herror
    cases herror
  · have hafter : after.rest ≠ [] := by
      intro hnil
      simp [hasMore, Cursor.isExhausted, hnil] at hmore
    obtain ⟨front, hfront, hlocal⟩ := h.steps hsteps (.inl hafter)
    refine ⟨last, front, after.rest, hfront, fun stop => ?_, ?_⟩
    · have hrun := (hlocal [] stop).collect_eq h.shrinks
      rw [List.append_nil] at hrun
      rw [hrun, collect_of_not_more rfl, List.append_nil]
    · have hstop : after.stop = c.stop :=
        hsteps.invariant (fun _ mid => mid.stop = c.stop) rfl
          fun hmid hrun => (h.leads hrun).1.stop.trans hmid
      rw [← hstop, collect_of_error hmore hstep, ← hsome]

end Local

end Parser

end Css
