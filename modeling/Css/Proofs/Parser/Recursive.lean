import Css.Proofs.Parser.Outcome

/-!
# Parsers of nested components

`recursive` lets a parser call itself on components that are nested less deeply. A body that calls
its argument on nothing but such components does not notice the guard, so the recursive parser is
the body of itself, `recursive_eq`. That a body does so is said with two arguments that agree up to
a depth.
-/

namespace Css

namespace Component

/-- A component is no deeper than the components among which it stands. -/
theorem depth_le_of_mem {component : Component} {components : List Component}
    (h : component ∈ components) : component.depth ≤ depthOf components := by
  induction components with
  | nil => cases h
  | cons first rest ih =>
      rw [depthOf]
      rcases List.mem_cons.mp h with rfl | hmem
      · exact le_max_left _ _
      · exact le_max_of_le_right (ih hmem)

/-- The end of a row of components is no deeper than the row. -/
theorem depthOf_le_of_suffix {components others : List Component} (h : components <:+ others) :
    depthOf components ≤ depthOf others := by
  obtain ⟨front, rfl⟩ := h
  induction front with
  | nil => exact le_rfl
  | cons first rest ih =>
      rw [List.cons_append, depthOf]
      exact le_max_of_le_right ih

end Component

namespace Parser

open Component (depthOf depthOf_le_of_suffix)

variable {α β : Type} {n : Nat} {p q : Parser α}

/-- The parsers do the same on components up to a depth. -/
def AgreeUpTo (n : Nat) (p q : Parser α) : Prop :=
  ∀ ⦃c : Cursor⦄, depthOf c.rest ≤ n → p c = q c

/-- Parsers that agree agree in sequence. -/
theorem bind_congr_of_ok {f g : α → Parser β} {c : Cursor}
    (h : ∀ a mid, p c = .ok a mid → f a mid = g a mid) : (p >>= f) c = (p >>= g) c := by
  show EStateM.bind p f c = EStateM.bind p g c
  unfold EStateM.bind
  cases hrun : p c with
  | ok a mid => exact h a mid hrun
  | error e mid => rfl

/-- Parsers that agree agree in front of the same. -/
theorem AgreeUpTo.andThen (h : AgreeUpTo n p q) (f : α → Parser β) :
    AgreeUpTo n (p >>= f) (q >>= f) := by
  intro c hc
  show EStateM.bind p f c = EStateM.bind q f c
  simp only [EStateM.bind, h hc]

/-- Parsers that agree agree in sequence, since what the first one leaves is no deeper. -/
theorem AgreeUpTo.bind {f g : α → Parser β} (hp : Advances p) (h : AgreeUpTo n p q)
    (hf : ∀ a, AgreeUpTo n (f a) (g a)) : AgreeUpTo n (p >>= f) (q >>= g) := by
  intro c hc
  rw [← h.andThen g hc]
  exact bind_congr_of_ok fun a mid hrun =>
    hf a ((depthOf_le_of_suffix (hp hrun).suffix).trans hc)

/-- Functions of results that agree agree. -/
theorem map_congr_run {f : α → β} {c : Cursor} (h : p c = q c) : (f <$> p) c = (f <$> q) c := by
  show EStateM.map f p c = EStateM.map f q c
  simp only [EStateM.map, h]

/-- Parsers that agree agree if they have to read everything. -/
theorem entirely_congr {c : Cursor} (h : p c = q c) : entirely p c = entirely q c := by
  show EStateM.bind p _ c = EStateM.bind q _ c
  simp only [EStateM.bind, h]

/-- Parsers agree inside a component if they agree on what is less deep. -/
theorem AgreeUpTo.inside {component : Component} (h : ∀ m < n, AgreeUpTo m p q)
    (hcomponent : component.depth ≤ n) (c : Cursor) :
    inside component p c = inside component q c := by
  cases component with
  | leaf t => rfl
  | group opening contents closing =>
      rw [Component.depth] at hcomponent
      have hagree := h (depthOf contents) hcomponent
      simp only [Parser.inside, within]
      rw [entirely_congr (hagree (c := ⟨contents, _⟩) le_rfl)]

/-- Repeated parsers agree if the parsers do. -/
theorem AgreeUpTo.many (hp : Advances p) (h : AgreeUpTo n p q) : AgreeUpTo n (many p) (many q) := by
  intro c hc
  have hcollect := collect_congr (fun c => !c.isExhausted)
    (fun (_ : Unit) c => ((), p c)) (fun (_ : Unit) c => ((), q c))
    (fun _ _ => True) (fun c => depthOf c.rest ≤ n)
    (fun _ hc _ => ⟨h hc, trivial⟩)
    (fun hc hstep => (depthOf_le_of_suffix (hp (congrArg Prod.snd hstep)).suffix).trans hc)
    (s := ()) (t := ()) trivial hc
  obtain ⟨hitems, herror, hcursor, -⟩ := hcollect
  simp only [Parser.many, repeatWhile, hitems, herror, hcursor]

/-- A body that calls its argument on less deep components only does not notice the guard. -/
theorem recursive_eq {body : Parser α → Parser α}
    (hbody : ∀ {n p q}, (∀ m < n, AgreeUpTo m p q) → AgreeUpTo n (body p) (body q)) (c : Cursor) :
    recursive body c = body (recursive body) c := by
  rw [recursive]
  exact hbody (fun m hm inner hinner => if_pos (Nat.lt_of_le_of_lt hinner hm)) le_rfl

end Parser

end Css
