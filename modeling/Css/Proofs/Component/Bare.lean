import Css.Proofs.Component.Flatten
import Css.Proofs.Token.ReadBack

/-!
# Components without their places

Two rows of components look alike if they differ in nothing but where their tokens stand:
`Component.bareOf` forgets the places. Grouping looks at what tokens say only, so it commutes with
forgetting, and grouped components come back from their tokens, `Component.ofTokens_tokensOf`.
-/

namespace Css

namespace Component

mutual

/-- The component with all its tokens at the beginning of a text. -/
def bare : Component → Component
  | leaf t => leaf t.bare
  | group opening contents closing =>
    group opening.bare (bareOf contents) (closing.map Token.bare)

/-- The components with all their tokens at the beginning of a text. -/
def bareOf : List Component → List Component
  | [] => []
  | c :: rest => c.bare :: bareOf rest

end

mutual

/-- The component is grouped where the given bracket ends the group around it: a leaf neither opens
nor ends a group, and a group ends at the bracket that its opening token calls for. -/
def IsGrouped (closer : Option Bracket) : Component → Prop
  | leaf t => t.kind.closer? = none ∧ ∀ bracket ∈ closer, t.kind ≠ .closing bracket
  | group opening contents closing => ∃ bracket, opening.kind.closer? = some bracket ∧
      AreGrouped (some bracket) contents ∧ ∃ t, closing = some t ∧ t.kind = .closing bracket

/-- The components are grouped where the given bracket ends the group around them. -/
def AreGrouped (closer : Option Bracket) : List Component → Prop
  | [] => True
  | c :: rest => c.IsGrouped closer ∧ AreGrouped closer rest

end

/-- Components look alike one by one. -/
theorem bareOf_eq_map (components : List Component) : bareOf components = components.map bare := by
  induction components with
  | nil => rfl
  | cons c rest ih => rw [bareOf, ih, List.map_cons]

/-- The components of two rows look like the components of both. -/
theorem bareOf_append (a b : List Component) : bareOf (a ++ b) = bareOf a ++ bareOf b := by
  simp [bareOf_eq_map]

/-- Two rows are grouped if each of them is. -/
theorem areGrouped_append {closer : Option Bracket} {a b : List Component} :
    AreGrouped closer (a ++ b) ↔ AreGrouped closer a ∧ AreGrouped closer b := by
  induction a with
  | nil => simp [AreGrouped]
  | cons c a ih => rw [List.cons_append, AreGrouped, AreGrouped, ih, and_assoc]

namespace Nest

/-- The nest with all its tokens at the beginning of a text. -/
def bare (nest : Nest) : Nest :=
  ⟨bareOf nest.current,
    nest.frames.map fun frame => ⟨frame.opening.bare, bareOf frame.before⟩⟩

/-- Leaving a group commutes with forgetting places. -/
theorem bareOf_leave (closing : Option Token) (current : List Component) (frame : Frame) :
    bareOf (leave closing current frame) =
      leave (closing.map Token.bare) (bareOf current)
        ⟨frame.opening.bare, bareOf frame.before⟩ := by
  simp [leave, Component.bare, bareOf_eq_map]

/-- Adding a token that ends no group commutes with forgetting places. -/
theorem bare_enter (nest : Nest) (t : Token) : (nest.enter t).bare = nest.bare.enter t.bare := by
  unfold enter
  rw [show t.bare.kind = t.kind from rfl]
  split <;> simp [bare, bareOf, Component.bare]

/-- Pushing a token commutes with forgetting places. -/
theorem bare_push (nest : Nest) (t : Token) : (nest.push t).bare = nest.bare.push t.bare := by
  obtain ⟨current, frames⟩ := nest
  cases frames with
  | nil => exact bare_enter ⟨current, []⟩ t
  | cons frame frames =>
      have hcloses : closes t.bare ⟨frame.opening.bare, bareOf frame.before⟩ = closes t frame := rfl
      rw [push_cons]
      simp only [bare, List.map_cons]
      rw [push_cons, hcloses]
      split
      · simp [bareOf_leave]
      · exact bare_enter ⟨current, frame :: frames⟩ t

/-- Leaving all groups commutes with forgetting places. -/
theorem bareOf_finish (nest : Nest) : bareOf nest.finish = nest.bare.finish := by
  obtain ⟨current, frames⟩ := nest
  simp only [finish, bare]
  rw [bareOf_eq_map, List.map_reverse, ← bareOf_eq_map]
  induction frames generalizing current with
  | nil => rfl
  | cons frame frames ih =>
      rw [List.foldl_cons, ih, bareOf_leave]
      rfl

end Nest

/-- Grouping commutes with forgetting places. -/
theorem bareOf_ofTokens (tokens : List Token) :
    bareOf (ofTokens tokens) = ofTokens (tokens.map Token.bare) := by
  have hfold (nest : Nest) :
      (tokens.foldl Nest.push nest).bare = (tokens.map Token.bare).foldl Nest.push nest.bare := by
    induction tokens generalizing nest with
    | nil => rfl
    | cons t tokens ih => rw [List.foldl_cons, ih, Nest.bare_push]; rfl
  rw [ofTokens, Nest.bareOf_finish, hfold]
  rfl

/-- The bracket that ends the innermost open group. -/
def Nest.closer? (frames : List Frame) : Option Bracket :=
  frames.head?.bind fun frame => frame.opening.kind.closer?

/-- A token that does not end the innermost open group is added to the nest. -/
theorem Nest.push_of_ne {current : List Component} {frames : List Frame} {t : Token}
    (h : ∀ bracket ∈ Nest.closer? frames, t.kind ≠ .closing bracket) :
    push ⟨current, frames⟩ t = enter ⟨current, frames⟩ t := by
  cases frames with
  | nil => rfl
  | cons frame frames =>
      rw [push_cons, if_neg]
      intro hcloses
      unfold closes at hcloses
      split at hcloses
      · rename_i bracket expected hkind hexpected
        refine h bracket ?_ hkind
        rw [decide_eq_true_eq] at hcloses
        simpa [Nest.closer?, hcloses] using hexpected
      · cases hcloses

mutual

/-- The tokens of a grouped component make up the component. -/
theorem foldl_push_tokens (component : Component) (current : List Component) (frames : List Frame)
    (h : component.IsGrouped (Nest.closer? frames)) :
    component.tokens.foldl Nest.push ⟨current, frames⟩ = ⟨component :: current, frames⟩ := by
  cases component with
  | leaf t =>
      rw [Component.tokens, List.foldl_cons, List.foldl_nil, Nest.push_of_ne h.2, Nest.enter,
        if_neg (by simp [h.1])]
  | group opening contents closing =>
      obtain ⟨bracket, hopening, hcontents, t, rfl, hkind⟩ := h
      have hne : ∀ bracket ∈ Nest.closer? frames, opening.kind ≠ .closing bracket := by
        intro other _ heq
        rw [heq] at hopening
        cases hopening
      rw [Component.tokens, List.foldl_cons, Nest.push_of_ne hne, Nest.enter,
        if_pos (by simp [hopening]), List.foldl_append,
        foldl_push_tokensOf contents [] _ (by simpa [Nest.closer?, hopening] using hcontents)]
      simp [Nest.push_cons, Nest.closes, hkind, hopening, Nest.leave]

/-- The tokens of grouped components make up the components. -/
theorem foldl_push_tokensOf (components current : List Component) (frames : List Frame)
    (h : AreGrouped (Nest.closer? frames) components) :
    (tokensOf components).foldl Nest.push ⟨current, frames⟩ =
      ⟨components.reverse ++ current, frames⟩ := by
  cases components with
  | nil => rfl
  | cons c rest =>
      rw [tokensOf, List.foldl_append, foldl_push_tokens c current frames h.1,
        foldl_push_tokensOf rest (c :: current) frames h.2]
      simp

end

/-- Grouped components come back from their tokens. -/
theorem ofTokens_tokensOf {components : List Component} (h : AreGrouped none components) :
    ofTokens (tokensOf components) = components := by
  rw [ofTokens, Nest.empty, foldl_push_tokensOf components [] [] h]
  simp [Nest.finish]

end Component

end Css
