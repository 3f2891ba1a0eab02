import Css.Proofs.Component.Bare

/-!
# Groups that the end of the text cuts off

Only the last group of a row can be cut off, and in it again only the last one: the groups that are
still open when the tokens end are nested into each other. `Component.AreOpen` says so of a row of
components, and `Component.areOpen_ofTokens` says it of the components that tokens make up.
-/

namespace Css

namespace Component

mutual

/-- The component is a group that the end of the text cut off. -/
def IsCutOff : Component → Prop
  | group opening contents none => ∃ bracket, opening.kind.closer? = some bracket ∧
      AreOpen (some bracket) contents
  | _ => False

/-- The components are grouped where the given bracket ends the group around them, but the last of
them may be cut off. -/
def AreOpen (closer : Option Bracket) : List Component → Prop
  | [] => True
  | c :: rest => c.IsGrouped closer ∧ AreOpen closer rest ∨ c.IsCutOff ∧ rest = []

end

/-- Components that are grouped need not be cut off. -/
theorem AreGrouped.areOpen {closer : Option Bracket} {components : List Component}
    (h : AreGrouped closer components) : AreOpen closer components := by
  induction components with
  | nil => trivial
  | cons c rest ih => exact .inl ⟨h.1, ih h.2⟩

/-- Behind grouped components, the last one may be cut off. -/
theorem areOpen_append {closer : Option Bracket} {a b : List Component} (hb : b ≠ []) :
    AreOpen closer (a ++ b) ↔ AreGrouped closer a ∧ AreOpen closer b := by
  induction a with
  | nil => simp [AreGrouped]
  | cons c a ih =>
      rw [List.cons_append, AreOpen, ih, AreGrouped]
      simp [hb, and_assoc]

/-- What is cut off has no closing bracket. -/
theorem IsCutOff.not_isGrouped {c : Component} (h : c.IsCutOff) (closer : Option Bracket) :
    ¬c.IsGrouped closer := by
  cases c with
  | leaf t => cases h
  | group opening contents closing =>
      rintro ⟨bracket, -, -, t, rfl, -⟩
      cases h

/-- A row that is a group is the group if it is cut off, and grouped otherwise. -/
theorem areOpen_singleton {closer : Option Bracket} {c : Component} :
    AreOpen closer [c] ↔ c.IsGrouped closer ∨ c.IsCutOff := by
  simp [AreOpen]

namespace Nest

/-- The frames around the innermost group were opened by tokens that open groups, and what stands in
front of each is grouped. -/
def AreFrames : List Frame → Prop
  | [] => True
  | frame :: frames => frame.opening.kind.closer?.isSome ∧
      AreGrouped (closer? frames) frame.before.reverse ∧ AreFrames frames

/-- What a nest holds is grouped, as far as it is closed. -/
structure IsSound (nest : Nest) : Prop where
  current : AreGrouped (closer? nest.frames) nest.current.reverse
  frames : AreFrames nest.frames

/-- Behind grouped components, one more component is grouped with them. -/
theorem areGrouped_reverse_cons {closer : Option Bracket} {c : Component} {before : List Component}
    (hbefore : AreGrouped closer before.reverse) (hc : c.IsGrouped closer) :
    AreGrouped closer (c :: before).reverse := by
  rw [List.reverse_cons]
  exact areGrouped_append.mpr ⟨hbefore, hc, trivial⟩

/-- A token that does not end the innermost group keeps a nest sound. -/
theorem IsSound.enter {nest : Nest} (h : nest.IsSound) {t : Token}
    (ht : ∀ bracket ∈ closer? nest.frames, t.kind ≠ .closing bracket) : (nest.enter t).IsSound := by
  unfold Nest.enter
  split
  · exact ⟨trivial, ‹_›, h.current, h.frames⟩
  · rename_i hcloser
    refine ⟨areGrouped_reverse_cons h.current ⟨?_, ht⟩, h.frames⟩
    simpa using hcloser

/-- Pushing a token keeps a nest sound. -/
theorem IsSound.push {nest : Nest} (h : nest.IsSound) (t : Token) : (nest.push t).IsSound := by
  obtain ⟨current, frames⟩ := nest
  cases frames with
  | nil => exact h.enter nofun
  | cons frame frames =>
      obtain ⟨hcurrent, hopening, hbefore, hframes⟩ := h
      rw [push_cons]
      split
      · rename_i hcloses
        unfold closes at hcloses
        split at hcloses
        · rename_i bracket expected hkind hexpected
          rw [decide_eq_true_eq] at hcloses
          subst hcloses
          refine ⟨areGrouped_reverse_cons hbefore ⟨bracket, hexpected, ?_, t, rfl, hkind⟩, hframes⟩
          simpa [closer?, hexpected] using hcurrent
        · cases hcloses
      · rename_i hcloses
        refine IsSound.enter ⟨hcurrent, hopening, hbefore, hframes⟩ fun bracket hbracket hkind => ?_
        refine hcloses ?_
        have hexpected : frame.opening.kind.closer? = some bracket := hbracket
        simp [closes, hkind, hexpected]

/-- Leaving all groups of a sound nest cuts off nothing but the last one of each row. -/
theorem IsSound.areOpen_finish {nest : Nest} (h : nest.IsSound) : AreOpen none nest.finish := by
  obtain ⟨current, frames⟩ := nest
  obtain ⟨hcurrent, hframes⟩ := h
  have hopen := hcurrent.areOpen
  clear hcurrent
  unfold finish
  dsimp only at hframes hopen ⊢
  induction frames generalizing current with
  | nil => exact hopen
  | cons frame frames ih =>
      obtain ⟨hopening, hbefore, hframes⟩ := hframes
      obtain ⟨bracket, hbracket⟩ := Option.isSome_iff_exists.mp hopening
      refine ih _ hframes ?_
      rw [leave, List.reverse_cons]
      refine (areOpen_append (List.cons_ne_nil _ _)).mpr ⟨hbefore, areOpen_singleton.mpr (.inr ?_)⟩
      refine ⟨bracket, hbracket, ?_⟩
      simpa [closer?, hbracket] using hopen

end Nest

/-- In the components that tokens make up, only the last one of a row is cut off. -/
theorem areOpen_ofTokens (tokens : List Token) : AreOpen none (ofTokens tokens) := by
  have hfold (nest : Nest) (h : nest.IsSound) : (tokens.foldl Nest.push nest).IsSound := by
    induction tokens generalizing nest with
    | nil => exact h
    | cons t tokens ih => exact ih _ (h.push t)
  exact (hfold .empty ⟨trivial, trivial⟩).areOpen_finish

end Component

end Css
