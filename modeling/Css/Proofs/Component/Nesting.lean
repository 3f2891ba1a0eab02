import Css.Proofs.Component.Open

/-!
# Grouping and flattening

Components are built as groups are built, and nested as brackets nest, if they come back from their
tokens, `Component.ofTokens_tokensOf_eq_iff`: then no row of them holds the bracket that ends the
group around it, no token that opens a group stands alone, what is not closed is the last of its
row, and what is closed holds nothing that is not. Without the last condition they need not come
back, `Component.not_ofTokens_tokensOf_of_nested`.
-/

namespace Css

namespace Component

/-- The rows among components: the components themselves, and what a group in such a row holds. The
bracket is the one that ends the group around the row. -/
inductive Row (components : List Component) : Option Bracket → List Component → Prop where
  | outermost : Row components none components
  | contents {closer : Option Bracket} {row : List Component} {opening : Token}
      {contents : List Component} {closing : Option Token} (h : Row components closer row)
      (hgroup : group opening contents closing ∈ row) :
      Row components opening.kind.closer? contents

/-- A group starts with a token that opens groups, and is closed by the bracket that this token
calls for, if it is closed. -/
def AreGroups (components : List Component) : Prop :=
  ∀ ⦃closer row opening contents closing⦄, Row components closer row →
    group opening contents closing ∈ row →
      ∃ bracket, opening.kind.closer? = some bracket ∧ ∀ t ∈ closing, t.kind = .closing bracket

/-- The components are nested as the brackets among their tokens are. -/
structure IsNested (components : List Component) : Prop where
  /-- No group directly holds a bracket of the kind that closes the group. -/
  ne_closing : ∀ ⦃closer row t⦄, Row components closer row → leaf t ∈ row →
    ∀ bracket ∈ closer, t.kind ≠ .closing bracket
  /-- No token that opens a group stands alone. -/
  closer?_eq_none : ∀ ⦃closer row t⦄, Row components closer row → leaf t ∈ row →
    t.kind.closer? = none
  /-- A group that is not closed is the last component of its row. -/
  unclosed_last : ∀ ⦃closer front opening contents back⦄,
    Row components closer (front ++ group opening contents none :: back) → back = []

/-- No group that is closed directly holds one that is not. -/
def ClosedInside (components : List Component) : Prop :=
  ∀ ⦃closer row opening contents t⦄, Row components closer row →
    group opening contents (some t) ∈ row →
      ∀ opening contents', group opening contents' none ∉ contents

section

variable {closer : Option Bracket} {components row : List Component}

/-- A leaf of a row opens no group, and does not end the group around the row. -/
theorem AreOpen.leaf {t : Token} (h : AreOpen closer row) (ht : Component.leaf t ∈ row) :
    t.kind.closer? = none ∧ ∀ bracket ∈ closer, t.kind ≠ .closing bracket := by
  induction row with
  | nil => cases ht
  | cons c rest ih =>
      rcases h with ⟨hc, hrest⟩ | ⟨hcut, rfl⟩
      · rcases List.mem_cons.mp ht with rfl | ht
        · exact hc
        · exact ih hrest ht
      · obtain rfl := List.mem_singleton.mp ht
        exact hcut.elim

/-- A group of a row starts with a token that calls for a bracket, and its contents are grouped up
to that bracket if it is there. -/
theorem AreOpen.group {opening : Token} {contents : List Component} {closing : Option Token}
    (h : AreOpen closer row) (hgroup : Component.group opening contents closing ∈ row) :
    ∃ bracket, opening.kind.closer? = some bracket ∧ AreOpen (some bracket) contents ∧
      ∀ t ∈ closing, t.kind = .closing bracket ∧ AreGrouped (some bracket) contents := by
  induction row with
  | nil => cases hgroup
  | cons c rest ih =>
      rcases h with ⟨hc, hrest⟩ | ⟨hcut, rfl⟩
      · rcases List.mem_cons.mp hgroup with rfl | hgroup
        · obtain ⟨bracket, hopening, hcontents, t, rfl, hkind⟩ := hc
          refine ⟨bracket, hopening, hcontents.areOpen, ?_⟩
          intro u hu
          cases hu
          exact ⟨hkind, hcontents⟩
        · exact ih hrest hgroup
      · obtain rfl := List.mem_singleton.mp hgroup
        cases closing with
        | some t => exact hcut.elim
        | none =>
            obtain ⟨bracket, hopening, hcontents⟩ := hcut
            exact ⟨bracket, hopening, hcontents, nofun⟩

/-- A group among grouped components is closed. -/
theorem AreGrouped.group_none_notMem (h : AreGrouped closer row) (opening : Token)
    (contents : List Component) : Component.group opening contents none ∉ row := by
  induction row with
  | nil => exact List.not_mem_nil
  | cons c rest ih =>
      intro hmem
      rcases List.mem_cons.mp hmem with rfl | hmem
      · obtain ⟨_, _, _, t, hclosing, _⟩ := h.1
        cases hclosing
      · exact ih h.2 hmem

/-- Every row among components that may be cut off at the end is such a row. -/
theorem Row.areOpen (hrow : Row components closer row) (h : AreOpen none components) :
    AreOpen closer row := by
  induction hrow with
  | outermost => exact h
  | contents _ hgroup ih =>
      obtain ⟨bracket, hopening, hcontents, -⟩ := ih.group hgroup
      rw [hopening]
      exact hcontents

/-- Components of which only the last one of a row is cut off are built and nested as brackets are,
and closed inside of what is closed. -/
theorem AreOpen.isNested (h : AreOpen none components) :
    AreGroups components ∧ IsNested components ∧ ClosedInside components := by
  refine ⟨?_, ⟨?_, ?_, ?_⟩, ?_⟩
  · intro closer row opening contents closing hrow hgroup
    obtain ⟨bracket, hopening, -, hclosing⟩ := (hrow.areOpen h).group hgroup
    exact ⟨bracket, hopening, fun t ht => (hclosing t ht).1⟩
  · intro closer row t hrow ht
    exact ((hrow.areOpen h).leaf ht).2
  · intro closer row t hrow ht
    exact ((hrow.areOpen h).leaf ht).1
  · intro closer front opening contents back hrow
    obtain ⟨-, hback⟩ := (areOpen_append (List.cons_ne_nil _ _)).mp (hrow.areOpen h)
    rcases hback with ⟨⟨_, _, _, t, hclosing, _⟩, -⟩ | ⟨-, hback⟩
    · cases hclosing
    · exact hback
  · intro closer row opening contents t hrow hgroup
    obtain ⟨bracket, -, -, hclosing⟩ := (hrow.areOpen h).group hgroup
    exact (hclosing t rfl).2.group_none_notMem

/-- A row of which no group is cut off is grouped. -/
theorem AreOpen.areGrouped (h : AreOpen closer row)
    (hclosed : ∀ opening contents, Component.group opening contents none ∉ row) :
    AreGrouped closer row := by
  induction row with
  | nil => trivial
  | cons c rest ih =>
      rcases h with ⟨hc, hrest⟩ | ⟨hcut, -⟩
      · exact ⟨hc, ih hrest fun opening contents hmem => hclosed opening contents (.tail c hmem)⟩
      · cases c with
        | leaf t => exact hcut.elim
        | group opening contents closing =>
            cases closing with
            | some t => exact hcut.elim
            | none => exact absurd (List.mem_cons_self ..) (hclosed opening contents)

mutual

/-- A component of a row among nested components is grouped, or a group that is cut off. -/
theorem IsNested.isGrouped (hgroups : AreGroups components) (hnested : IsNested components)
    (hclosed : ClosedInside components) (closer : Option Bracket) (row : List Component)
    (hrow : Row components closer row) (c : Component) (hc : c ∈ row) :
    c.IsGrouped closer ∨ c.IsCutOff := by
  cases c with
  | leaf t => exact .inl ⟨hnested.closer?_eq_none hrow hc, hnested.ne_closing hrow hc⟩
  | group opening contents closing =>
      obtain ⟨bracket, hopening, hclosing⟩ := hgroups hrow hc
      -- the contents are a row of their own, read from its start
      have hcontents : AreOpen (some bracket) contents := by
        refine IsNested.areOpen hgroups hnested hclosed (some bracket) [] contents ?_
        rw [← hopening]
        exact hrow.contents hc
      cases closing with
      | none => exact .inr ⟨bracket, hopening, hcontents⟩
      | some t =>
          have hgrouped := hcontents.areGrouped (hclosed hrow hc)
          exact .inl ⟨bracket, hopening, hgrouped, t, rfl, hclosing t rfl⟩

/-- The end of a row among nested components is cut off at its last component at most. -/
theorem IsNested.areOpen (hgroups : AreGroups components) (hnested : IsNested components)
    (hclosed : ClosedInside components) (closer : Option Bracket) (front rest : List Component)
    (hrow : Row components closer (front ++ rest)) : AreOpen closer rest := by
  cases rest with
  | nil => trivial
  | cons c rest =>
      have hc : c ∈ front ++ c :: rest := List.mem_append_right front (List.mem_cons_self ..)
      -- what stands in front matters only because the whole is a row
      have hrest : AreOpen closer rest := by
        refine IsNested.areOpen hgroups hnested hclosed closer (front ++ [c]) rest ?_
        rw [List.append_assoc]
        exact hrow
      rcases IsNested.isGrouped hgroups hnested hclosed closer _ hrow c hc with hgrouped | hcut
      · exact .inl ⟨hgrouped, hrest⟩
      · refine .inr ⟨hcut, ?_⟩
        cases c with
        | leaf t => exact hcut.elim
        | group opening contents closing =>
            cases closing with
            | some t => exact hcut.elim
            | none => exact hnested.unclosed_last hrow

end

end

mutual

/-- What the end of the text cuts off is left open by its tokens, and closed without a bracket when
all groups are left. -/
theorem finish_push_tokens (component : Component) (current : List Component) (frames : List Frame)
    (h : component.IsCutOff) :
    (component.tokens.foldl Nest.push ⟨current, frames⟩).finish =
      Nest.finish ⟨component :: current, frames⟩ := by
  cases component with
  | leaf t => exact h.elim
  | group opening contents closing =>
      cases closing with
      | some t => exact h.elim
      | none =>
          obtain ⟨bracket, hopening, hcontents⟩ := h
          have hne : ∀ bracket ∈ Nest.closer? frames, opening.kind ≠ .closing bracket := by
            intro other _ heq
            rw [heq] at hopening
            cases hopening
          have hcloser : Nest.closer? (⟨opening, current⟩ :: frames) = some bracket := hopening
          rw [Component.tokens, Option.toList_none, List.append_nil, List.foldl_cons,
            Nest.push_of_ne hne, Nest.enter, if_pos (by simp [hopening]),
            finish_push_tokensOf contents [] _ (by rwa [hcloser]), List.append_nil]
          simp [Nest.finish, Nest.leave]

/-- The tokens of components make up the components when all groups are left. -/
theorem finish_push_tokensOf (components current : List Component) (frames : List Frame)
    (h : AreOpen (Nest.closer? frames) components) :
    ((tokensOf components).foldl Nest.push ⟨current, frames⟩).finish =
      Nest.finish ⟨components.reverse ++ current, frames⟩ := by
  cases components with
  | nil => rfl
  | cons c rest =>
      rw [tokensOf, List.foldl_append]
      rcases h with ⟨hc, hrest⟩ | ⟨hcut, rfl⟩
      · rw [foldl_push_tokens c current frames hc,
          finish_push_tokensOf rest (c :: current) frames hrest]
        simp
      · rw [tokensOf, List.foldl_nil, finish_push_tokens c current frames hcut]
        simp

end

/-- Components of which only the last one of each row may be cut off come back from their tokens. -/
theorem AreOpen.ofTokens_tokensOf {components : List Component} (h : AreOpen none components) :
    ofTokens (tokensOf components) = components := by
  rw [ofTokens, Nest.empty, finish_push_tokensOf components [] [] h]
  simp [Nest.finish]

/-- Tokens are the tokens of their components, which are built and nested as brackets are; and
components are those of their tokens if and only if they are built and nested in this way, and
closed inside of what is closed. -/
theorem ofTokens_tokensOf_eq_iff (tokens : List Token) (components : List Component) :
    tokensOf (ofTokens tokens) = tokens ∧ AreGroups (ofTokens tokens) ∧
      IsNested (ofTokens tokens) ∧ ClosedInside (ofTokens tokens) ∧
      (ofTokens (tokensOf components) = components ↔
        AreGroups components ∧ IsNested components ∧ ClosedInside components) := by
  obtain ⟨hgroups, hnested, hclosed⟩ := (areOpen_ofTokens tokens).isNested
  refine ⟨tokensOf_ofTokens tokens, hgroups, hnested, hclosed, ?_, ?_⟩
  · intro h
    rw [← h]
    exact (areOpen_ofTokens (tokensOf components)).isNested
  · rintro ⟨hgroups, hnested, hclosed⟩
    have hopen : AreOpen none components :=
      IsNested.areOpen hgroups hnested hclosed none [] components .outermost
    exact hopen.ofTokens_tokensOf

/-- What stands inside of the inner group of `([a)`. -/
def crossedInside : List Component := [leaf (.written (.ident "a"))]

/-- The components of `([a)`, if the last bracket closes the outer group and none the inner one. -/
def crossed : List Component :=
  [group (.written (.opening .round)) [group (.written (.opening .square)) crossedInside none]
    (some (.written (.closing .round)))]

/-- The rows among the crossed components. -/
theorem row_crossed {closer : Option Bracket} {row : List Component} (h : Row crossed closer row) :
    (closer = none ∧ row = crossed) ∨
      (closer = some .round ∧ row = [group (.written (.opening .square)) crossedInside none]) ∨
      (closer = some .square ∧ row = crossedInside) := by
  induction h with
  | outermost => exact .inl ⟨rfl, rfl⟩
  | contents _ hgroup ih =>
      rcases ih with ⟨-, rfl⟩ | ⟨-, rfl⟩ | ⟨-, rfl⟩
      · cases List.mem_singleton.mp hgroup
        exact .inr (.inl ⟨rfl, rfl⟩)
      · cases List.mem_singleton.mp hgroup
        exact .inr (.inr ⟨rfl, rfl⟩)
      · cases List.mem_singleton.mp hgroup

/-- The only leaf among the crossed components is the name. -/
theorem leaf_crossed {closer : Option Bracket} {row : List Component} {t : Token}
    (h : Row crossed closer row) (ht : leaf t ∈ row) : t = .written (.ident "a") := by
  rcases row_crossed h with ⟨-, rfl⟩ | ⟨-, rfl⟩ | ⟨-, rfl⟩
  · cases List.mem_singleton.mp ht
  · cases List.mem_singleton.mp ht
  · cases List.mem_singleton.mp ht
    rfl

/-- A closed group that ends with one that is not closed is built and nested as brackets are, and is
not what its tokens make up: there the bracket of the outer group stands in the inner one. -/
theorem not_ofTokens_tokensOf_of_nested :
    AreGroups crossed ∧ IsNested crossed ∧ ofTokens (tokensOf crossed) ≠ crossed := by
  refine ⟨?_, ⟨?_, ?_, ?_⟩, ?_⟩
  · intro closer row opening contents closing hrow hgroup
    rcases row_crossed hrow with ⟨-, rfl⟩ | ⟨-, rfl⟩ | ⟨-, rfl⟩
    · cases List.mem_singleton.mp hgroup
      exact ⟨.round, rfl, fun t ht => by cases ht; rfl⟩
    · cases List.mem_singleton.mp hgroup
      exact ⟨.square, rfl, nofun⟩
    · cases List.mem_singleton.mp hgroup
  · intro closer row t hrow ht bracket _ hkind
    rw [leaf_crossed hrow ht] at hkind
    cases hkind
  · intro closer row t hrow ht
    rw [leaf_crossed hrow ht]
    rfl
  · intro closer front opening contents back hrow
    -- every row holds one component, so nothing is left for what follows the group
    have hlength : (front ++ group opening contents none :: back).length = 1 := by
      rcases row_crossed hrow with ⟨-, hrow⟩ | ⟨-, hrow⟩ | ⟨-, hrow⟩ <;> rw [hrow] <;> rfl
    rw [List.length_append, List.length_cons] at hlength
    exact List.eq_nil_of_length_eq_zero (by omega)
  · intro h
    have hopen : ofTokens (tokensOf crossed) =
        [group (.written (.opening .round))
          [group (.written (.opening .square))
            (crossedInside ++ [leaf (.written (.closing .round))]) none] none] := rfl
    rw [hopen] at h
    cases h

end Component

end Css
