import Css.Proofs.Parser.Exact
import Css.Proofs.Parser.Recursive

/-!
# Error tokens

Reading without error tokens walks into groups, where the contents have to be read to their end. It
succeeds if no error token stands on its own at any depth, and names the first one otherwise,
`noErrorToken_eq_ok_iff`. Seen from outside, a group is therefore passed like a single token: by a
look at the error tokens that it holds, `cleanWith_noErrorToken`.
-/

namespace Css

namespace Component

mutual

/-- The tokens that stand on their own in a component, at any depth, in order. -/
def leaves : Component → List Token
  | leaf t => [t]
  | group _ contents _ => leavesOf contents

/-- The tokens that stand on their own in components, at any depth, in order. -/
def leavesOf : List Component → List Token
  | [] => []
  | c :: rest => c.leaves ++ leavesOf rest

end

mutual

/-- The tokens that stand on their own are tokens of the component, in the same order. -/
theorem leaves_sublist (component : Component) : component.leaves.Sublist component.tokens := by
  cases component with
  | leaf t => exact List.Sublist.refl [t]
  | group opening contents closing =>
      exact ((leavesOf_sublist contents).trans (List.sublist_append_left _ _)).cons opening

/-- The tokens that stand on their own are tokens of the components, in the same order. -/
theorem leavesOf_sublist (components : List Component) :
    (leavesOf components).Sublist (tokensOf components) := by
  cases components with
  | nil => exact List.Sublist.refl []
  | cons c rest => exact (leaves_sublist c).append (leavesOf_sublist rest)

end

mutual

/-- The error token of a component is the first one that stands on its own. -/
theorem errorToken?_eq_find? (component : Component) :
    component.errorToken? = component.leaves.find? fun t => t.kind.isError := by
  cases component with
  | leaf t =>
      rw [errorToken?, leaves, List.find?_singleton]
  | group opening contents closing => exact errorTokenOf?_eq_find? contents

/-- The error token of components is the first one that stands on its own. -/
theorem errorTokenOf?_eq_find? (components : List Component) :
    errorTokenOf? components = (leavesOf components).find? fun t => t.kind.isError := by
  cases components with
  | nil => rfl
  | cons c rest =>
      rw [errorTokenOf?, leavesOf, List.find?_append, errorToken?_eq_find? c,
        errorTokenOf?_eq_find? rest]

end

/-- A filler is no error token. -/
theorem errorToken?_of_isFiller {component : Component} (h : component.isFiller = true) :
    component.errorToken? = none := by
  cases component with
  | leaf t =>
      obtain ⟨kind, text, start⟩ := t
      cases kind <;> first | rfl | cases h
  | group => cases h

/-- There is no error token in components if there is none in the significant ones. -/
theorem errorTokenOf?_eq_none_iff {components : List Component} :
    errorTokenOf? components = none ↔
      ∀ component ∈ significant components, component.errorToken? = none := by
  induction components with
  | nil => simp [errorTokenOf?, significant]
  | cons component rest ih =>
      rw [errorTokenOf?, Option.or_eq_none_iff, ih]
      cases hfiller : component.isFiller with
      | false => simp [significant_cons hfiller]
      | true =>
          have hskip : significant (component :: rest) = significant rest := by
            simp [significant, hfiller]
          rw [hskip, errorToken?_of_isFiller hfiller]
          exact and_iff_right rfl

/-- There is no error token in two rows of components if there is none in either. -/
theorem errorTokenOf?_append_eq_none_iff {a b : List Component} :
    errorTokenOf? (a ++ b) = none ↔ errorTokenOf? a = none ∧ errorTokenOf? b = none := by
  rw [errorTokenOf?_append, Option.or_eq_none_iff]

/-- There is no error token in fillers. -/
theorem errorTokenOf?_of_significant {components : List Component}
    (h : significant components = []) : errorTokenOf? components = none := by
  rw [errorTokenOf?_eq_none_iff, h]
  nofun

/-- An identifier is no filler. -/
theorem isFiller_of_identName? {component : Component} {name : String}
    (h : Parser.identName? component = some name) : component.isFiller = false := by
  obtain ⟨⟨_, _, _⟩, rfl, rfl⟩ := Parser.identName?_eq_some h
  rfl

/-- An identifier is no error token. -/
theorem errorToken?_of_identName? {component : Component} {name : String}
    (h : Parser.identName? component = some name) : component.errorToken? = none := by
  obtain ⟨t, rfl, hkind⟩ := Parser.identName?_eq_some h
  simp [errorToken?, hkind, Token.Kind.isError]

end Component

open Component (errorTokenOf? errorTokenOf?_of_significant)

namespace Parser

/-- What is done with a component stays where it is. -/
theorem advances_cleanWith (contents : Parser Unit) (component : Component) :
    Advances (cleanWith contents component) := by
  unfold cleanWith
  split
  · split
    · exact advances_unexpected _
    · exact advances_pure ()
  · exact advances_inside _ _

/-- Components are passed alike if their contents are read alike. -/
theorem agreeUpTo_cleanWith {n : Nat} {p q : Parser Unit} (h : ∀ m < n, AgreeUpTo m p q) :
    AgreeUpTo n (next >>= cleanWith p) (next >>= cleanWith q) := by
  intro c hc
  refine bind_congr_of_ok fun component after hnext => ?_
  obtain ⟨rest, hrest, rfl⟩ := next_eq_ok_iff.mp hnext
  have hmem : component ∈ c.rest :=
    (Component.suffix_of_dropWhile hrest).subset (List.mem_cons_self ..)
  cases component with
  | leaf t => rfl
  | group opening contents closing =>
      exact AgreeUpTo.inside h ((Component.depth_le_of_mem hmem).trans hc) _

/-- Reading without error tokens passes one component after the other. -/
theorem noErrorToken_eq (c : Cursor) :
    noErrorToken c = (many (next >>= cleanWith noErrorToken) >>= fun _ => pure ()) c := by
  refine recursive_eq (fun h => ?_) c
  have hadvances {p : Parser Unit} : Advances (next >>= cleanWith p) :=
    consumes_next.advances.bind fun component => advances_cleanWith p component
  exact ((agreeUpTo_cleanWith h).many hadvances).andThen _

/-- Reading without error tokens ends where nothing but fillers is left, and goes on behind the next
component otherwise. -/
theorem noErrorToken_step (c : Cursor) :
    noErrorToken c =
      match c.rest.dropWhile Component.isFiller with
      | [] => .ok () c
      | component :: rest =>
        (cleanWith noErrorToken component >>= fun _ => noErrorToken) ⟨rest, c.stop⟩ := by
  rw [noErrorToken_eq]
  cases hrest : c.rest.dropWhile Component.isFiller with
  | nil =>
      have hdone : many (next >>= cleanWith noErrorToken) c = .ok [] c := by
        rw [many, repeatWhile_eq, if_neg (by simp [c.isExhausted_iff.mpr hrest])]
      exact bind_of_ok hdone
  | cons component rest =>
      have hnext : next c = .ok component ⟨rest, c.stop⟩ := next_eq_ok_iff.mpr ⟨rest, hrest, rfl⟩
      have hmore : (!c.isExhausted) = true := by rw [Cursor.isExhausted_of_cons hrest]; rfl
      show EStateM.bind (many _) _ c = EStateM.bind (cleanWith noErrorToken component) _ _
      unfold EStateM.bind
      rw [many, repeatWhile_eq, if_pos hmore, bind_of_ok hnext]
      cases hrun : cleanWith noErrorToken component ⟨rest, c.stop⟩ with
      | error e after => rfl
      | ok u mid =>
          have hless : mid.rest.length < c.rest.length :=
            (consumes_next.bind (advances_cleanWith noErrorToken) ((bind_of_ok hnext).trans hrun)).2
          dsimp only
          rw [if_pos hless, noErrorToken_eq mid]
          show _ = EStateM.bind (many _) _ mid
          have hmap : (List.cons u <$> repeatWhile (fun c => !c.isExhausted)
              (next >>= cleanWith noErrorToken)) mid =
                EStateM.map (List.cons u) (many (next >>= cleanWith noErrorToken)) mid := rfl
          rw [hmap]
          unfold EStateM.bind EStateM.map
          cases many (next >>= cleanWith noErrorToken) mid <;> rfl

/-- A component without error tokens is passed. -/
def passes (component : Component) : Parser Unit :=
  match component.errorToken? with
  | some token => fault (.unexpectedToken token) token.start
  | none => return ()

/-- The outcome names the error token of the components. If there is none, it is a success that
leaves fillers at their end. -/
def Finds (components : List Component) (outcome : EStateM.Result ParseError Cursor Unit) : Prop :=
  match errorTokenOf? components with
  | some t => ∃ after, outcome = .error ⟨.unexpectedToken t, t.start⟩ after
  | none => ∃ after, outcome = .ok () after ∧ after.rest <:+ components ∧ after.isExhausted = true

/-- The contents of a group are read to their end if they are read up to fillers. -/
theorem inside_eq_passes {p : Parser Unit} {opening : Token} {contents : List Component}
    {closing : Option Token}
    (h : Finds contents (p ⟨contents, Component.contentsStop opening contents closing⟩)) :
    inside (.group opening contents closing) p = passes (.group opening contents closing) := by
  funext c
  have herror :
      (Component.group opening contents closing).errorToken? = errorTokenOf? contents := rfl
  unfold Finds at h
  unfold passes
  rw [herror]
  cases hfound : errorTokenOf? contents with
  | some t =>
      rw [hfound] at h
      obtain ⟨after, hrun⟩ := h
      exact inside_of_error hrun c
  | none =>
      rw [hfound] at h
      obtain ⟨after, hrun, -, hend⟩ := h
      exact inside_eq_ok_iff.mpr ⟨rfl, opening, contents, closing, _, rfl,
        entirely_eq_ok_iff.mpr ⟨after, hrun, hend, rfl⟩⟩

/-- One more component in front, which holds no error token, does not change what is found. -/
theorem Finds.cons {component : Component} {rest : List Component}
    {outcome : EStateM.Result ParseError Cursor Unit} (h : Finds rest outcome)
    (hclean : component.errorToken? = none) : Finds (component :: rest) outcome := by
  unfold Finds at h ⊢
  rw [errorTokenOf?, hclean, Option.none_or]
  cases hfound : errorTokenOf? rest with
  | some t =>
      rw [hfound] at h
      exact h
  | none =>
      rw [hfound] at h
      obtain ⟨after, hrun, hsuffix, hend⟩ := h
      exact ⟨after, hrun, hsuffix.trans (List.suffix_cons component rest), hend⟩

/-- Where nothing but fillers is left, nothing is found. -/
theorem finds_of_dropWhile {components : List Component} {stop : Position}
    (h : components.dropWhile Component.isFiller = []) :
    Finds components (.ok () ⟨components, stop⟩) := by
  unfold Finds
  rw [errorTokenOf?_of_significant (Component.significant_eq_nil_iff.mpr h)]
  exact ⟨_, rfl, List.suffix_rfl, (Cursor.isExhausted_iff _).mpr h⟩

mutual

/-- A component is passed if no error token stands on its own in it. -/
theorem cleanWith_noErrorToken (component : Component) :
    cleanWith noErrorToken component = passes component := by
  cases component with
  | leaf t =>
      rw [cleanWith, passes, Component.errorToken?]
      split <;> rfl
  | group opening contents closing => exact inside_eq_passes (noErrorToken_finds contents _)

/-- Reading without error tokens finds the first one that stands on its own. -/
theorem noErrorToken_finds (components : List Component) (stop : Position) :
    Finds components (noErrorToken ⟨components, stop⟩) := by
  cases components with
  | nil =>
      rw [noErrorToken_step]
      exact finds_of_dropWhile rfl
  | cons component rest =>
      have hrest := noErrorToken_finds rest stop
      rw [noErrorToken_step]
      cases hfiller : component.isFiller with
      | true =>
          -- behind a filler, the run is the one over the rest, unless it ends at once
          have hdrop : (component :: rest).dropWhile Component.isFiller =
              rest.dropWhile Component.isFiller := List.dropWhile_cons_of_pos hfiller
          rw [noErrorToken_step] at hrest
          rw [hdrop]
          cases hbehind : rest.dropWhile Component.isFiller with
          | nil => exact finds_of_dropWhile (hdrop.trans hbehind)
          | cons other others =>
              rw [hbehind] at hrest
              exact hrest.cons (Component.errorToken?_of_isFiller hfiller)
      | false =>
          rw [List.dropWhile_cons_of_neg (by simp [hfiller])]
          dsimp only
          rw [cleanWith_noErrorToken component, passes]
          cases hfound : component.errorToken? with
          | some t =>
              unfold Finds
              rw [errorTokenOf?, hfound, Option.some_or]
              exact ⟨_, rfl⟩
          | none => exact hrest.cons hfound

end

/-- Reading without error tokens passes one component after the other by a look at the error tokens
that it holds. -/
theorem noErrorToken_eq_passes (c : Cursor) :
    noErrorToken c = (many (next >>= passes) >>= fun _ => pure ()) c := by
  rw [noErrorToken_eq, funext cleanWith_noErrorToken]

/-- Reading without error tokens succeeds if and only if no broken string or address and no bracket
that closes nothing stands among the components, at any depth, and leaves nothing but fillers then.
Otherwise it refuses the first of them in the order in which the tokens stand. -/
theorem noErrorToken_eq_ok_iff (c : Cursor) :
    ((∃ after, noErrorToken c = .ok () after) ↔
        ∀ t ∈ Component.leavesOf c.rest, t.kind.isError = false) ∧
      (∀ after, noErrorToken c = .ok () after → after.rest <:+ c.rest ∧
        ∀ component ∈ after.rest, component.isFiller = true) ∧
      (∀ e after, noErrorToken c = .error e after →
        ∃ front t back, Component.leavesOf c.rest = front ++ t :: back ∧
          (∀ u ∈ front, u.kind.isError = false) ∧ t.kind.isError = true ∧
          e = ⟨.unexpectedToken t, t.start⟩) ∧
      (Component.leavesOf c.rest).Sublist (Component.tokensOf c.rest) := by
  have hfinds : Finds c.rest (noErrorToken c) := noErrorToken_finds c.rest c.stop
  unfold Finds at hfinds
  rw [Component.errorTokenOf?_eq_find?] at hfinds
  cases hfound : (Component.leavesOf c.rest).find? fun t => t.kind.isError with
  | some t =>
      rw [hfound] at hfinds
      obtain ⟨after, hrun⟩ := hfinds
      obtain ⟨herror, front, back, hsplit, hfront⟩ := List.find?_eq_some_iff_append.mp hfound
      rw [hrun]
      refine ⟨iff_of_false nofun fun hnone => ?_, nofun, ?_, Component.leavesOf_sublist c.rest⟩
      · have ht := hnone t (hsplit ▸ List.mem_append_right front (List.mem_cons_self ..))
        rw [herror] at ht
        cases ht
      · rintro e after ⟨⟩
        exact ⟨front, t, back, hsplit, by simpa using hfront, herror, rfl⟩
  | none =>
      rw [hfound] at hfinds
      obtain ⟨after, hrun, hsuffix, hend⟩ := hfinds
      rw [hrun]
      refine ⟨iff_of_true ⟨after, rfl⟩ (by simpa using hfound), ?_, nofun,
        Component.leavesOf_sublist c.rest⟩
      rintro after ⟨⟩
      exact ⟨hsuffix, List.all_eq_true.mp hend⟩

end Parser

end Css
