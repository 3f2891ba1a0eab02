import Css.Proofs.Component.Bare
import Css.Proofs.Parser.Outcome

/-!
# What parsers read

`Reads p components P` says that on components that look like the given ones `p` succeeds, with a
result and remaining components that look like ones that satisfy `P`. `Refuses p components` says
that it fails there. Both forget where tokens stand, which no grammar depends on unless it refuses.
-/

namespace Css

open Component (bareOf)

namespace Component

/-- What looks like a leaf in front of components is a leaf in front of components. -/
theorem bareOf_eq_leaf_cons {t : Token} {components others : List Component}
    (h : bareOf components = bareOf (.leaf t :: others)) :
    ∃ u rest, components = .leaf u :: rest ∧ u.kind = t.kind ∧ u.text = t.text ∧
      bareOf rest = bareOf others := by
  match components with
  | [] => cases h
  | .group opening contents closing :: rest => cases h
  | .leaf u :: rest =>
      simp only [bareOf, bare, List.cons.injEq, Component.leaf.injEq, Token.bare, Token.mk.injEq,
        and_true] at h
      exact ⟨u, rest, rfl, h.1.1, h.1.2, h.2⟩

/-- Looking like fillers is being fillers. -/
theorem isFiller_bare (component : Component) : component.bare.isFiller = component.isFiller := by
  cases component <;> rfl

/-- Looking like comments is being comments. -/
theorem isComment_bare (component : Component) :
    component.bare.isComment = component.isComment := by
  cases component with
  | leaf t =>
      obtain ⟨kind, text, start⟩ := t
      cases kind <;> rfl
  | group => rfl

/-- Fillers are skipped alike. -/
theorem bareOf_dropWhile_isFiller (components : List Component) :
    bareOf (components.dropWhile isFiller) = (bareOf components).dropWhile isFiller := by
  induction components with
  | nil => rfl
  | cons c rest ih =>
      rw [bareOf]
      simp only [List.dropWhile_cons, isFiller_bare]
      split
      · exact ih
      · rfl

/-- Rows that look alike are fillers alike. -/
theorem all_isFiller_of_bareOf {components others : List Component}
    (h : bareOf components = bareOf others) :
    components.all isFiller = others.all isFiller := by
  have hbare (components : List Component) :
      (bareOf components).all isFiller = components.all isFiller := by
    rw [bareOf_eq_map, List.all_map]
    exact congrArg (components.all ·) (funext isFiller_bare)
  rw [← hbare components, h, hbare]

end Component

namespace Component

/-- Looking alike is ending a segment alike. -/
theorem delimiter?_bare (component : Component) :
    component.bare.delimiter? = component.delimiter? := by
  cases component <;> rfl

/-- Fillers in front of a component that is none are skipped. -/
theorem dropWhile_isFiller_append {lead rest : List Component} {component : Component}
    (hlead : lead.all isFiller) (h : component.isFiller = false) :
    (lead ++ component :: rest).dropWhile isFiller = component :: rest := by
  rw [List.dropWhile_append_of_pos (List.all_eq_true.mp hlead),
    List.dropWhile_cons_of_neg (by simp [h])]

/-- A row that looks like two rows falls into two rows that look like them. -/
theorem bareOf_eq_append {components a b : List Component}
    (h : bareOf components = bareOf (a ++ b)) :
    ∃ c d, components = c ++ d ∧ bareOf c = bareOf a ∧ bareOf d = bareOf b := by
  rw [bareOf_append, bareOf_eq_map components] at h
  obtain ⟨c, d, rfl, hc, hd⟩ := List.map_eq_append_iff.mp h
  exact ⟨c, d, rfl, by rw [bareOf_eq_map, hc], by rw [bareOf_eq_map, hd]⟩

end Component

namespace Parser

variable {α β : Type} {p : Parser α} {components rest : List Component}

/-- On components that look like the given ones, the parser succeeds as described. -/
def Reads (p : Parser α) (components : List Component) (P : α → List Component → Prop) : Prop :=
  ∀ c : Cursor, bareOf c.rest = bareOf components → ∃ a after, p c = .ok a after ∧
    ∃ rest, bareOf after.rest = bareOf rest ∧ P a rest

/-- On components that look like the given ones, the parser fails. -/
def Refuses (p : Parser α) (components : List Component) : Prop :=
  ∀ c : Cursor, bareOf c.rest = bareOf components → ∃ e after, p c = .error e after

/-- The result is the given one, and the given components remain. -/
def Exactly (a : α) (rest : List Component) (b : α) (after : List Component) : Prop :=
  b = a ∧ after = rest

/-- The parser reads the given components up to fillers. -/
def ReadsAll (p : Parser α) (components : List Component) (a : α) : Prop :=
  ∃ rest, rest.all Component.isFiller ∧ Reads p components (Exactly a rest)

/-- Without reading, all components remain. -/
theorem reads_pure (a : α) (components : List Component) :
    Reads (pure a) components (Exactly a components) :=
  fun c hc => ⟨a, c, rfl, components, hc, rfl, rfl⟩

/-- A sequence reads what its second part reads from what its first part leaves. -/
theorem Reads.bind {f : α → Parser β} {P : α → List Component → Prop}
    {Q : β → List Component → Prop} (hp : Reads p components P)
    (hf : ∀ a rest, P a rest → Reads (f a) rest Q) :
    Reads (p >>= f) components Q := by
  intro c hc
  obtain ⟨a, mid, hrun, rest, hrest, ha⟩ := hp c hc
  obtain ⟨b, after, hrun', htail⟩ := hf a rest ha mid hrest
  exact ⟨b, after, bind_eq_ok.mpr ⟨a, mid, hrun, hrun'⟩, htail⟩

/-- Less may be known about what is read. -/
theorem Reads.mono {P Q : α → List Component → Prop} (hp : Reads p components P)
    (h : ∀ a rest, P a rest → Q a rest) : Reads p components Q := by
  intro c hc
  obtain ⟨a, after, hrun, rest, hrest, ha⟩ := hp c hc
  exact ⟨a, after, hrun, rest, hrest, h a rest ha⟩

/-- A sequence goes on with the result of its first part. -/
theorem Reads.andThen {f : α → Parser β} {a : α} {Q : β → List Component → Prop}
    (hp : Reads p components (Exactly a rest)) (hf : Reads (f a) rest Q) :
    Reads (p >>= f) components Q :=
  hp.bind fun _ _ h => by obtain ⟨rfl, rfl⟩ := h; exact hf

/-- A sequence fails if its second part does. -/
theorem Reads.refuses_bind {f : α → Parser β} {P : α → List Component → Prop}
    (hp : Reads p components P) (hf : ∀ a rest, P a rest → Refuses (f a) rest) :
    Refuses (p >>= f) components := by
  intro c hc
  obtain ⟨a, mid, hrun, rest, hrest, ha⟩ := hp c hc
  obtain ⟨e, after, hrun'⟩ := hf a rest ha mid hrest
  refine ⟨e, after, ?_⟩
  show EStateM.bind p f c = _
  simp [EStateM.bind, hrun, hrun']

/-- What is not expected is refused. -/
theorem refuses_unexpected (component : Component) (components : List Component) :
    Refuses (unexpected component : Parser α) components :=
  fun _ _ => ⟨_, _, rfl⟩

/-- A function of what is read. -/
theorem Reads.map {f : α → β} {a : α} (hp : Reads p components (Exactly a rest)) :
    Reads (f <$> p) components (Exactly (f a) rest) := by
  rw [map_eq_pure_bind]
  exact hp.andThen (reads_pure _ _)

/-- Asking for the cursor leaves all components. -/
theorem reads_get (components : List Component) :
    Reads get components fun _ after => after = components :=
  fun c hc => ⟨c, c, rfl, components, hc, rfl⟩

/-- What is done with the cursor is done with components that look like the given ones. -/
theorem reads_get_bind {f : Cursor → Parser β} {Q : β → List Component → Prop}
    (h : ∀ c : Cursor, bareOf c.rest = bareOf components → Reads (f c) components Q) :
    Reads (get >>= f) components Q :=
  fun c hc => h c hc c hc

/-- Setting the cursor leaves its components. -/
theorem reads_set {c : Cursor} {others : List Component} (hc : bareOf c.rest = bareOf others) :
    Reads (set c) components (Exactly ⟨⟩ others) :=
  fun _ _ => ⟨⟨⟩, c, rfl, others, hc, rfl, rfl⟩

/-- Asking for the place leaves all components. -/
theorem reads_location (components : List Component) :
    Reads location components fun _ after => after = components :=
  fun c hc => ⟨c.location, c, rfl, components, hc, rfl⟩

/-- Whether something is left is seen from what the components look like. -/
theorem reads_isExhausted (components : List Component) :
    Reads isExhausted components (Exactly (components.all Component.isFiller) components) :=
  fun c hc => ⟨c.isExhausted, c, rfl, components, hc, Component.all_isFiller_of_bareOf hc, rfl⟩

/-- The first component that is no filler is next. -/
theorem reads_next {component : Component}
    (h : components.dropWhile Component.isFiller = component :: rest) :
    Reads next components fun found after => found.bare = component.bare ∧ after = rest := by
  intro c hc
  have hdrop : bareOf (c.rest.dropWhile Component.isFiller) = bareOf (component :: rest) := by
    rw [Component.bareOf_dropWhile_isFiller, hc, ← Component.bareOf_dropWhile_isFiller, h]
  cases hrest : c.rest.dropWhile Component.isFiller with
  | nil => rw [hrest] at hdrop; cases hdrop
  | cons found after =>
      rw [hrest, bareOf, bareOf, List.cons.injEq] at hdrop
      refine ⟨found, ⟨after, c.stop⟩, ?_, rest, hdrop.2, hdrop.1, rfl⟩
      rw [next, nextAfter_eq, hrest]

/-- The next component may be a space. -/
theorem reads_nextOrSpace {component : Component} (h : component.isComment = false) :
    Reads nextOrSpace (component :: rest) fun found after =>
      found.bare = component.bare ∧ after = rest := by
  intro c hc
  match hrest : c.rest with
  | [] => rw [hrest] at hc; cases hc
  | found :: after =>
      rw [hrest, bareOf, bareOf, List.cons.injEq] at hc
      have hcomment : found.isComment = false := by
        rw [← Component.isComment_bare, hc.1, Component.isComment_bare, h]
      refine ⟨found, ⟨after, c.stop⟩, ?_, rest, hc.2, hc.1, rfl⟩
      rw [nextOrSpace, nextAfter_eq, hrest, List.dropWhile_cons_of_neg (by simp [hcomment])]

/-- A value is found in the leaf that is next. -/
theorem reads_expect {value? : Component → Option α} {t : Token} {a : α}
    (h : components.dropWhile Component.isFiller = .leaf t :: rest)
    (hvalue : ∀ text start, value? (.leaf ⟨t.kind, text, start⟩) = some a) :
    Reads (expect value?) components (Exactly a rest) := by
  refine (reads_next h).bind fun found after hfound => ?_
  obtain ⟨hbare, rfl⟩ := hfound
  have hleaf : bareOf [found] = bareOf [.leaf t] := by simp only [bareOf, hbare]
  obtain ⟨⟨kind, text, start⟩, _, heq, rfl, -, -⟩ := Component.bareOf_eq_leaf_cons hleaf
  rw [List.cons.injEq] at heq
  rw [heq.1, hvalue]
  exact reads_pure a after

/-- A value that is not found in what looks like the component that is next is refused. -/
theorem refuses_expect_of_bare {value? : Component → Option α} {component : Component}
    (h : components.dropWhile Component.isFiller = component :: rest)
    (hvalue : ∀ found, found.bare = component.bare → value? found = none) :
    Refuses (expect value?) components := by
  intro c hc
  have hdrop : bareOf (c.rest.dropWhile Component.isFiller) = bareOf (component :: rest) := by
    rw [Component.bareOf_dropWhile_isFiller, hc, ← Component.bareOf_dropWhile_isFiller, h]
  cases hrest : c.rest.dropWhile Component.isFiller with
  | nil => rw [hrest] at hdrop; cases hdrop
  | cons found after =>
      rw [hrest, bareOf, bareOf, List.cons.injEq] at hdrop
      rw [expect_eq, hrest]
      simp only [hvalue found hdrop.1]
      exact ⟨_, _, rfl⟩

/-- A value that is not found in the leaf that is next is refused. -/
theorem refuses_expect {value? : Component → Option α} {t : Token}
    (h : components.dropWhile Component.isFiller = .leaf t :: rest)
    (hvalue : ∀ text start, value? (.leaf ⟨t.kind, text, start⟩) = none) :
    Refuses (expect value?) components := by
  refine refuses_expect_of_bare h fun found hbare => ?_
  have hleaf : bareOf [found] = bareOf [.leaf t] := by simp only [bareOf, hbare]
  obtain ⟨⟨kind, text, start⟩, _, heq, rfl, -, -⟩ := Component.bareOf_eq_leaf_cons hleaf
  rw [(List.cons.inj heq).1, hvalue]

/-- Nothing is expected at the end. -/
theorem refuses_expect_nil {value? : Component → Option α} (h : components.all Component.isFiller) :
    Refuses (expect value?) components := by
  intro c hc
  have hall : c.rest.all Component.isFiller := (Component.all_isFiller_of_bareOf hc).trans h
  have hdrop : c.rest.dropWhile Component.isFiller = [] :=
    List.dropWhile_eq_nil_iff.mpr (List.all_eq_true.mp hall)
  rw [expect_eq, hdrop]
  exact ⟨_, _, rfl⟩

/-- An attempt reads what the parser reads. -/
theorem Reads.attempt {a : α} (hp : Reads p components (Exactly a rest)) :
    Reads (attempt p) components (Exactly (some a) rest) := by
  intro c hc
  obtain ⟨_, after, hrun, _, hrest, rfl, rfl⟩ := hp c hc
  refine ⟨some _, after, ?_, _, hrest, rfl, rfl⟩
  simp [Parser.attempt, hrun]

/-- An attempt that fails reads nothing. -/
theorem Refuses.attempt (hp : Refuses p components) :
    Reads (attempt p) components (Exactly none components) := by
  intro c hc
  obtain ⟨e, after, hrun⟩ := hp c hc
  refine ⟨none, c, ?_, components, hc, rfl, rfl⟩
  simp [Parser.attempt, hrun]

/-- A parser that reads succeeds. -/
theorem Reads.succeeds {a : α} (hp : Reads p components (Exactly a rest)) :
    Reads (succeeds p) components (Exactly true rest) :=
  hp.attempt.andThen (reads_pure _ _)

/-- A parser that refuses does not succeed. -/
theorem Refuses.succeeds (hp : Refuses p components) :
    Reads (succeeds p) components (Exactly false components) :=
  hp.attempt.andThen (reads_pure _ _)

/-- Fillers are all that is left at the end. -/
theorem reads_atEnd (h : components.all Component.isFiller) :
    Reads atEnd components (Exactly () []) := by
  intro c hc
  have hall : c.rest.all Component.isFiller := (Component.all_isFiller_of_bareOf hc).trans h
  have hdrop : c.rest.dropWhile Component.isFiller = [] :=
    List.dropWhile_eq_nil_iff.mpr (List.all_eq_true.mp hall)
  refine ⟨(), ⟨[], c.stop⟩, ?_, [], rfl, rfl, rfl⟩
  have hskip : c.skip Component.isFiller = ⟨[], c.stop⟩ := by rw [Cursor.skip, hdrop]
  refine bind_eq_ok.mpr ⟨c, c, rfl, ?_⟩
  rw [hskip]
  rfl

/-- A parser that has to read everything may leave fillers. -/
theorem ReadsAll.entirely {a : α} (hp : ReadsAll p components a) :
    Reads (entirely p) components (Exactly a []) := by
  obtain ⟨rest, hrest, hread⟩ := hp
  exact hread.andThen ((reads_atEnd hrest).andThen (reads_pure a []))

/-- A parser may have to read all of what is more than fillers. -/
theorem ReadsAll.only {a : α} (hp : ReadsAll p components a)
    (h : components.all Component.isFiller = false) :
    Reads (only p) components (Exactly a []) := by
  refine (reads_isExhausted components).andThen ?_
  rw [h]
  exact hp.entirely

/-- Without more to read, a repeated parser reads nothing. -/
theorem reads_repeatWhile_nil {more : Cursor → Bool}
    (hmore : ∀ c : Cursor, bareOf c.rest = bareOf components → more c = false) :
    Reads (repeatWhile more p) components (Exactly [] components) := by
  intro c hc
  refine ⟨[], c, ?_, components, hc, rfl, rfl⟩
  rw [repeatWhile_eq, if_neg (by simp [hmore c hc])]

/-- If a part of what is more is read, the others are read from what is left. -/
theorem Reads.repeatWhile_cons {more : Cursor → Bool} {a : α} {others : List α}
    {mid : List Component} (hp : Reads p components (Exactly a mid))
    (hmore : ∀ c : Cursor, bareOf c.rest = bareOf components → more c = true)
    (hlength : mid.length < components.length)
    (hothers : Reads (repeatWhile more p) mid (Exactly others rest)) :
    Reads (repeatWhile more p) components (Exactly (a :: others) rest) := by
  intro c hc
  obtain ⟨_, after, hrun, _, hafter, rfl, rfl⟩ := hp c hc
  obtain ⟨_, last, hrun', _, hlast, rfl, rfl⟩ := hothers after hafter
  have hless : after.rest.length < c.rest.length := by
    have hleft := congrArg List.length hafter
    have hright := congrArg List.length hc
    simp only [Component.bareOf_eq_map, List.length_map] at hleft hright
    omega
  refine ⟨_, last, ?_, _, hlast, rfl, rfl⟩
  rw [repeatWhile_eq, if_pos (hmore c hc), hrun]
  simp only [hless, if_true]
  show EStateM.map _ _ _ = _
  simp [EStateM.map, hrun']

/-- Inside a group that looks like the given one, its contents are read. -/
theorem reads_inside {component : Component} {opening : Token} {contents : List Component}
    {closing : Option Token} {a : α}
    (hlook : component.bare = (Component.group opening contents closing).bare)
    (hp : ReadsAll p contents a) :
    Reads (inside component p) components (Exactly a components) := by
  cases component with
  | leaf t => cases hlook
  | group opening' contents' closing' =>
      intro c hc
      simp only [Component.bare, Component.group.injEq] at hlook
      obtain ⟨_, after, hrun, _, _, rfl, _⟩ := hp.entirely
        ⟨contents', Component.contentsStop opening' contents' closing'⟩ hlook.2.1
      refine ⟨_, c, ?_, components, hc, rfl, rfl⟩
      simp [inside, within, hrun]

/-- In front of a delimiter, the components in front of it are read. -/
theorem reads_untilBefore {delimiters : List Char} {front back : List Component} {a : α}
    (hp : Reads (entirely p) front (Exactly a []))
    (hfront : ∀ component ∈ front, isDelimiter delimiters component = false)
    (hback : ∀ component ∈ back.head?, isDelimiter delimiters component = true) :
    Reads (untilBefore delimiters p) (front ++ back) (Exactly a back) := by
  have hlook (x y : Component) (heq : x.bare = y.bare) :
      isDelimiter delimiters x = isDelimiter delimiters y := by
    rw [isDelimiter, isDelimiter, ← Component.delimiter?_bare, heq, Component.delimiter?_bare]
  intro c hc
  obtain ⟨front', back', hrest, hfront', hback'⟩ := Component.bareOf_eq_append hc
  have hskip : (c.skip fun component => !isDelimiter delimiters component).rest = back' := by
    rw [Cursor.skip, hrest, List.dropWhile_append_of_pos]
    · cases hcons : back' with
      | nil => rfl
      | cons d tail =>
          rw [hcons] at hback'
          cases back with
          | nil => cases hback'
          | cons e tail' =>
              rw [bareOf, bareOf, List.cons.injEq] at hback'
              rw [List.dropWhile_cons_of_neg]
              rw [hlook d e hback'.1, hback e rfl]
              decide
    · intro component hcomponent
      have hmem := List.mem_map_of_mem (f := Component.bare) hcomponent
      rw [← Component.bareOf_eq_map, hfront', Component.bareOf_eq_map] at hmem
      obtain ⟨other, hother, heq⟩ := List.mem_map.mp hmem
      rw [← hlook other component heq, hfront other hother]
      rfl
  have hread : c.read (c.skip fun component => !isDelimiter delimiters component) = front' := by
    rw [Cursor.read, hskip, hrest, List.length_append, Nat.add_sub_cancel, List.take_left]
  obtain ⟨_, after, hrun, _, _, rfl, _⟩ := hp
    ⟨front', (c.skip fun component => !isDelimiter delimiters component).location⟩ hfront'
  refine ⟨_, c.skip fun component => !isDelimiter delimiters component, ?_, back, ?_, rfl, rfl⟩
  · simp [untilBefore, hread, within, hrun]
  · rw [hskip, hback']

/-- Moving over a component leaves the others. -/
theorem reads_step (component : Component) (rest : List Component) :
    Reads step (component :: rest) (Exactly () rest) := by
  intro c hc
  match hrest : c.rest with
  | [] => rw [hrest] at hc; cases hc
  | first :: others =>
      rw [hrest, bareOf, bareOf, List.cons.injEq] at hc
      refine ⟨(), { c with rest := c.rest.drop 1 }, rfl, rest, ?_, rfl, rfl⟩
      simp [hrest, hc.2]

/-- Up to a delimiter, the components in front of it are read. -/
theorem reads_untilAfter {delimiters : List Char} {front back : List Component}
    {delimiter : Component} {a : α} (hp : ReadsAll p front a)
    (hfront : ∀ component ∈ front, isDelimiter delimiters component = false)
    (hdelimiter : isDelimiter delimiters delimiter = true) :
    Reads (untilAfter delimiters p) (front ++ delimiter :: back) (Exactly a back) := by
  have hback :
      ∀ component ∈ (delimiter :: back).head?, isDelimiter delimiters component = true := by
    rintro _ ⟨⟩
    exact hdelimiter
  exact (reads_untilBefore hp.entirely hfront hback).andThen
    ((reads_step delimiter back).andThen (reads_pure a back))

/-- Fillers hold no items. -/
theorem reads_many_nil (h : components.all Component.isFiller) :
    Reads (many p) components (Exactly [] components) :=
  reads_repeatWhile_nil fun c hc => by
    rw [Cursor.isExhausted, Component.all_isFiller_of_bareOf hc, h]
    rfl

/-- If an item is read where more than fillers stands, the others are read behind it. -/
theorem Reads.many_cons {a : α} {others : List α} {mid : List Component}
    (hp : Reads p components (Exactly a mid)) (h : components.all Component.isFiller = false)
    (hlength : mid.length < components.length)
    (hothers : Reads (many p) mid (Exactly others rest)) :
    Reads (many p) components (Exactly (a :: others) rest) := by
  refine hp.repeatWhile_cons (fun c hc => ?_) hlength hothers
  rw [Cursor.isExhausted, Component.all_isFiller_of_bareOf hc, h]
  rfl

/-- Items that are read one by one are read up to the end. -/
theorem reads_many_flatMap {p : Parser β} {f : α → β} {segment : α → List Component}
    {items : List α}
    (hp : ∀ item ∈ items, ∀ rest, Reads p (segment item ++ rest) (Exactly (f item) rest))
    (hsegment : ∀ item ∈ items, (segment item).all Component.isFiller = false) :
    Reads (many p) (items.flatMap segment) (Exactly (items.map f) []) := by
  induction items with
  | nil => exact reads_many_nil rfl
  | cons item items ih =>
      have hfiller := hsegment item (List.mem_cons_self ..)
      have hlength : 0 < (segment item).length := by
        refine List.length_pos_of_ne_nil fun hnil => ?_
        rw [hnil] at hfiller
        cases hfiller
      have hothers := ih (fun other hother => hp other (List.mem_cons_of_mem item hother))
        fun other hother => hsegment other (List.mem_cons_of_mem item hother)
      rw [List.flatMap_cons]
      refine (hp item (List.mem_cons_self ..) _).many_cons ?_ ?_ hothers
      · rw [List.all_append, hfiller, Bool.false_and]
      · rw [List.length_append]
        exact Nat.lt_add_of_pos_left hlength

/-- Between commas, every segment is read. -/
theorem reads_commaSeparated {p : Parser β} {f : α → β} {first : List Component}
    {comma : Component} {segment : α → List Component} {a : β} {others : List α}
    (hfirst : ReadsAll p first a) (hothers : ∀ b ∈ others, ReadsAll p (segment b) (f b))
    (hcomma : isDelimiter [','] comma = true)
    (hfree : ∀ component ∈ first ++ others.flatMap segment, isDelimiter [','] component = false) :
    Reads (commaSeparated p) (first ++ others.flatMap fun b => comma :: segment b)
      (Exactly (a :: others.map f) []) := by
  have hhead (others : List α) : ∀ component ∈ (others.flatMap fun b => comma :: segment b).head?,
      isDelimiter [','] component = true := by
    cases others with
    | nil => nofun
    | cons b others => rintro _ ⟨⟩; exact hcomma
  have hsegments : Reads (repeatWhile (fun c => !c.rest.isEmpty) do step; untilBefore [','] p)
      (others.flatMap fun b => comma :: segment b) (Exactly (others.map f) []) := by
    induction others with
    | nil =>
        refine reads_repeatWhile_nil fun c hc => ?_
        rw [Component.bareOf_eq_map] at hc
        simp [List.map_eq_nil_iff.mp hc]
    | cons b others ih =>
        rw [List.flatMap_cons, List.cons_append]
        have htail := ih (fun d hd => hothers d (List.mem_cons_of_mem b hd)) fun component h => by
          refine hfree component ?_
          rcases List.mem_append.mp h with h | h
          · exact List.mem_append_left _ h
          · rw [List.flatMap_cons]
            exact List.mem_append_right _ (List.mem_append_right _ h)
        have hsegment := reads_untilBefore (hothers b (List.mem_cons_self ..)).entirely
          (fun component h => hfree component (by
            rw [List.flatMap_cons]
            exact List.mem_append_right _ (List.mem_append_left _ h))) (hhead others)
        refine Reads.repeatWhile_cons ((reads_step _ _).andThen hsegment) (fun c hc => ?_) ?_ htail
        · cases hrest : c.rest with
          | nil => rw [hrest] at hc; cases hc
          | cons => rfl
        · simp only [List.length_cons, List.length_append]
          omega
  exact (reads_untilBefore hfirst.entirely
    (fun component h => hfree component (List.mem_append_left _ h)) (hhead others)).andThen
      (hsegments.andThen (reads_pure _ _))

end Parser

end Css
