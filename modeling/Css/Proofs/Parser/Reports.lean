import Css.Proofs.Parser.Expect

/-!
# What parsers report

A scope is a set of tokens together with a set of places, among them those where the tokens start
and stop. `Reports s p P` says what comes of `p` on components that are made of tokens of the scope:
either a result that satisfies `P`, or an error at a place of the scope which names one of its
tokens, if it names anything. There is one rule for each combinator. A failure inside `attempt` is
never seen, so an error that is seen comes from the last parser that was run.
-/

namespace Css

/-- Tokens, and places among which are those where the tokens start and stop. -/
structure Scope where
  HasToken : Token → Prop
  HasPlace : Position → Prop
  start : ∀ {t}, HasToken t → HasPlace t.start
  stop : ∀ {t}, HasToken t → HasPlace t.stop

namespace Scope

variable (s : Scope)

/-- The components are made of tokens of the scope. -/
abbrev Holds (components : List Component) : Prop :=
  Component.AllTokens s.HasToken components

/-- The cursor stands in front of components of the scope, which end at one of its places. -/
structure Covers (c : Cursor) : Prop where
  rest : c.All s.Holds
  stop : s.HasPlace c.stop

/-- The fault names no component, or one whose token is in the scope: the token alone, unless a
component is no keyframe selector, which is named as it is. -/
def Names (f : Fault) : Prop :=
  ∀ component ∈ f.component?, s.HasToken component.token ∧
    (component = .leaf component.token ∨ f = .invalidKeyframeSelector component)

/-- The error is about the scope. -/
structure Explains (e : ParseError) : Prop where
  location : s.HasPlace e.location
  names : s.Names e.fault

/-- The outcome is a result that satisfies `P`, or an error about the scope. -/
def Admits {α : Type} (P : α → Prop) : EStateM.Result ParseError Cursor α → Prop
  | .ok a after => P a ∧ s.Covers after
  | .error e _ => s.Explains e

/-- A fault that is about no component names nothing. -/
theorem names_of_none {f : Fault} (h : f.component? = none) : s.Names f := by
  intro component hcomponent
  rw [h] at hcomponent
  cases hcomponent

/-- A fault may name a token of the scope. -/
theorem names_of_leaf {f : Fault} {t : Token} (h : f.component? = some (.leaf t))
    (ht : s.HasToken t) : s.Names f := by
  intro component hcomponent
  rw [h] at hcomponent
  cases hcomponent
  exact ⟨ht, .inl rfl⟩

variable {s}

/-- A component starts at a place of the scope. -/
theorem hasPlace_start {component : Component} (h : component.All s.Holds) :
    s.HasPlace component.start := s.start h.token

/-- A cursor of the scope stands at one of its places. -/
theorem Covers.location {c : Cursor} (h : s.Covers c) : s.HasPlace c.location := by
  unfold Cursor.location
  split
  · exact h.stop
  · rename_i component rest hrest
    exact hasPlace_start (Hereditary.of_mem h.rest (by simp [hrest]))

/-- A cursor further on in a row ends where the row does. -/
theorem Covers.of_suffix {c : Cursor} {rest : List Component} (h : s.Covers c)
    (hsuffix : rest <:+ c.rest) : s.Covers ⟨rest, c.stop⟩ :=
  ⟨h.rest.of_suffix hsuffix, h.stop⟩

/-- Skipping leaves a cursor in the scope. -/
theorem Covers.skip {c : Cursor} (h : s.Covers c) (skipped : Component → Bool) :
    s.Covers (c.skip skipped) := h.of_suffix (List.dropWhile_suffix skipped)

mutual

/-- A component stops at a place of the scope. -/
theorem hasPlace_stop {component : Component} (h : component.All s.Holds) :
    s.HasPlace component.stop := by
  match component with
  | .leaf t => exact s.stop h.token
  | .group opening contents (some closing) =>
      exact s.stop (h closing (by simp [Component.tokensOf, Component.tokens]))
  | .group opening contents none =>
      exact hasPlace_stopOf (s.stop h.token) (Hereditary.contents h)

/-- Components stop at a place of the scope if they come after one. -/
theorem hasPlace_stopOf {start : Position} {components : List Component} (hstart : s.HasPlace start)
    (h : s.Holds components) : s.HasPlace (Component.stopOf start components) := by
  match components with
  | [] => exact hstart
  | c :: rest =>
      have hfirst : c.All s.Holds := Hereditary.of_mem h (List.mem_cons_self ..)
      have hrest : s.Holds rest := Hereditary.of_infix h (List.suffix_cons c rest).isInfix
      show s.HasPlace (Component.stopOf c.stop rest)
      exact hasPlace_stopOf (hasPlace_stop hfirst) hrest

end

/-- The contents of a group are a cursor in the scope. -/
theorem covers_contents {opening : Token} {contents : List Component} {closing : Option Token}
    (h : (Component.group opening contents closing).All s.Holds) :
    s.Covers ⟨contents, Component.contentsStop opening contents closing⟩ where
  rest := Hereditary.contents  h
  stop := by
    cases closing with
    | some closing => exact s.start (h closing (by simp [Component.tokensOf, Component.tokens]))
    | none => exact hasPlace_stopOf (s.stop h.token) (Hereditary.contents h)

end Scope

namespace Parser

variable {α β σ : Type} {s : Scope} {p : Parser α} {P : α → Prop} {Q : β → Prop}

/-- On components of the scope, the parser ends with a result that satisfies `P` and leaves
components of the scope, or with an error about the scope. -/
def Reports (s : Scope) (p : Parser α) (P : α → Prop) : Prop :=
  ∀ ⦃c : Cursor⦄, s.Covers c → s.Admits P (p c)

/-- A result without reading satisfies what it is known to satisfy. -/
theorem reports_pure {a : α} (h : P a) : Reports s (pure a) P := fun _ hc => ⟨h, hc⟩

/-- A sequence reports what its parts report. -/
theorem Reports.bind {f : α → Parser β} (hp : Reports s p P)
    (hf : ∀ a, P a → Reports s (f a) Q) : Reports s (p >>= f) Q := by
  intro c hc
  have hfirst := hp hc
  show s.Admits Q (EStateM.bind p f c)
  unfold EStateM.bind
  cases hrun : p c with
  | error e mid =>
      rw [hrun] at hfirst
      exact hfirst
  | ok a mid =>
      rw [hrun] at hfirst
      exact hf a hfirst.1 hfirst.2

/-- A sequence may use nothing of the result of its first part. -/
theorem Reports.then {f : α → Parser β} (hp : Reports s p P) (hf : ∀ a, Reports s (f a) Q) :
    Reports s (p >>= f) Q := hp.bind fun a _ => hf a

/-- A function of the result reports what the parser does. -/
theorem Reports.map {f : α → β} (hp : Reports s p P) (hf : ∀ a, P a → Q (f a)) :
    Reports s (f <$> p) Q := by
  rw [map_eq_pure_bind]
  exact hp.bind fun a ha => reports_pure (hf a ha)

/-- Less may be known of results. -/
theorem Reports.mono {weaker : α → Prop} (hp : Reports s p P) (h : ∀ a, P a → weaker a) :
    Reports s p weaker := by
  intro c hc
  have hrun := hp hc
  revert hrun
  cases p c with
  | error e mid => exact id
  | ok a mid => exact And.imp_left (h a)

/-- A fault at a place of the scope is reported. -/
theorem reports_fault {f : Fault} {location : Position} (hlocation : s.HasPlace location)
    (hf : s.Names f) : Reports s (fault f location) P := fun _ _ => ⟨hlocation, hf⟩

/-- A fault that stops a sequence is reported. -/
theorem reports_fault_bind {f : Fault} {location : Position} {next : α → Parser β}
    (hlocation : s.HasPlace location) (hf : s.Names f) :
    Reports s (fault f location >>= next) Q := fun _ _ => ⟨hlocation, hf⟩

/-- A refused component is reported by its token. -/
theorem reports_unexpected {component : Component} (h : component.All s.Holds) :
    Reports s (unexpected component) P :=
  reports_fault (s.hasPlace_start h) (s.names_of_leaf rfl h.token)

/-- The cursor that a parser looks at is in the scope. -/
theorem reports_get : Reports s get s.Covers := fun _ hc => ⟨hc, hc⟩

/-- The cursor may be put to any place in the scope. -/
theorem reports_set {c : Cursor} (h : s.Covers c) : Reports s (set c) fun _ => True :=
  fun _ _ => ⟨trivial, h⟩

/-- The place of the cursor is in the scope. -/
theorem reports_location : Reports s location s.HasPlace := fun _ hc => ⟨hc.location, hc⟩

/-- Asking whether something is left reports nothing. -/
theorem reports_isExhausted : Reports s isExhausted fun _ => True := fun _ hc => ⟨trivial, hc⟩

/-- An attempt reports no error. -/
theorem Reports.attempt (hp : Reports s p P) :
    Reports s (attempt p) fun result => ∀ a ∈ result, P a := by
  intro c hc
  have hrun := hp hc
  unfold Parser.attempt
  cases h : p c with
  -- The error is dropped, and the cursor is put back to where it was.
  | error e mid => exact ⟨by simp, hc⟩
  | ok a mid =>
      rw [h] at hrun
      exact ⟨by simpa using hrun.1, hrun.2⟩

/-- Trying a parser reports no error. -/
theorem Reports.succeeds (hp : Reports s p P) : Reports s (succeeds p) fun _ => True :=
  hp.attempt.then fun _ => reports_pure trivial

/-- A repeated step reports what the step, from any state, reports. -/
theorem collect_reports (more : Cursor → Bool)
    (step : σ → Cursor → σ × EStateM.Result ParseError Cursor α)
    (hstep : ∀ state, Reports s (fun c => (step state c).2) P) (state : σ) (c : Cursor)
    (hc : s.Covers c) :
    (∀ a ∈ (collect more step state c).items, P a) ∧
      (∀ e ∈ (collect more step state c).error?, s.Explains e) ∧
      ((collect more step state c).error? = none →
        s.Covers (collect more step state c).cursor) := by
  fun_induction collect more step state c with
  | case1 state c hmore next e after hrun =>
      have hfirst := hstep state hc
      simp only [hrun] at hfirst
      have herror : s.Explains e := hfirst
      exact ⟨by simp, by simpa using herror, by simp⟩
  | case2 state c hmore next a after hrun hless others ih =>
      have hfirst := hstep state hc
      simp only [hrun] at hfirst
      obtain ⟨hitems, herror, hcursor⟩ := ih hfirst.2
      refine ⟨?_, herror, hcursor⟩
      intro b hb
      rcases List.mem_cons.mp hb with rfl | hb
      · exact hfirst.1
      · exact hitems b hb
  | case3 state c hmore next a after hrun hless =>
      have hfirst := hstep state hc
      simp only [hrun] at hfirst
      refine ⟨?_, by simp, fun _ => hfirst.2⟩
      intro b hb
      rw [List.mem_singleton.mp hb]
      exact hfirst.1
  | case4 => exact ⟨by simp, by simp, fun _ => hc⟩

/-- A repeated parser reports what it reports once. -/
theorem Reports.repeatWhile (hp : Reports s p P) (more : Cursor → Bool) :
    Reports s (repeatWhile more p) fun items => ∀ a ∈ items, P a := by
  intro c hc
  obtain ⟨hitems, herror, hcursor⟩ :=
    collect_reports more (fun _ c => ((), p c)) (fun _ => hp) () c hc
  unfold Parser.repeatWhile
  dsimp only
  split
  · rename_i e he
    exact herror e he
  · rename_i he
    exact ⟨hitems, hcursor he⟩

/-- A parser that is repeated to the end reports what it reports once. -/
theorem Reports.many (hp : Reports s p P) : Reports s (many p) fun items => ∀ a ∈ items, P a :=
  hp.repeatWhile _

/-- A parser that reads the contents of groups by itself reports what one level of it reports. -/
theorem reports_recursive {body : Parser α → Parser α}
    (h : ∀ inner, Reports s inner P → Reports s (body inner) P) :
    Reports s (recursive body) P := by
  intro c
  induction c using recursive.induct with
  | case1 c ih =>
      intro hc
      rw [recursive]
      refine h _ ?_ hc
      intro inner hinner
      dsimp only
      split
      · exact ih inner ‹_› hinner
      · -- Contents that are no shallower than the group are refused without a name.
        exact ⟨hinner.stop, s.names_of_none rfl⟩

/-- Captured text reports what reading it reports. -/
theorem Reports.captured {p : Parser Unit} {P : Unit → Prop} (hp : Reports s p P) :
    Reports s (captured p) fun _ => True :=
  reports_get.then fun _ => hp.then fun _ => reports_get.then fun _ => reports_pure trivial

/-- The next component is in the scope. -/
theorem reports_nextAfter (skipped : Component → Bool) :
    Reports s (nextAfter skipped) fun component => component.All s.Holds := by
  intro c hc
  rw [nextAfter_eq]
  cases hrest : c.rest.dropWhile skipped with
  | nil => exact ⟨hc.stop, s.names_of_none rfl⟩
  | cons component rest =>
      have hsuffix := Component.suffix_of_dropWhile hrest
      exact ⟨Hereditary.of_mem hc.rest (hsuffix.subset List.mem_cons_self),
        hc.of_suffix ((List.suffix_cons _ _).trans hsuffix)⟩

/-- The next component is in the scope. -/
theorem reports_next : Reports s next fun component => component.All s.Holds := reports_nextAfter _

/-- What is left at the end is reported. -/
theorem reports_atEnd : Reports s atEnd fun _ => True := by
  refine reports_get.bind fun c hc => ?_
  refine (reports_set (hc.skip _)).then fun _ => ?_
  split
  · exact reports_pure trivial
  · rename_i component rest hrest
    have hmem : component ∈ (c.skip Component.isFiller).rest := hrest ▸ List.mem_cons_self ..
    exact reports_unexpected (Hereditary.of_mem (hc.skip _).rest hmem)

/-- A parser that has to read everything reports what is left as well. -/
theorem Reports.entirely (hp : Reports s p P) : Reports s (entirely p) P :=
  hp.bind fun _ ha => reports_atEnd.then fun _ => reports_pure ha

/-- A parser that is confined to components of the scope reports what it reports otherwise. -/
theorem Reports.within (hp : Reports s p P) {contents : List Component} {stop : Position}
    (hcontents : s.Covers ⟨contents, stop⟩) : Reports s (within contents stop p) P := by
  intro c hc
  have hrun := hp.entirely hcontents
  unfold Parser.within
  cases h : Parser.entirely p ⟨contents, stop⟩ with
  | error e mid =>
      rw [h] at hrun
      exact hrun
  | ok a mid =>
      rw [h] at hrun
      exact ⟨hrun.1, hc⟩

/-- A parser inside a group of the scope reports what it reports otherwise. -/
theorem Reports.inside (hp : Reports s p P) {component : Component}
    (hcomponent : component.All s.Holds) : Reports s (inside component p) P := by
  cases component with
  | leaf t => exact reports_unexpected hcomponent
  | group opening contents closing => exact hp.within (s.covers_contents hcomponent)

/-- An error token is reported where it stands. -/
theorem reports_noErrorToken : Reports s noErrorToken fun _ => True := by
  refine reports_recursive fun contents hcontents => ?_
  refine (Reports.many (P := fun _ => True) ?_).then fun _ => reports_pure trivial
  refine reports_next.bind fun component hcomponent => ?_
  cases component with
  | leaf t =>
      rw [cleanWith]
      split
      · exact reports_unexpected hcomponent
      · exact reports_pure trivial
  | group opening inner closing => exact hcontents.inside hcomponent

/-- A parser in front of a delimiter reports what it reports otherwise. -/
theorem Reports.untilBefore (hp : Reports s p P) (delimiters : List Char) :
    Reports s (untilBefore delimiters p) P := by
  intro c hc
  have hafter := hc.skip fun component => !isDelimiter delimiters component
  have hread : s.Covers ⟨c.read (c.skip fun component => !isDelimiter delimiters component),
      (c.skip fun component => !isDelimiter delimiters component).location⟩ :=
    ⟨hc.rest.read _, hafter.location⟩
  have hrun := hp.within hread hc
  unfold Parser.untilBefore
  dsimp only
  split
  · rename_i a mid h
    rw [h] at hrun
    exact ⟨hrun.1, hafter⟩
  · rename_i e mid h
    rw [h] at hrun
    exact hrun

/-- Moving over a component reports nothing. -/
theorem reports_step : Reports s step fun _ => True :=
  fun c hc => ⟨trivial, hc.of_suffix (List.drop_suffix 1 c.rest)⟩

/-- A parser up to a delimiter reports what it reports otherwise. -/
theorem Reports.untilAfter (hp : Reports s p P) (delimiters : List Char) :
    Reports s (untilAfter delimiters p) P :=
  (hp.untilBefore delimiters).bind fun _ ha => reports_step.then fun _ => reports_pure ha

/-- Between commas, every segment reports what the parser reports. -/
theorem Reports.commaSeparated (hp : Reports s p P) :
    Reports s (commaSeparated p) fun items => ∀ a ∈ items, P a := by
  refine (hp.untilBefore _).bind fun first hfirst => ?_
  refine (Reports.repeatWhile (reports_step.then fun _ => hp.untilBefore [',']) _).bind
    fun others hothers => reports_pure fun a ha => ?_
  rcases List.mem_cons.mp ha with rfl | ha
  · exact hfirst
  · exact hothers a ha

/-- A component that is not expected is reported, and a value is found in one of the scope. -/
theorem reports_expect {value? : Component → Option α}
    (h : ∀ component a, component.All s.Holds → value? component = some a → P a) :
    Reports s (expect value?) P := by
  refine reports_next.bind fun component hcomponent => ?_
  split
  · exact reports_pure (h component _ hcomponent ‹_›)
  · exact reports_unexpected hcomponent

/-- A component that is not expected is reported. -/
theorem reports_expect_true (value? : Component → Option α) :
    Reports s (expect value?) fun _ => True :=
  reports_expect fun _ _ _ _ => trivial

/-- A block is in the scope. -/
theorem reports_block (bracket : Bracket) :
    Reports s (block bracket) fun component => component.All s.Holds := by
  refine reports_expect fun component found hcomponent hfound => ?_
  split at hfound
  · cases hfound
    exact hcomponent
  · cases hfound

/-- What is no address is reported. -/
theorem reports_urlOrString : Reports s urlOrString fun _ => True := by
  refine reports_next.bind fun component hcomponent => ?_
  split
  · exact reports_pure trivial
  · exact reports_pure trivial
  · split
    · exact (reports_expect_true _).inside hcomponent
    · exact reports_unexpected hcomponent

/-- A negative integer is reported where it stands. -/
theorem reports_nonNegativeInteger (context : Context) :
    Reports s (nonNegativeInteger context) fun _ => True := by
  refine reports_location.bind fun place hplace => ?_
  refine (reports_expect_true _).then fun value => ?_
  split
  · exact reports_fault_bind hplace (s.names_of_none rfl)
  · exact reports_pure trivial

end Parser

end Css
