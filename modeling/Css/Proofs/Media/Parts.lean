import Css.Proofs.Media.Reads
import Css.Proofs.Media.Tests
import Css.Proofs.Parser.Exact

/-!
# Signs, words and values of media features

The parsers of the parts of a feature read exactly what spells their results. Signs and values are
told apart by what they start with, and neither holds a name.
-/

namespace Css

open Css.Parser Number
open Component (significant significant_append significant_cons significant_takeWhile
  significant_eq_cons_iff significant_eq_nil_iff isFiller_of_dropWhile
  dropWhile_append_cons exists_of_significant_singleton)

/-- The component is not the given sign. -/
def IsNoSign (c : Char) (component : Component) : Prop := Comparison.isSign c component = false

/-- A colon is read where one is spelled. -/
theorem readsExactly_colon : ReadsExactly colon (fun _ part => IsColon part) Anything := by
  refine (readsExactly_expect _).of_iff fun _ part => ?_
  constructor
  · rintro ⟨component, hpart, hvalue⟩
    dsimp only at hvalue
    split at hvalue
    · exact ⟨_, _, hpart⟩
    · cases hvalue
  · rintro ⟨text, start, hpart⟩
    exact ⟨_, hpart, rfl⟩

namespace Comparison

/-- A component that is one sign is no other. -/
theorem eq_of_isSign {c d : Char} {component : Component} (hc : isSign c component = true)
    (hd : isSign d component = true) : c = d := by
  unfold isSign at hc hd
  split at hc
  · exact (of_decide_eq_true hc).symm.trans (of_decide_eq_true hd)
  · cases hc

/-- A sign is no filler. -/
theorem isFiller_of_isSign {c : Char} {component : Component} (h : isSign c component = true) :
    component.isFiller = false := by
  unfold isSign at h
  split at h
  · rfl
  · cases h

/-- A sign is no name. -/
theorem identName?_of_isSign {c : Char} {component : Component}
    (h : isSign c component = true) : identName? component = none := by
  unfold isSign at h
  split at h
  · rfl
  · cases h

/-- The second character of a sign. -/
def second : Parser Unit := do
  let component ← nextOrSpace
  if !isSign '=' component then unexpected component

/-- The second character of a sign stands behind comments. -/
theorem second_eq (c : Cursor) :
    second c =
      match c.rest.dropWhile Component.isComment with
      | [] => .error ⟨.endOfInput, c.stop⟩ ⟨[], c.stop⟩
      | component :: rest =>
        if isSign '=' component then .ok () ⟨rest, c.stop⟩
        else .error ⟨.unexpectedToken component.token, component.start⟩ ⟨rest, c.stop⟩ := by
  show EStateM.bind (nextAfter Component.isComment) _ c = _
  unfold EStateM.bind
  rw [nextAfter_eq]
  cases c.rest.dropWhile Component.isComment with
  | nil => rfl
  | cons component rest =>
      dsimp only
      cases isSign '=' component <;> rfl

/-- Whether a sign has a second character is decided by the first component behind comments. -/
theorem succeeds_second_eq (c : Cursor) :
    succeeds second c =
      match c.rest.dropWhile Component.isComment with
      | [] => .ok false c
      | component :: rest =>
        if isSign '=' component then .ok true ⟨rest, c.stop⟩ else .ok false c := by
  show EStateM.bind (attempt second) _ c = _
  unfold EStateM.bind attempt
  rw [second_eq]
  cases c.rest.dropWhile Component.isComment with
  | nil => rfl
  | cons component rest =>
      dsimp only
      cases isSign '=' component <;> rfl

/-- A sign has a second character if it is the first component behind comments. -/
theorem succeeds_second_eq_true_iff {c after : Cursor} :
    succeeds second c = .ok true after ↔ ∃ component rest,
      c.rest.dropWhile Component.isComment = component :: rest ∧ isSign '=' component = true ∧
        after = ⟨rest, c.stop⟩ := by
  rw [succeeds_second_eq]
  constructor
  · intro h
    split at h
    · cases h
    · rename_i component rest hrest
      split at h
      · rename_i hsign
        cases h
        exact ⟨component, rest, hrest, hsign, rfl⟩
      · cases h
  · rintro ⟨component, rest, hrest, hsign, rfl⟩
    rw [hrest]
    dsimp only
    rw [if_pos hsign]

/-- A sign has no second character if the first component behind comments is none. -/
theorem succeeds_second_eq_false_iff {c after : Cursor} :
    succeeds second c = .ok false after ↔
      (∀ component ∈ (c.rest.dropWhile Component.isComment).head?, IsNoSign '=' component) ∧
        after = c := by
  rw [succeeds_second_eq]
  cases c.rest.dropWhile Component.isComment with
  | nil =>
      constructor
      · intro h
        cases h
        exact ⟨by simp, rfl⟩
      · rintro ⟨-, rfl⟩
        rfl
  | cons component rest =>
      dsimp only
      cases hsign : isSign '=' component with
      | true => simp [IsNoSign, hsign]
      | false =>
          constructor
          · intro h
            cases h
            exact ⟨by simpa [IsNoSign] using hsign, rfl⟩
          · rintro ⟨-, rfl⟩
            rfl

/-- A sign starts with one of three characters, and an equals sign may go on two of them. -/
theorem parser_eq_ok_iff {c after : Cursor} {comparison : Comparison} :
    parser c = .ok comparison after ↔ ∃ d sign rest,
      c.rest.dropWhile Component.isFiller = sign :: rest ∧ isSign d sign = true ∧
        ((d = '=' ∧ comparison = .equal ∧ after = ⟨rest, c.stop⟩) ∨
          ((d, comparison) ∈ [('<', less), ('>', greater)] ∧
            succeeds second ⟨rest, c.stop⟩ = .ok false after) ∨
          ((d, comparison) ∈ [('<', atMost), ('>', atLeast)] ∧
            succeeds second ⟨rest, c.stop⟩ = .ok true after)) := by
  refine bind_eq_ok.trans ⟨?_, ?_⟩
  · rintro ⟨sign, mid, hnext, h⟩
    obtain ⟨rest, hrest, rfl⟩ := next_eq_ok_iff.mp hnext
    by_cases hequal : isSign '=' sign = true
    · rw [if_pos hequal] at h
      cases h
      exact ⟨'=', sign, rest, hrest, hequal, .inl ⟨rfl, rfl, rfl⟩⟩
    rw [if_neg hequal] at h
    split at h
    · rename_i hsign
      obtain ⟨inclusive, last, hsecond, h⟩ := bind_eq_ok.mp h
      cases hless : isSign '<' sign with
      | true =>
          refine ⟨'<', sign, rest, hrest, hless, .inr ?_⟩
          rw [hless] at h
          cases inclusive with
          | true => cases h; exact .inr ⟨by simp, hsecond⟩
          | false => cases h; exact .inl ⟨by simp, hsecond⟩
      | false =>
          have hgreater : isSign '>' sign = true := by simpa [hless] using hsign
          refine ⟨'>', sign, rest, hrest, hgreater, .inr ?_⟩
          rw [hless] at h
          cases inclusive with
          | true => cases h; exact .inr ⟨by simp, hsecond⟩
          | false => cases h; exact .inl ⟨by simp, hsecond⟩
    · cases h
  · rintro ⟨d, sign, rest, hrest, hd, h⟩
    have hne (e : Char) (hde : d ≠ e) : isSign e sign = false :=
      Bool.eq_false_iff.mpr fun he => hde (eq_of_isSign hd he)
    refine ⟨sign, ⟨rest, c.stop⟩, next_eq_ok_iff.mpr ⟨rest, hrest, rfl⟩, ?_⟩
    rcases h with ⟨rfl, rfl, rfl⟩ | ⟨hcomparison, hsecond⟩ | ⟨hcomparison, hsecond⟩
    · rw [if_pos hd]
      rfl
    all_goals
      simp only [List.mem_cons, List.not_mem_nil, or_false, Prod.mk.injEq] at hcomparison
      rcases hcomparison with ⟨rfl, rfl⟩ | ⟨rfl, rfl⟩
      · rw [if_neg (by simp [hne]), if_pos (by simp [hd])]
        refine bind_eq_ok.mpr ⟨_, after, hsecond, ?_⟩
        rw [hd]
        rfl
      · rw [if_neg (by simp [hne]), if_pos (by simp [hd])]
        refine bind_eq_ok.mpr ⟨_, after, hsecond, ?_⟩
        rw [hne '<' (by decide)]
        rfl

/-- Nothing is significant in comments. -/
theorem significant_comments {comments : List Component}
    (h : ∀ component ∈ comments, component.isComment = true) : significant comments = [] :=
  Component.significant_eq_nil_iff_forall.mpr fun component hmem =>
    Component.isFiller_of_isComment (h component hmem)

/-- Where no equals sign is the next significant component, none stands behind comments. -/
theorem isNoSign_of_nextIs {c : Char} {components : List Component}
    (h : NextIs (IsNoSign c) components) :
    ∀ component ∈ (components.dropWhile Component.isComment).head?, IsNoSign c component := by
  intro component hcomponent
  by_contra hsign
  replace hsign : isSign c component = true := by simpa [IsNoSign] using hsign
  obtain ⟨rest, hrest⟩ := List.head?_eq_some_iff.mp hcomponent
  have hsplit := List.takeWhile_append_dropWhile (p := Component.isComment) (l := components)
  rw [hrest] at hsplit
  have hhead : (significant components).head? = some component := by
    rw [← hsplit, significant_append, significant_comments fun _ hc => List.mem_takeWhile_imp hc,
      List.nil_append, significant_cons (isFiller_of_isSign hsign)]
    rfl
  have hno := h component hhead
  rw [IsNoSign, hsign] at hno
  cases hno

/-- A comparison sign is read where one is spelled, unless an equals sign goes on it. -/
theorem parser_readsExactly : ReadsExactly parser Spelled (NextIs (IsNoSign '=')) where
  split {c after comparison} h := by
    obtain ⟨d, sign, rest, hrest, hd, h⟩ := parser_eq_ok_iff.mp h
    have hlead := significant_takeWhile c.rest
    have hsplit : c.rest = c.rest.takeWhile Component.isFiller ++ sign :: rest := by
      rw [← hrest, List.takeWhile_append_dropWhile]
    generalize c.rest.takeWhile Component.isFiller = lead at hlead hsplit
    have hone : significant (lead ++ [sign]) = [sign] := by
      rw [significant_append, hlead, significant_cons (isFiller_of_isSign hd)]
      rfl
    rcases h with ⟨rfl, rfl, rfl⟩ | ⟨hcomparison, hsecond⟩ | ⟨hcomparison, hsecond⟩
    · exact ⟨lead ++ [sign], by simpa using hsplit, rfl, .one (by simp) hone hd⟩
    · obtain ⟨-, rfl⟩ := succeeds_second_eq_false_iff.mp hsecond
      exact ⟨lead ++ [sign], by simpa using hsplit, rfl,
        .one (List.mem_cons_of_mem _ hcomparison) hone hd⟩
    · obtain ⟨second, others, hothers, hequal, rfl⟩ := succeeds_second_eq_true_iff.mp hsecond
      have hcomments := List.takeWhile_append_dropWhile (p := Component.isComment) (l := rest)
      refine ⟨lead ++ sign :: (rest.takeWhile Component.isComment ++ second :: []), ?_, rfl,
        .two hcomparison hlead hd (fun _ hc => List.mem_takeWhile_imp hc) hequal rfl⟩
      rw [hsplit]
      simpa [hothers] using hcomments.symm
  reads {comparison part rest} h hrest stop := by
    cases h with
    | @one d comparison part sign hc hpart hsign =>
        obtain ⟨gap, hgap, hfirst⟩ := exists_of_significant_singleton hpart rest
        refine ⟨gap, hgap, parser_eq_ok_iff.mpr ⟨d, sign, gap ++ rest, hfirst, hsign, ?_⟩⟩
        rcases List.mem_cons.mp hc with heq | hc
        · obtain ⟨rfl, rfl⟩ := Prod.mk.inj heq
          exact .inl ⟨rfl, rfl, rfl⟩
        · refine .inr (.inl ⟨hc, succeeds_second_eq_false_iff.mpr ⟨isNoSign_of_nextIs ?_, rfl⟩⟩)
          rwa [NextIs, significant_append, hgap, List.nil_append]
    | @two d comparison lead comments trail sign second hc hlead hsign hcomments hsecond htrail =>
        have hfirst : ((lead ++ sign :: (comments ++ second :: trail)) ++ rest).dropWhile
            Component.isFiller = sign :: (comments ++ second :: (trail ++ rest)) := by
          rw [List.append_assoc, List.cons_append,
            dropWhile_append_cons hlead (isFiller_of_isSign hsign), List.append_assoc]
          rfl
        refine ⟨trail, htrail,
          parser_eq_ok_iff.mpr ⟨d, sign, _, hfirst, hsign, .inr (.inr ⟨hc, ?_⟩)⟩⟩
        have hnot : second.isComment = false := by
          by_contra hcomment
          have hfiller := Component.isFiller_of_isComment (by simpa using hcomment)
          rw [isFiller_of_isSign hsecond] at hfiller
          cases hfiller
        refine succeeds_second_eq_true_iff.mpr ⟨second, trail ++ rest, ?_, hsecond, rfl⟩
        rw [List.dropWhile_append_of_pos hcomments, List.dropWhile_cons_of_neg (by simp [hnot])]
  padded {comparison lead part trail} h hlead htrail := by
    cases h with
    | one hc hpart hsign => exact .one hc (by simp [hlead, htrail, hpart]) hsign
    | @two _ _ lead' comments trail' sign second hc hlead' hsign hcomments hsecond htrail' =>
        have hspelled : Spelled comparison
            ((lead ++ lead') ++ sign :: (comments ++ second :: (trail' ++ trail))) :=
          .two hc (by simp [hlead, hlead']) hsign hcomments hsecond (by simp [htrail, htrail'])
        simpa using hspelled

end Comparison

/-- The component is a number, with a unit or without one. -/
def IsNumeral : Component → Prop
  | .leaf ⟨.number _, _, _⟩ | .leaf ⟨.dimension _ _, _, _⟩ => True
  | _ => False

/-- The components hold no name. -/
def Nameless (part : List Component) : Prop := ∀ component ∈ part, identName? component = none

/-- The components hold no name, and the first significant one has the property. -/
structure Starts (property : Component → Prop) (part : List Component) : Prop where
  first : ∃ first ∈ (significant part).head?, property first
  nameless : Nameless part

/-- A filler is no name. -/
theorem identName?_of_isFiller {component : Component} (h : component.isFiller = true) :
    identName? component = none := by
  unfold identName?
  split
  · cases h
  · rfl

variable {property : Component → Prop} {part rest : List Component}

/-- Only significant components can be names. -/
theorem nameless_of_significant
    (h : ∀ component ∈ significant part, identName? component = none) : Nameless part := by
  intro component hmem
  cases hfiller : component.isFiller with
  | true => exact identName?_of_isFiller hfiller
  | false => exact h component (List.mem_filter.mpr ⟨hmem, by simp [hfiller]⟩)

/-- Two rows without names hold none in a row. -/
theorem Nameless.append (h : Nameless part) (hrest : Nameless rest) : Nameless (part ++ rest) :=
  List.forall_mem_append.mpr ⟨h, hrest⟩

/-- The first name in components stands behind those that hold no name. -/
theorem Nameless.find? (h : Nameless part) :
    ((part ++ rest).find? fun component => (identName? component).isSome) =
      rest.find? fun component => (identName? component).isSome := by
  rw [List.find?_append, List.find?_eq_none.mpr, Option.none_or]
  intro component hmem
  simp [h component hmem]

/-- What starts with a component of a kind can follow where such components can. -/
theorem Starts.nextIs (h : Starts property part) {property' : Component → Prop}
    (himp : ∀ component, property component → property' component) :
    NextIs property' (part ++ rest) := by
  obtain ⟨first, hfirst, hproperty⟩ := h.first
  intro component hmem
  rw [significant_append, List.head?_append, Option.mem_def.mp hfirst] at hmem
  cases hmem
  exact himp first hproperty

/-- More that holds no name may follow. -/
theorem Starts.append (h : Starts property part) (hrest : Nameless rest) :
    Starts property (part ++ rest) := by
  refine ⟨?_, h.nameless.append hrest⟩
  obtain ⟨first, hfirst, hproperty⟩ := h.first
  refine ⟨first, ?_, hproperty⟩
  rw [significant_append, List.head?_append, Option.mem_def.mp hfirst]
  rfl

/-- The first component behind fillers has the property, and is no name. -/
theorem Starts.exists_dropWhile (h : Starts property part)
    (rest : List Component) : ∃ first others,
      (part ++ rest).dropWhile Component.isFiller = first :: others ∧ property first ∧
        identName? first = none := by
  obtain ⟨first, hfirst, hproperty⟩ := h.first
  obtain ⟨others, hpart⟩ := List.head?_eq_some_iff.mp (Option.mem_def.mp hfirst)
  have hall : significant (part ++ rest) = first :: (others ++ significant rest) := by
    rw [significant_append, hpart, List.cons_append]
  obtain ⟨behind, hbehind, -⟩ := significant_eq_cons_iff.mp hall
  have hmem : first ∈ significant part := hpart ▸ List.mem_cons_self
  exact ⟨first, behind, hbehind, hproperty, h.nameless first (List.mem_filter.mp hmem).1⟩

/-- Something is significant in what starts with something. -/
theorem Starts.significant_ne_nil (h : Starts property part) :
    significant part ≠ [] := by
  obtain ⟨first, hfirst, -⟩ := h.first
  intro hnil
  rw [hnil] at hfirst
  cases hfirst

/-- A number is no name. -/
theorem IsNumeral.identName? {component : Component} (h : IsNumeral component) :
    Parser.identName? component = none := by
  unfold Parser.identName?
  split
  · cases h
  · rfl

/-- A number is no sign. -/
theorem IsNumeral.isNoSign {component : Component} (h : IsNumeral component) (c : Char) :
    IsNoSign c component := by
  unfold IsNoSign Comparison.isSign
  split
  · cases h
  · rfl

/-- What shows a value of a number starts with a number. -/
theorem Shows.starts {α : Type} {value? : Component → Option α} {a : α} (h : Shows value? a part)
    (hvalue : ∀ component a, value? component = some a → IsNumeral component) :
    Starts IsNumeral part := by
  obtain ⟨component, hpart, hsome⟩ := h
  have hnumeral := hvalue component a hsome
  refine ⟨⟨component, by rw [hpart]; rfl, hnumeral⟩, nameless_of_significant ?_⟩
  rw [hpart]
  intro other hmem
  obtain rfl := List.mem_singleton.mp hmem
  exact hnumeral.identName?

/-- A component with the value of a number is a number. -/
theorem isNumeral_of_number? {component : Component} {n : Numeric}
    (h : number? component = some n) : IsNumeral component := by
  obtain ⟨t, n, rfl, hkind, -⟩ := number?_eq_some h
  obtain ⟨kind, text, start⟩ := t
  cases hkind
  trivial

/-- A value that passes a check is shown. -/
theorem Shows.of_filter {α : Type} {value? : Component → Option α} {good : α → Bool} {a : α}
    (h : Shows (fun component => (value? component).filter good) a part) : Shows value? a part := by
  obtain ⟨component, hpart, hsome⟩ := h
  exact ⟨component, hpart, (Option.filter_eq_some_iff.mp hsome).1⟩

/-- A side of a ratio is read where a number is that the mode allows. -/
theorem readsExactly_ratioSide (context : Context) :
    ReadsExactly (ratioSide context)
      (Shows fun component => (number? component).filter fun value =>
        !decide (value.isNegative ∧ !context.mode.negativeNumbers)) Anything :=
  (readsExactly_expect _).congr fun _ _ _ => checked_eq_ok_iff

/-- A count is read where an integer is that the mode allows. -/
theorem readsExactly_nonNegativeInteger (context : Context) :
    ReadsExactly (nonNegativeInteger context)
      (Shows fun component => (integer? component).filter fun value =>
        !decide (value < 0 ∧ !context.mode.negativeNumbers)) Anything :=
  (readsExactly_expect _).congr fun _ _ _ => checked_eq_ok_iff

/-- A delimiter is read where it is. -/
theorem readsExactly_delim (c : Char) :
    ReadsExactly (delim c)
      (fun _ part => ∃ component, significant part = [component] ∧ Comparison.isSign c component)
      Anything := by
  refine (readsExactly_expect _).of_iff fun _ part => ?_
  refine exists_congr fun component => and_congr_right fun _ => ?_
  dsimp only
  unfold Comparison.isSign
  split
  · simp
  · simp

/-- A delimiter is refused where it is not next. -/
theorem delim_of_isNoSign {c : Char} {components : List Component}
    (h : NextIs (IsNoSign c) components) (stop : Position) :
    ∃ e mid, delim c ⟨components, stop⟩ = .error e mid := by
  cases hdelim : delim c ⟨components, stop⟩ with
  | error e mid => exact ⟨e, mid, rfl⟩
  | ok a mid =>
      obtain ⟨p, hp, -, component, hpart, hsign⟩ := (readsExactly_delim c).split hdelim
      have hno := h component (by
        dsimp only at hp
        rw [hp, significant_append, hpart]
        rfl)
      rw [IsNoSign, hsign] at hno
      cases hno

/-- Whether a ratio has a second side is decided by an attempt. -/
theorem ratioParser_eq (context : Context) :
    ratioParser context = ratioSide context >>= fun numerator =>
      attempt (delim '/') >>= fun found =>
        found.elim (pure (.ratio numerator (.integer 1))) fun _ => do
          return .ratio numerator (← ratioSide context) := by
  unfold ratioParser
  congr 1
  funext numerator
  exact succeeds_bind ..

/-- A ratio is read where one is spelled, unless a slash follows. -/
theorem exists_readsExactly_ratioParser (context : Context) :
    ∃ spelled, ReadsExactly (ratioParser context) spelled (NextIs (IsNoSign '/')) ∧
      ∀ v part, spelled v part → Starts IsNumeral part := by
  have hside := readsExactly_ratioSide context
  have hsecond (numerator : Numeric) := hside.map (RangeValue.ratio numerator)
  have hnone (numerator : Numeric) := readsExactly_pure (RangeValue.ratio numerator (.integer 1))
  have hrefuses {part rest : List Component} (hpart : significant part = [])
      (hrest : NextIs (IsNoSign '/') rest) (stop : Position) :
      ∃ e mid, delim '/' ⟨part ++ rest, stop⟩ = .error e mid := by
    refine delim_of_isNoSign ?_ stop
    rwa [NextIs, significant_append, hpart]
  have hratio (numerator : Numeric) := (readsExactly_delim '/').attempt
    (fun _ => (hsecond numerator).of_stops fun _ _ => trivial)
    ((hnone numerator).of_stops fun _ _ => trivial) (fun _ _ => trivial) fun h => hrefuses h.2
  refine ⟨_, ratioParser_eq context ▸ hside.bind hratio fun _ _ => trivial, ?_⟩
  rintro v part ⟨numerator, front, back, rfl, hfront, hback⟩
  refine (Shows.starts (Shows.of_filter hfront) fun _ _ => isNumeral_of_number?).append ?_
  rcases hback with ⟨_, slash, other, rfl, ⟨component, hslash, hsign⟩, denominator, -, hother⟩ |
    ⟨-, hback⟩
  · refine Nameless.append (nameless_of_significant ?_)
      (Shows.starts (Shows.of_filter hother) fun _ _ => isNumeral_of_number?).nameless
    rw [hslash]
    intro c hmem
    obtain rfl := List.mem_singleton.mp hmem
    exact Comparison.identName?_of_isSign hsign
  · refine nameless_of_significant ?_
    rw [hback]
    nofun

/-- Whatever spells a value starts with a number, and is read unless a slash follows. -/
theorem exists_readsExactly_valueParser (context : Context) (name : RangedFeature) :
    ∃ spelled, ReadsExactly (name.valueParser context) spelled (NextIs (IsNoSign '/')) ∧
      ∀ v part, spelled v part → Starts IsNumeral part := by
  have hexpect {value? : Component → Option RangeValue}
      (hvalue : ∀ component v, value? component = some v → IsNumeral component) :
      ∃ spelled, ReadsExactly (expect value?) spelled (NextIs (IsNoSign '/')) ∧
        ∀ v part, spelled v part → Starts IsNumeral part :=
    ⟨Shows value?, (readsExactly_expect _).of_stops fun _ _ => trivial,
      fun _ _ h => Shows.starts h hvalue⟩
  have hcount : ∃ spelled, ReadsExactly (countParser context) spelled (NextIs (IsNoSign '/')) ∧
      ∀ v part, spelled v part → Starts IsNumeral part := by
    refine ⟨_, ((readsExactly_nonNegativeInteger context).map RangeValue.count).of_stops
      fun _ _ => trivial, ?_⟩
    rintro v part ⟨n, -, h⟩
    exact Shows.starts (Shows.of_filter h) fun _ _ hn =>
      isNumeral_of_number? (integer?_eq_some.mp hn)
  cases name with
  | width | height =>
      refine hexpect fun component v h => ?_
      split at h
      · trivial
      · trivial
      · cases h
  | aspectRatio => exact exists_readsExactly_ratioParser context
  | resolution =>
      refine hexpect fun component v h => ?_
      split at h
      · trivial
      · cases h
  | color | colorIndex | monochrome => exact hcount

/-- A value of a ranged feature is read where one is spelled, unless a slash follows. It starts with
a number and holds no name. -/
theorem readsExactly_valueParser (context : Context) (name : RangedFeature) :
    ReadsExactly (name.valueParser context) (name.IsValue context) (NextIs (IsNoSign '/')) ∧
      ∀ v part, name.IsValue context v part → Starts IsNumeral part := by
  obtain ⟨spelled, hreads, hstarts⟩ := exists_readsExactly_valueParser context name
  refine ⟨hreads.readEntirely fun _ => AtEnd.nextIs, ?_⟩
  rintro v part ⟨stop, last, hread⟩
  exact hstarts v part ((hreads.entirely_eq_ok_iff fun _ => AtEnd.nextIs).mp hread).1

/-- A comparison sign starts with a sign that is no slash, and holds no name. -/
theorem Comparison.Spelled.starts {comparison : Comparison} (h : comparison.Spelled part) :
    Starts (fun component => ∃ c, c ≠ '/' ∧ isSign c component = true) part := by
  obtain ⟨sign, others, hpart, c, hc, hsigns⟩ : ∃ sign others, significant part = sign :: others ∧
      ∃ c, (c ≠ '/' ∧ isSign c sign = true) ∧
        ∀ component ∈ sign :: others, ∃ d, isSign d component = true := by
    cases h with
    | @one c _ _ sign hc hpart hsign =>
        have hslash : c ≠ '/' := by
          rintro rfl
          simp at hc
        exact ⟨sign, [], hpart, c, ⟨hslash, hsign⟩, by simpa using ⟨c, hsign⟩⟩
    | @two c _ _ _ _ sign second hc hlead hsign hcomments hsecond htrail =>
        have hslash : c ≠ '/' := by
          rintro rfl
          simp at hc
        refine ⟨sign, [second], ?_, c, ⟨hslash, hsign⟩, by simpa using ⟨⟨c, hsign⟩, '=', hsecond⟩⟩
        rw [significant_append, hlead, List.nil_append, significant_cons (isFiller_of_isSign hsign),
          significant_append, significant_comments hcomments, List.nil_append,
          significant_cons (isFiller_of_isSign hsecond), htrail]
  refine ⟨⟨sign, by rw [hpart]; rfl, c, hc⟩, nameless_of_significant ?_⟩
  rw [hpart]
  intro component hmem
  obtain ⟨d, hd⟩ := hsigns component hmem
  exact identName?_of_isSign hd

/-- A word is read where one is spelled. -/
theorem readsExactly_identMatching (word : String) :
    ReadsExactly (identMatching word) (fun _ part => IsWord word part) Anything := by
  refine (readsExactly_expect _).of_iff fun _ part => ?_
  refine exists_congr fun component => and_congr_right fun _ => ?_
  dsimp only
  split
  · rename_i hword
    simp [hword]
  · rename_i hword
    simp [hword]

/-- A word goes on no sign. -/
theorem IsWord.nextIs {word : String} (h : IsWord word part) (c : Char) :
    NextIs (IsNoSign c) (part ++ rest) := by
  obtain ⟨component, hpart, hword⟩ := h
  intro first hfirst
  rw [significant_append, hpart] at hfirst
  cases hfirst
  refine Bool.eq_false_iff.mpr fun hsign => ?_
  rw [keyword?, Comparison.identName?_of_isSign hsign] at hword
  cases hword

/-- What starts with a sign starts with no colon. -/
theorem Comparison.Spelled.colon {comparison : Comparison} (h : comparison.Spelled part)
    (stop : Position) : ∃ e mid, Parser.colon ⟨part ++ rest, stop⟩ = .error e mid := by
  cases hcolon : Parser.colon ⟨part ++ rest, stop⟩ with
  | error e mid => exact ⟨e, mid, rfl⟩
  | ok a mid =>
      obtain ⟨front, hfront, -, text, start, hshown⟩ := readsExactly_colon.split hcolon
      have hno : NextIs (fun component => ∃ c, isSign c component = true) (part ++ rest) :=
        h.starts.nextIs fun _ hc => hc.imp fun _ => And.right
      obtain ⟨c, hc⟩ := hno (.leaf ⟨.colon, text, start⟩) (by
        dsimp only at hfront
        rw [hfront, significant_append, hshown]
        rfl)
      cases hc

end Css
