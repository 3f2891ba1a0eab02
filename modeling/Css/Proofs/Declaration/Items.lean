import Css.Declaration.Grammar
import Css.Proofs.Parser.Clean
import Css.Proofs.Parser.Segments
import Mathlib

/-!
# The items of a list of declarations

A list of declarations is read if and only if every segment between semicolons in which something
stands is a name with an item that is read behind it, up to the end of the segment. It holds one
item for each such segment, in order, `declarationList_eq_ok_iff_isRead`. What stands behind a name
is left to the grammar of the items, or to what they are spelled with, `declarationList_eq_ok_iff`.
-/

namespace Css

open Css.Parser
open Component (significant significant_eq_nil_iff segments)

namespace Component

/-- The component does not end a segment at one of the delimiters. -/
def isInside (delimiters : List Char) (component : Component) : Bool :=
  !isDelimiter delimiters component

/-- The segments between semicolons in which something stands. -/
def entries (components : List Component) : List Segment :=
  (segments (isDelimiter [';']) components).filter fun segment => !segment.isBlank

/-- Fillers end no segments. -/
theorem isDelimiter_of_significant {delimiters : List Char} {gap : List Component}
    (h : significant gap = []) : ∀ component ∈ gap, isDelimiter delimiters component = false := by
  intro component hmem
  have hfiller := significant_eq_nil_iff_forall.mp h component hmem
  refine Bool.eq_false_iff.mpr fun hend => ?_
  cases (isFiller_of_isDelimiter hend).symm.trans hfiller

/-- In fillers there are no entries. -/
theorem entries_of_significant {components : List Component} (h : significant components = []) :
    entries components = [] := by
  have hblank : (Segment.mk components none).isBlank = true :=
    Segment.isBlank_iff.mpr ⟨h, by simp⟩
  rw [entries, segments_of_forall (isDelimiter_of_significant h)]
  simp [hblank]

/-- A semicolon behind fillers is passed. -/
theorem entries_semicolon {gap : List Component} (h : significant gap = []) (text : List Char)
    (start : Position) (rest : List Component) :
    entries (gap ++ .leaf ⟨.semicolon, text, start⟩ :: rest) = entries rest := by
  have hblank : (Segment.mk gap (some (.leaf ⟨.semicolon, text, start⟩))).isBlank = true :=
    Segment.isBlank_iff.mpr ⟨h, by rintro component ⟨⟩; rfl⟩
  rw [entries, segments_append (isDelimiter_of_significant h) rfl]
  simp [entries, hblank]

/-- What stands in front of the first semicolon is an entry if anything does. -/
theorem entries_eq_cons {components : List Component}
    (hsome : significant (components.takeWhile (isInside [';'])) ≠ []) :
    entries components =
      ⟨components.takeWhile (isInside [';']), (components.dropWhile (isInside [';'])).head?⟩ ::
        entries ((components.dropWhile (isInside [';'])).drop 1) := by
  have hfront : ∀ component ∈ components.takeWhile (isInside [';']),
      isDelimiter [';'] component = false := by
    intro component hmem
    simpa [isInside] using List.mem_takeWhile_imp hmem
  have hback : ∀ component ∈ (components.dropWhile (isInside [';'])).head?,
      isDelimiter [';'] component = true :=
    (Cursor.mk components default).isDelimiter_head?_skip
  have hblank (ending : Option Component) :
      (Segment.mk (components.takeWhile (isInside [';'])) ending).isBlank = false :=
    Segment.isBlank_of_significant hsome
  conv_lhs => rw [← List.takeWhile_append_dropWhile (p := isInside [';']) (l := components)]
  cases hrest : components.dropWhile (isInside [';']) with
  | nil =>
      have hnil : entries [] = [] := entries_of_significant rfl
      rw [List.append_nil, entries, segments_of_forall hfront]
      simp [hblank, hnil]
  | cons ending rest =>
      rw [hrest] at hback
      rw [entries, segments_append hfront (hback ending rfl)]
      simp [hblank, entries]

/-- Fillers stand in front of the end of a segment. -/
theorem isInside_of_significant {gap : List Component} (h : significant gap = []) :
    ∀ component ∈ gap, isInside [';'] component = true := by
  simpa [isInside] using isDelimiter_of_significant h

/-- What stands between fillers and the end of a segment is an entry. -/
theorem entries_cons {gap : List Component} (hgap : significant gap = []) {component : Component}
    (hcomponent : component.isFiller = false) (hinside : isInside [';'] component = true)
    (rest : List Component) :
    entries (gap ++ component :: rest) =
      ⟨gap ++ component :: rest.takeWhile (isInside [';']),
          (rest.dropWhile (isInside [';'])).head?⟩ ::
        entries ((rest.dropWhile (isInside [';'])).drop 1) := by
  have htake : (gap ++ component :: rest).takeWhile (isInside [';']) =
      gap ++ component :: rest.takeWhile (isInside [';']) := by
    rw [List.takeWhile_append_of_pos (isInside_of_significant hgap),
      List.takeWhile_cons_of_pos hinside]
  have hdrop : (gap ++ component :: rest).dropWhile (isInside [';']) =
      rest.dropWhile (isInside [';']) := by
    rw [List.dropWhile_append_of_pos (isInside_of_significant hgap),
      List.dropWhile_cons_of_pos hinside]
  rw [← htake, ← hdrop]
  refine entries_eq_cons ?_
  rw [htake, significant_append, hgap, significant_cons hcomponent]
  exact List.cons_ne_nil _ _

/-- An end of a segment that is no semicolon is an entry, even if nothing stands in front of it. -/
theorem entries_of_isDelimiter {gap : List Component} (hgap : significant gap = [])
    {component : Component} (hend : isDelimiter [';'] component = true)
    (hno : ∀ text start, component ≠ .leaf ⟨.semicolon, text, start⟩) (rest : List Component) :
    entries (gap ++ component :: rest) = ⟨gap, some component⟩ :: entries rest := by
  have hblank : (Segment.mk gap (some component)).isBlank = false := by
    rw [Segment.isBlank, Bool.and_eq_false_iff]
    refine .inr ?_
    cases component with
    | group opening contents closing =>
        obtain ⟨kind, text, start⟩ := opening
        cases kind <;> first | rfl | cases hend
    | leaf t =>
        obtain ⟨kind, text, start⟩ := t
        cases kind <;> first | rfl | exact absurd rfl (hno _ _)
  rw [entries, segments_append (isDelimiter_of_significant hgap) hend]
  simp [hblank, entries]

end Component

open Component (isInside entries entries_of_significant entries_semicolon entries_cons
  entries_of_isDelimiter significant_append significant_takeWhile isFiller_of_dropWhile)

namespace Parser

variable {α : Type}

/-- A parser in front of a delimiter, and over it, succeeds on what stands in front of it. -/
theorem untilAfter_eq_ok_iff {delimiters : List Char} {p : Parser α} {c after : Cursor} {a : α} :
    untilAfter delimiters p c = .ok a after ↔
      (∃ last, entirely p ⟨c.rest.takeWhile (isInside delimiters),
          (c.skip (isInside delimiters)).location⟩ = .ok a last) ∧
        after = ⟨(c.rest.dropWhile (isInside delimiters)).drop 1, c.stop⟩ := by
  unfold untilAfter
  rw [bind_eq_ok]
  constructor
  · rintro ⟨b, mid, hbefore, hstep⟩
    obtain ⟨rfl, last, hread⟩ := untilBefore_eq_ok.mp hbefore
    cases hstep
    rw [Cursor.read_skip] at hread
    exact ⟨⟨last, hread⟩, rfl⟩
  · rintro ⟨⟨last, hread⟩, rfl⟩
    rw [← Cursor.read_skip] at hread
    exact ⟨a, _, untilBefore_eq_ok.mpr ⟨rfl, last, hread⟩, rfl⟩

/-- A parser in front of a delimiter, and over it, leads on. -/
theorem advances_untilAfter (delimiters : List Char) (p : Parser α) :
    Advances (untilAfter delimiters p) := by
  intro c a after h
  obtain ⟨-, rfl⟩ := untilAfter_eq_ok_iff.mp h
  exact ⟨(List.drop_suffix _ _).trans (List.dropWhile_suffix _), rfl⟩

/-- A repeated parser that reads something each time stops where only fillers are left. -/
theorem isExhausted_of_many {p : Parser α} (hp : Consumes p) {c after : Cursor} {items : List α}
    (h : many p c = .ok items after) : after.isExhausted = true := by
  induction items generalizing c with
  | nil =>
      rcases (many_eq_ok_iff hp).mp h with ⟨hend, -, rfl⟩ | ⟨-, a, others, mid, -, -, heq⟩
      · exact hend
      · cases heq
  | cons a items ih =>
      rcases (many_eq_ok_iff hp).mp h with ⟨-, heq, -⟩ | ⟨-, b, others, mid, -, hmany, heq⟩
      · cases heq
      · cases heq
        exact ih hmany

end Parser

variable {α : Type}

/-- What a list of declarations is made of: an item behind a name and a colon, or nothing in front
of a semicolon. -/
def declarationItem (afterColon : String → Parser α) : Parser (Option α) := do
  let component ← next
  match component with
  | .leaf ⟨.semicolon, _, _⟩ => return none
  | .leaf ⟨.ident name, _, _⟩ =>
    let item ← untilAfter [';'] do
      colon
      afterColon name
    return some item
  | _ => unexpected component

/-- The components are a name, and an item is spelled behind it. -/
def Named (spelled : String → α → List Component → Prop) (item : α) (components : List Component) :
    Prop :=
  ∃ gap component name rest, components = gap ++ component :: rest ∧ significant gap = [] ∧
    identName? component = some name ∧ spelled name item rest

/-- Behind fillers and a component that is no filler, only the component can be the name. -/
theorem named_iff {spelled : String → α → List Component → Prop} {item : α}
    {gap rest : List Component} {component : Component} (hgap : significant gap = [])
    (hcomponent : component.isFiller = false) :
    Named spelled item (gap ++ component :: rest) ↔
      ∃ name, identName? component = some name ∧ spelled name item rest := by
  constructor
  · rintro ⟨gap', component', name, rest', heq, hgap', hname, hspelled⟩
    obtain ⟨rfl, rfl⟩ := Component.append_cons_inj heq hgap hgap' hcomponent
      (Component.isFiller_of_identName? hname)
    exact ⟨name, hname, hspelled⟩
  · rintro ⟨name, hname, hspelled⟩
    exact ⟨gap, component, name, rest, rfl, hgap, hname, hspelled⟩

/-- In fillers there is no name. -/
theorem not_named_of_significant {spelled : String → α → List Component → Prop} {item : α}
    {gap : List Component} (hgap : significant gap = []) : ¬Named spelled item gap := by
  rintro ⟨front, component, name, rest, rfl, -, hname, -⟩
  obtain ⟨⟨_, text, start⟩, rfl, rfl⟩ := identName?_eq_some hname
  rw [significant_append] at hgap
  cases (List.append_eq_nil_iff.mp hgap).2

variable {afterColon : String → Parser α}

/-- What one step of a list reads: a semicolon, or a name and an item up to a semicolon. -/
theorem declarationItem_eq_ok_iff {c after : Cursor} {found : Option α} :
    declarationItem afterColon c = .ok found after ↔ ∃ component rest,
      c.rest.dropWhile Component.isFiller = component :: rest ∧
        ((found = none ∧ after = ⟨rest, c.stop⟩ ∧
            ∃ text start, component = .leaf ⟨.semicolon, text, start⟩) ∨
          ∃ name item, found = some item ∧ identName? component = some name ∧
            untilAfter [';'] (do colon; afterColon name) ⟨rest, c.stop⟩ = .ok item after) := by
  unfold declarationItem
  rw [bind_eq_ok]
  constructor
  · rintro ⟨component, mid, hnext, hrun⟩
    obtain ⟨rest, hrest, rfl⟩ := next_eq_ok_iff.mp hnext
    refine ⟨component, rest, hrest, ?_⟩
    split at hrun
    · cases hrun
      exact .inl ⟨rfl, rfl, _, _, rfl⟩
    · obtain ⟨item, mid, hread, hpure⟩ := bind_eq_ok.mp hrun
      cases hpure
      exact .inr ⟨_, item, rfl, rfl, hread⟩
    · cases hrun
  · rintro ⟨component, rest, hrest, ⟨rfl, rfl, text, start, rfl⟩ | ⟨name, item, rfl, hname, hread⟩⟩
    · exact ⟨_, _, next_eq_ok_iff.mpr ⟨rest, hrest, rfl⟩, rfl⟩
    · obtain ⟨⟨_, text, start⟩, rfl, rfl⟩ := identName?_eq_some hname
      exact ⟨_, _, next_eq_ok_iff.mpr ⟨rest, hrest, rfl⟩, bind_eq_ok.mpr ⟨item, after, hread, rfl⟩⟩

/-- A step of a list reads something. -/
theorem consumes_declarationItem : Consumes (declarationItem afterColon) := by
  refine consumes_next.bind fun component => ?_
  split
  · exact advances_pure _
  · exact (advances_untilAfter _ _).bind fun _ => advances_pure _
  · exact advances_unexpected _

/-- The items that a repeated step reads. -/
def HasItems (afterColon : String → Parser α) (c : Cursor) (items : List α) : Prop :=
  ∃ found after, many (declarationItem afterColon) c = .ok found after ∧ found.filterMap id = items

/-- At the end there are no items. -/
theorem hasItems_of_isExhausted {c : Cursor} (h : c.isExhausted = true) {items : List α} :
    HasItems afterColon c items ↔ items = [] := by
  constructor
  · rintro ⟨found, after, hmany, rfl⟩
    rcases (many_eq_ok_iff consumes_declarationItem).mp hmany with ⟨-, rfl, -⟩ | ⟨hmore, -⟩
    · rfl
    · exact absurd (hmore.symm.trans h) Bool.false_ne_true
  · rintro rfl
    exact ⟨[], c, (many_eq_ok_iff consumes_declarationItem).mpr (.inl ⟨h, rfl, rfl⟩), rfl⟩

/-- Elsewhere there are the items of the first step and those behind it. -/
theorem hasItems_of_not_isExhausted {c : Cursor} (h : c.isExhausted = false) {items : List α} :
    HasItems afterColon c items ↔ ∃ found mid others,
      declarationItem afterColon c = .ok found mid ∧ HasItems afterColon mid others ∧
        items = found.toList ++ others := by
  have hfilter (found : Option α) (others : List (Option α)) :
      (found :: others).filterMap id = found.toList ++ others.filterMap id := by
    cases found <;> rfl
  constructor
  · rintro ⟨found, after, hmany, rfl⟩
    rcases (many_eq_ok_iff consumes_declarationItem).mp hmany with
      ⟨hend, -⟩ | ⟨-, a, others, mid, hstep, hrest, rfl⟩
    · exact absurd (h.symm.trans hend) Bool.false_ne_true
    · exact ⟨a, mid, _, hstep, ⟨others, after, hrest, rfl⟩, hfilter a others⟩
  · rintro ⟨a, mid, _, hstep, ⟨others, after, hrest, rfl⟩, rfl⟩
    exact ⟨a :: others, after, (many_eq_ok_iff consumes_declarationItem).mpr
      (.inr ⟨h, a, others, mid, hstep, hrest, rfl⟩), hfilter a others⟩

/-- A semicolon holds no item. -/
theorem hasItems_semicolon {c : Cursor} {text : List Char} {start : Position}
    {rest : List Component}
    (h : c.rest.dropWhile Component.isFiller = .leaf ⟨.semicolon, text, start⟩ :: rest)
    {items : List α} : HasItems afterColon c items ↔ HasItems afterColon ⟨rest, c.stop⟩ items := by
  rw [hasItems_of_not_isExhausted (Cursor.isExhausted_of_cons h)]
  constructor
  · rintro ⟨found, mid, others, hstep, hothers, rfl⟩
    obtain ⟨component, rest', hrest, ⟨rfl, rfl, -⟩ | ⟨name, item, -, hname, -⟩⟩ :=
      declarationItem_eq_ok_iff.mp hstep
    · cases h.symm.trans hrest
      exact hothers
    · cases h.symm.trans hrest
      cases hname
  · intro hothers
    exact ⟨none, _, items, declarationItem_eq_ok_iff.mpr
      ⟨_, rest, h, .inl ⟨rfl, rfl, text, start, rfl⟩⟩, hothers, rfl⟩

/-- The item is read behind a colon from all of the components. -/
def IsRead (afterColon : String → Parser α) (stop : Position) (name : String) (item : α)
    (components : List Component) : Prop :=
  ∃ last, entirely (do colon; afterColon name) ⟨components, stop⟩ = .ok item last

/-- Any other component has to be the name of an item that is read in front of the next
semicolon. -/
theorem hasItems_cons {c : Cursor} {component : Component} {rest : List Component}
    (h : c.rest.dropWhile Component.isFiller = component :: rest)
    (hno : ∀ text start, component ≠ .leaf ⟨.semicolon, text, start⟩) {items : List α} :
    HasItems afterColon c items ↔ ∃ name item others, identName? component = some name ∧
      IsRead afterColon ((rest.dropWhile (isInside [';'])).head?.elim c.stop Component.start) name
        item (rest.takeWhile (isInside [';'])) ∧
      HasItems afterColon ⟨(rest.dropWhile (isInside [';'])).drop 1, c.stop⟩ others ∧
      items = item :: others := by
  have hlocation : ((⟨rest, c.stop⟩ : Cursor).skip (isInside [';'])).location =
      (rest.dropWhile (isInside [';'])).head?.elim c.stop Component.start := by
    simp only [Cursor.location, Cursor.skip]
    cases rest.dropWhile (isInside [';']) <;> rfl
  rw [hasItems_of_not_isExhausted (Cursor.isExhausted_of_cons h), ← hlocation]
  constructor
  · rintro ⟨found, mid, others, hstep, hothers, rfl⟩
    obtain ⟨component', rest', hrest, ⟨-, -, text, start, rfl⟩ | ⟨name, item, rfl, hname, hitem⟩⟩ :=
      declarationItem_eq_ok_iff.mp hstep
    · cases h.symm.trans hrest
      exact absurd rfl (hno text start)
    · cases h.symm.trans hrest
      obtain ⟨hread, rfl⟩ := untilAfter_eq_ok_iff.mp hitem
      exact ⟨name, item, others, hname, hread, hothers, rfl⟩
  · rintro ⟨name, item, others, hname, hread, hothers, rfl⟩
    have hitem : untilAfter [';'] (do colon; afterColon name) ⟨rest, c.stop⟩ = .ok item _ :=
      untilAfter_eq_ok_iff.mpr ⟨hread, rfl⟩
    exact ⟨some item, _, others, declarationItem_eq_ok_iff.mpr
      ⟨component, rest, h, .inr ⟨name, item, rfl, hname, hitem⟩⟩, hothers, rfl⟩

/-- The items of a list are those of its entries, in order. -/
theorem hasItems_iff {c : Cursor} {items : List α} :
    HasItems afterColon c items ↔
      List.Forall₂ (fun segment item =>
        Named (IsRead afterColon (segment.stop c.stop)) item segment.contents) (entries c.rest)
        items := by
  -- a step reads a whole entry, so the induction is on the number of components that are left
  induction hlength : c.rest.length using Nat.strong_induction_on generalizing c items with
  | _ n ih =>
    subst hlength
    cases hend : c.isExhausted with
    | true =>
        rw [entries_of_significant (c.isExhausted_iff_significant.mp hend),
          List.forall₂_nil_left_iff, hasItems_of_isExhausted hend]
    | false =>
        obtain ⟨component, rest, hrest⟩ := List.exists_cons_of_ne_nil fun hnil =>
          Bool.false_ne_true (hend.symm.trans ((Cursor.isExhausted_iff c).mpr hnil))
        have hgap := significant_takeWhile c.rest
        have hfiller := isFiller_of_dropWhile hrest
        have hsplit : c.rest = c.rest.takeWhile Component.isFiller ++ component :: rest := by
          rw [← hrest, List.takeWhile_append_dropWhile]
        have hless : rest.length < c.rest.length := by
          rw [hsplit, List.length_append, List.length_cons]
          omega
        by_cases hsemicolon : ∃ text start, component = .leaf ⟨.semicolon, text, start⟩
        · obtain ⟨text, start, rfl⟩ := hsemicolon
          rw [hasItems_semicolon hrest, ih _ hless rfl, hsplit, entries_semicolon hgap]
        have hno : ∀ text start, component ≠ .leaf ⟨.semicolon, text, start⟩ :=
          fun text start heq => hsemicolon ⟨text, start, heq⟩
        rw [hasItems_cons hrest hno]
        cases hdelimiter : isDelimiter [';'] component with
        | true =>
            -- an end of a segment is no name, and nothing stands in front of it
            rw [hsplit, entries_of_isDelimiter hgap hdelimiter hno]
            constructor
            · rintro ⟨name, item, others, hname, -⟩
              obtain ⟨⟨_, _, _⟩, rfl, rfl⟩ := identName?_eq_some hname
              cases hdelimiter
            · rintro (_ | ⟨hnamed, -⟩)
              exact absurd hnamed (not_named_of_significant hgap)
        | false =>
            rw [hsplit, entries_cons hgap hfiller (by simp [isInside, hdelimiter])]
            have hshort : ((rest.dropWhile (isInside [';'])).drop 1).length < c.rest.length := by
              refine Nat.lt_of_le_of_lt (List.Sublist.length_le ?_) hless
              exact (List.drop_sublist _ _).trans (List.dropWhile_sublist _)
            constructor
            · rintro ⟨name, item, others, hname, hread, hothers, rfl⟩
              exact .cons ((named_iff hgap hfiller).mpr ⟨name, hname, hread⟩)
                ((ih _ hshort rfl).mp hothers)
            · rintro (_ | ⟨hnamed, hothers⟩)
              obtain ⟨name, hname, hread⟩ := (named_iff hgap hfiller).mp hnamed
              exact ⟨name, _, _, hname, hread, (ih _ hshort rfl).mpr hothers, rfl⟩

/-- A list of declarations is read where the entries are names with items that are read behind them,
each of them from the whole entry. It holds the items of the entries in order. -/
theorem declarationList_eq_ok_iff_isRead {c : Cursor} {items : List α} :
    (∃ after, declarationList afterColon c = .ok items after) ↔
      List.Forall₂ (fun segment item =>
        Named (IsRead afterColon (segment.stop c.stop)) item segment.contents) (entries c.rest)
        items := by
  rw [← hasItems_iff]
  constructor
  · rintro ⟨after, h⟩
    obtain ⟨found, mid, hmany, hpure⟩ := bind_eq_ok.mp h
    cases hpure
    exact ⟨found, after, hmany, rfl⟩
  · rintro ⟨found, after, hmany, rfl⟩
    exact ⟨after, bind_eq_ok.mpr ⟨found, after, hmany, rfl⟩⟩

/-- Where an item is read by what it is spelled with, a list of declarations is read where the
entries are names with items behind them. -/
theorem declarationList_eq_ok_iff {spelled : String → α → List Component → Prop}
    (hread : ∀ name item c last, entirely (do colon; afterColon name) c = .ok item last ↔
      spelled name item c.rest ∧ last = ⟨[], c.stop⟩) {c : Cursor} {items : List α} :
    (∃ after, declarationList afterColon c = .ok items after) ↔
      List.Forall₂ (fun segment item => Named spelled item segment.contents) (entries c.rest)
        items := by
  have hspelled (stop : Position) : IsRead afterColon stop = spelled := by
    funext name item components
    simp only [IsRead, hread, exists_and_left, exists_eq, and_true]
  simp only [declarationList_eq_ok_iff_isRead, hspelled]

/-- Only fillers are left behind a list of declarations. -/
theorem isExhausted_of_declarationList {c after : Cursor} {items : List α}
    (h : declarationList afterColon c = .ok items after) : after.isExhausted = true := by
  obtain ⟨found, mid, hmany, hpure⟩ := bind_eq_ok.mp h
  cases hpure
  exact isExhausted_of_many consumes_declarationItem hmany

end Css
