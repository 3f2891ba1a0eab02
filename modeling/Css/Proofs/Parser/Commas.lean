import Css.Proofs.Parser.Segments

/-!
# Lists with commas

The commas that stand in no group cut what is left into parts, one more than there are commas. A
parser of segments between commas reads what the confined parser reads on each part, in order, and
fails as that parser does on the first part that it does not read entirely,
`commaSeparated_reads_parts`. Parts may be empty, also in front of the first comma and behind the
last one.
-/

namespace Css

open Component (segments segments_of_forall segments_append)

namespace Component

variable {isEnd : Component → Bool}

/-- A property of rows holds if it holds of the rows without an end, and of every row whose part
behind the first end has it. -/
theorem segments_induction (isEnd : Component → Bool) {motive : List Component → Prop}
    (last : ∀ front, (∀ component ∈ front, isEnd component = false) → motive front)
    (more : ∀ front ending rest, (∀ component ∈ front, isEnd component = false) →
      isEnd ending = true → motive rest → motive (front ++ ending :: rest))
    (row : List Component) : motive row := by
  -- the induction is on the row, but the part up to the first end grows at the front
  suffices h : ∀ front, (∀ component ∈ front, isEnd component = false) → motive (front ++ row) from
    h [] (by simp)
  induction row with
  | nil =>
      intro front hfront
      rw [List.append_nil]
      exact last front hfront
  | cons component rest ih =>
      intro front hfront
      cases hcomponent : isEnd component with
      | true => exact more front component rest hfront hcomponent (ih [] (by simp))
      | false =>
          have hgrown : ∀ other ∈ front ++ [component], isEnd other = false := by
            simpa [or_imp, forall_and, hcomponent] using hfront
          have hrest := ih (front ++ [component]) hgrown
          rwa [List.append_assoc, List.singleton_append] at hrest

/-- Segments hold what stands between the ends. -/
theorem contents_segments (isEnd : Component → Bool) (row : List Component) :
    (segments isEnd row).map Segment.contents = row.splitOnP isEnd := by
  induction row using segments_induction isEnd with
  | last front hfront =>
      rw [segments_of_forall hfront, List.splitOnP_eq_singleton hfront]
      rfl
  | more front ending rest hfront hending ih =>
      rw [segments_append hfront hending,
        List.splitOnP_append_cons_of_forall_mem hfront ending hending, List.map_cons, ih]

/-- There is one more segment than there are ends. -/
theorem length_segments (isEnd : Component → Bool) (row : List Component) :
    (segments isEnd row).length = row.countP isEnd + 1 := by
  induction row using segments_induction isEnd with
  | last front hfront =>
      rw [segments_of_forall hfront, List.countP_eq_zero.mpr (by simpa using hfront)]
      rfl
  | more front ending rest hfront hending ih =>
      have hnone : front.countP isEnd = 0 := List.countP_eq_zero.mpr (by simpa using hfront)
      rw [segments_append hfront hending, List.length_cons, ih, List.countP_append, hnone,
        List.countP_cons_of_pos hending, Nat.zero_add]

end Component

open Css.Parser

/-- The component separates the items of a list. -/
def Component.isComma : Component → Bool := isDelimiter [',']

/-- A comma is a token on its own, of the kind that the character has. -/
theorem Component.isComma_iff {component : Component} :
    component.isComma = true ↔
      ∃ t, component = .leaf t ∧ (t.kind = .comma ∨ t.kind = .delim ',') := by
  cases component with
  | leaf t =>
      obtain ⟨kind, text, start⟩ := t
      cases kind <;> simp [isComma, isDelimiter, delimiter?]
  | group opening contents closing =>
      simp only [isComma, isDelimiter, delimiter?]
      split <;> simp

namespace Cursor

/-- The parts of what is left that commas separate. Each ends at the comma behind it. -/
def parts (c : Cursor) : List Cursor :=
  (segments Component.isComma c.rest).map fun segment => ⟨segment.contents, segment.stop c.stop⟩

variable {front : List Component}

/-- Without a comma, there is one part. -/
theorem parts_of_forall (h : ∀ component ∈ front, component.isComma = false) (stop : Position) :
    parts ⟨front, stop⟩ = [⟨front, stop⟩] := by
  rw [parts, segments_of_forall h]
  rfl

/-- The first part ends at the first comma, and the others are the parts behind it. -/
theorem parts_append (h : ∀ component ∈ front, component.isComma = false) {comma : Component}
    (hcomma : comma.isComma = true) (rest : List Component) (stop : Position) :
    parts ⟨front ++ comma :: rest, stop⟩ = ⟨front, comma.start⟩ :: parts ⟨rest, stop⟩ := by
  rw [parts, segments_append h hcomma]
  rfl

end Cursor

namespace Parser

variable {α : Type} {p : Parser α} {c : Cursor}

/-- The parser reads all that is left as the value, fillers behind it included. -/
def ReadsAs (p : Parser α) (c : Cursor) (a : α) : Prop :=
  ∃ after, p c = .ok a after ∧ after.isExhausted = true

/-- The parser fails, or leaves a component over. -/
inductive FailsWith (p : Parser α) (c : Cursor) : ParseError → Prop
  | fails {e : ParseError} {after : Cursor} (h : p c = .error e after) : FailsWith p c e
  | leaves {a : α} {after : Cursor} {component : Component} {rest : List Component}
      (h : p c = .ok a after)
      (hrest : after.rest.dropWhile Component.isFiller = component :: rest) :
      FailsWith p c ⟨.unexpectedToken component.token, component.start⟩

/-- A parser after which nothing may be left succeeds where the parser reads all that is left. -/
theorem exists_entirely_eq_ok_iff {a : α} :
    (∃ last, entirely p c = .ok a last) ↔ ReadsAs p c a := by
  simp [entirely_eq_ok_iff, ReadsAs]

/-- A parser after which nothing may be left fails where the parser fails or leaves something. -/
theorem exists_entirely_eq_error_iff {e : ParseError} :
    (∃ last, entirely p c = .error e last) ↔ FailsWith p c e := by
  constructor
  · rintro ⟨last, h⟩
    cases hp : p c with
    | error e' after =>
        rw [entirely, bind_of_error hp] at h
        cases h
        exact .fails hp
    | ok a after =>
        rw [entirely, bind_of_ok hp] at h
        cases hrest : after.rest.dropWhile Component.isFiller with
        | nil =>
            have hend : atEnd after = .ok () ⟨[], after.stop⟩ := by rw [atEnd_eq, hrest]
            rw [bind_of_ok hend] at h
            cases h
        | cons component rest =>
            rw [bind_of_error (by rw [atEnd_eq, hrest])] at h
            cases h
            exact .leaves hp hrest
  · intro h
    cases h with
    | fails hp => exact ⟨_, by rw [entirely, bind_of_error hp]⟩
    | leaves hp hrest =>
        exact ⟨_, by rw [entirely, bind_of_ok hp, bind_of_error (by rw [atEnd_eq, hrest])]⟩

/-- A parser reads all that is left, or fails or leaves something over. -/
theorem readsAs_or_failsWith (p : Parser α) (c : Cursor) :
    (∃ a, ReadsAs p c a) ∨ ∃ e, FailsWith p c e := by
  cases hp : entirely p c with
  | ok a last => exact .inl ⟨a, exists_entirely_eq_ok_iff.mp ⟨last, hp⟩⟩
  | error e last => exact .inr ⟨e, exists_entirely_eq_error_iff.mp ⟨last, hp⟩⟩

/-- The parser reads some of the parts, and fails on the next one or leaves something over. -/
def FirstFailsWith (p : Parser α) (parts : List Cursor) (e : ParseError) : Prop :=
  ∃ front part back, parts = front ++ part :: back ∧
    (∀ earlier ∈ front, ∃ a, ReadsAs p earlier a) ∧ FailsWith p part e

section

variable {part : Cursor} {parts : List Cursor} {e : ParseError}

/-- Without parts, none fails. -/
@[simp] theorem not_firstFailsWith_nil : ¬FirstFailsWith p [] e := by
  simp [FirstFailsWith]

/-- The first part fails, or it is read and one behind it fails. -/
theorem firstFailsWith_cons_iff : FirstFailsWith p (part :: parts) e ↔
    FailsWith p part e ∨ (∃ a, ReadsAs p part a) ∧ FirstFailsWith p parts e := by
  constructor
  · rintro ⟨front, failing, back, hparts, hfront, hfails⟩
    cases front with
    | nil =>
        cases hparts
        exact .inl hfails
    | cons first front =>
        cases hparts
        rw [List.forall_mem_cons] at hfront
        exact .inr ⟨hfront.1, front, failing, back, rfl, hfront.2, hfails⟩
  · rintro (hfails | ⟨hread, front, failing, back, rfl, hfront, hfails⟩)
    · exact ⟨[], part, parts, rfl, by simp, hfails⟩
    · exact ⟨part :: front, failing, back, rfl, List.forall_mem_cons.mpr ⟨hread, hfront⟩, hfails⟩

/-- There is a first part that is not read if there is any. -/
theorem exists_firstFailsWith_iff :
    (∃ e, FirstFailsWith p parts e) ↔ ∃ part ∈ parts, ∃ e, FailsWith p part e := by
  induction parts with
  | nil => simp
  | cons part parts ih =>
      simp only [firstFailsWith_cons_iff, exists_or, exists_and_left, ih, List.exists_mem_cons_iff]
      refine or_congr_right' fun hpart => and_iff_right ?_
      exact (readsAs_or_failsWith p part).resolve_right hpart

end

/-- Parses the segments behind commas entirely, each of them with the comma in front of it. -/
def behindCommas (p : Parser α) : Parser (List α) :=
  repeatWhile (fun c => !c.rest.isEmpty) do
    step
    untilBefore [','] p

/-- The segments between commas are the first one and those behind commas. -/
theorem commaSeparated_eq (p : Parser α) :
    commaSeparated p = untilBefore [','] p >>= fun a => List.cons a <$> behindCommas p := by
  simp only [commaSeparated, behindCommas, map_eq_pure_bind]

/-- At the end, no segments are left. -/
theorem behindCommas_nil (p : Parser α) (stop : Position) :
    behindCommas p ⟨[], stop⟩ = .ok [] ⟨[], stop⟩ := by
  rw [behindCommas, repeatWhile_eq]
  rfl

/-- Behind a comma, segments are separated by commas again. -/
theorem behindCommas_cons (p : Parser α) (comma : Component) (rest : List Component)
    (stop : Position) : behindCommas p ⟨comma :: rest, stop⟩ = commaSeparated p ⟨rest, stop⟩ := by
  have hstep : (do step; untilBefore [','] p : Parser α) ⟨comma :: rest, stop⟩ =
      untilBefore [','] p ⟨rest, stop⟩ := rfl
  rw [behindCommas, repeatWhile_eq, commaSeparated_eq]
  simp only [List.isEmpty_cons, Bool.not_false, if_true, hstep]
  cases hfirst : untilBefore [','] p ⟨rest, stop⟩ with
  | error e after => rw [bind_of_error hfirst]
  | ok a after =>
      have hshort : after.rest.length < (comma :: rest).length :=
        Nat.lt_succ_of_le (advances_untilBefore [','] p hfirst).suffix.length_le
      rw [bind_of_ok hfirst, behindCommas]
      simp only [hshort, if_true]

section

variable {front rest : List Component} {comma : Component} {a : α} {e : ParseError} {last : Cursor}

/-- A list without a comma is its one part. -/
theorem commaSeparated_of_forall (hfront : ∀ component ∈ front, component.isComma = false)
    {stop : Position} (h : entirely p ⟨front, stop⟩ = .ok a last) :
    commaSeparated p ⟨front, stop⟩ = .ok [a] ⟨[], stop⟩ := by
  have hback : ∀ component ∈ ([] : List Component).head?, component.isComma = true := nofun
  have hfirst := untilBefore_append stop hfront hback h
  rw [List.append_nil] at hfirst
  rw [commaSeparated_eq, bind_of_ok hfirst, map_eq_ok_iff]
  exact ⟨[], behindCommas_nil p stop, rfl⟩

/-- A list without a comma fails where its one part does. -/
theorem commaSeparated_of_forall_of_error
    (hfront : ∀ component ∈ front, component.isComma = false) {stop : Position}
    (h : entirely p ⟨front, stop⟩ = .error e last) :
    commaSeparated p ⟨front, stop⟩ = .error e ⟨front, stop⟩ := by
  have hback : ∀ component ∈ ([] : List Component).head?, component.isComma = true := nofun
  have hfirst := untilBefore_append_of_error stop hfront hback h
  rw [List.append_nil] at hfirst
  rw [commaSeparated_eq, bind_of_error hfirst]

/-- Behind a first part that is read, a list is what stands behind the comma. -/
theorem commaSeparated_append (hfront : ∀ component ∈ front, component.isComma = false)
    (hcomma : comma.isComma = true) (h : entirely p ⟨front, comma.start⟩ = .ok a last)
    (stop : Position) :
    commaSeparated p ⟨front ++ comma :: rest, stop⟩ =
      (List.cons a <$> commaSeparated p) ⟨rest, stop⟩ := by
  have hback : ∀ component ∈ (comma :: rest).head?, component.isComma = true := by
    rintro _ ⟨⟩
    exact hcomma
  rw [commaSeparated_eq, bind_of_ok (untilBefore_append stop hfront hback h), ← commaSeparated_eq]
  show EStateM.map _ _ _ = EStateM.map _ _ _
  rw [EStateM.map, EStateM.map, behindCommas_cons]

/-- A first part that is not read is where a list fails. -/
theorem commaSeparated_append_of_error
    (hfront : ∀ component ∈ front, component.isComma = false) (hcomma : comma.isComma = true)
    (h : entirely p ⟨front, comma.start⟩ = .error e last) (stop : Position) :
    commaSeparated p ⟨front ++ comma :: rest, stop⟩ = .error e ⟨front ++ comma :: rest, stop⟩ := by
  have hback : ∀ component ∈ (comma :: rest).head?, component.isComma = true := by
    rintro _ ⟨⟩
    exact hcomma
  rw [commaSeparated_eq, bind_of_error (untilBefore_append_of_error stop hfront hback h)]

end

/-- A list is read as the values of its parts, in order. -/
theorem commaSeparated_eq_ok_iff {values : List α} {after : Cursor} :
    commaSeparated p c = .ok values after ↔
      List.Forall₂ (ReadsAs p) c.parts values ∧ after = ⟨[], c.stop⟩ := by
  obtain ⟨row, stop⟩ := c
  induction row using Component.segments_induction Component.isComma generalizing values with
  | last front hfront =>
      rw [Cursor.parts_of_forall hfront, List.forall₂_cons_left_iff]
      simp only [List.forall₂_nil_left_iff, ← exists_entirely_eq_ok_iff]
      cases hp : entirely p ⟨front, stop⟩ with
      | error e last => simp [commaSeparated_of_forall_of_error hfront hp]
      | ok a last => simp [commaSeparated_of_forall hfront hp, eq_comm]
  | more front comma rest hfront hcomma ih =>
      rw [Cursor.parts_append hfront hcomma, List.forall₂_cons_left_iff]
      simp only [← exists_entirely_eq_ok_iff]
      cases hp : entirely p ⟨front, comma.start⟩ with
      | error e last => simp [commaSeparated_append_of_error hfront hcomma hp]
      | ok a last =>
          rw [commaSeparated_append hfront hcomma hp, map_eq_ok_iff]
          simp only [ih]
          constructor
          · rintro ⟨others, ⟨hothers, rfl⟩, rfl⟩
            exact ⟨⟨a, others, ⟨last, rfl⟩, hothers, rfl⟩, rfl⟩
          · rintro ⟨⟨_, others, ⟨_, ⟨⟩⟩, hothers, rfl⟩, rfl⟩
            exact ⟨others, ⟨hothers, rfl⟩, rfl⟩

/-- A list fails as its first part that is not read does. -/
theorem exists_commaSeparated_eq_error_iff {e : ParseError} :
    (∃ after, commaSeparated p c = .error e after) ↔ FirstFailsWith p c.parts e := by
  obtain ⟨row, stop⟩ := c
  induction row using Component.segments_induction Component.isComma with
  | last front hfront =>
      rw [Cursor.parts_of_forall hfront, firstFailsWith_cons_iff, or_iff_left (by simp),
        ← exists_entirely_eq_error_iff]
      cases hp : entirely p ⟨front, stop⟩ with
      | error e' last => simp [commaSeparated_of_forall_of_error hfront hp]
      | ok a last => simp [commaSeparated_of_forall hfront hp]
  | more front comma rest hfront hcomma ih =>
      rw [Cursor.parts_append hfront hcomma, firstFailsWith_cons_iff, ← ih,
        ← exists_entirely_eq_error_iff]
      simp only [← exists_entirely_eq_ok_iff]
      cases hp : entirely p ⟨front, comma.start⟩ with
      | error e' last => simp [commaSeparated_append_of_error hfront hcomma hp]
      | ok a last => simp [commaSeparated_append hfront hcomma hp, map_eq_error_iff]

/-- A parser of segments between commas reads what the parser reads on each part, in order, and
nothing is left. It fails if the parser fails on a part or leaves something over, with the error of
the first such part. The parts are what stands between the commas. -/
theorem commaSeparated_reads_parts (p : Parser α) (c : Cursor) :
    c.parts.map Cursor.rest = c.rest.splitOnP Component.isComma ∧
      c.parts.length = c.rest.countP Component.isComma + 1 ∧
      (∀ values after, commaSeparated p c = .ok values after ↔
        List.Forall₂ (ReadsAs p) c.parts values ∧ after = ⟨[], c.stop⟩) ∧
      (∀ e, (∃ after, commaSeparated p c = .error e after) ↔ FirstFailsWith p c.parts e) ∧
      ((∃ e after, commaSeparated p c = .error e after) ↔
        ∃ part ∈ c.parts, ∃ e, FailsWith p part e) := by
  refine ⟨?_, ?_, fun _ _ => commaSeparated_eq_ok_iff,
    fun _ => exists_commaSeparated_eq_error_iff, ?_⟩
  · rw [← Component.contents_segments, Cursor.parts, List.map_map]
    rfl
  · rw [Cursor.parts, List.length_map, Component.length_segments]
  · simp only [exists_commaSeparated_eq_error_iff, exists_firstFailsWith_iff]

end Parser

end Css
