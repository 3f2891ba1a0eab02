import Css.Proofs.Parser.Outcome

/-!
# What parsers succeed on

Fillers stand anywhere, so what a parser of a few components succeeds on is said of the components
that are significant. Each result is an equivalence, and says what the parser leaves as well.
-/

namespace Css

open Css.Parser

namespace Component

/-- The components that are neither white space nor comments. -/
def significant (components : List Component) : List Component :=
  components.filter (!·.isFiller)

/-- Nothing is significant in fillers. -/
theorem significant_eq_nil_iff_forall {components : List Component} :
    significant components = [] ↔ ∀ component ∈ components, component.isFiller = true := by
  simp [significant]

/-- Nothing stands behind the fillers if nothing is significant. -/
theorem significant_eq_nil_iff {components : List Component} :
    significant components = [] ↔ components.dropWhile isFiller = [] := by
  rw [significant_eq_nil_iff_forall, List.dropWhile_eq_nil_iff]

/-- The first significant component is the one behind the fillers. -/
theorem significant_eq_cons_iff {components others : List Component} {component : Component} :
    significant components = component :: others ↔
      ∃ rest, components.dropWhile isFiller = component :: rest ∧ significant rest = others := by
  induction components with
  | nil => simp [significant]
  | cons c rest ih =>
      cases hc : c.isFiller with
      | true => simpa [significant, hc] using ih
      | false =>
          simp only [significant, List.filter_cons, List.dropWhile_cons, hc]
          simp only [Bool.not_false, if_true, if_false, Bool.false_eq_true, List.cons.injEq]
          constructor
          · rintro ⟨rfl, rfl⟩
            exact ⟨rest, ⟨rfl, rfl⟩, rfl⟩
          · rintro ⟨_, ⟨rfl, rfl⟩, rfl⟩
            exact ⟨rfl, rfl⟩

/-- Comments are fillers. -/
theorem isFiller_of_isComment {component : Component} (h : component.isComment = true) :
    component.isFiller = true := by
  unfold isComment at h
  split at h
  · rfl
  · cases h

/-- The address that a component stands for. -/
def address? (component : Component) : Option String :=
  match component with
  | leaf ⟨.url address _, _, _⟩ => some address
  | leaf ⟨.string value _, _, _⟩ => some value
  | leaf _ => none
  | group _ contents _ =>
    if isUrlFunction component then
      match significant contents with
      | [value] => stringValue? value
      | _ => none
    else none

end Component

open Component (significant significant_eq_nil_iff significant_eq_cons_iff)

namespace Cursor

/-- What is read to get over skipped components is what is skipped. -/
theorem read_skip (c : Cursor) (skipped : Component → Bool) :
    c.read (c.skip skipped) = c.rest.takeWhile skipped := by
  have happend := (c.leads_skip skipped).read_append
  have hsplit := List.takeWhile_append_dropWhile (p := skipped) (l := c.rest)
  exact List.append_cancel_right (happend.trans hsplit.symm)

/-- Skipping stops in front of the first component that is not skipped. -/
theorem skip_append {front back : List Component} {stop : Position} {skipped : Component → Bool}
    (hfront : ∀ component ∈ front, skipped component = true)
    (hback : ∀ component ∈ back.head?, skipped component = false) :
    Cursor.skip skipped ⟨front ++ back, stop⟩ = ⟨back, stop⟩ := by
  rw [skip, List.dropWhile_append_of_pos hfront]
  cases back with
  | nil => rfl
  | cons first rest => rw [List.dropWhile_cons_of_neg (by simp [hback first rfl])]

/-- A cursor in front of a delimiter stands at the delimiter. -/
theorem isDelimiter_head?_skip {delimiters : List Char} (c : Cursor) :
    ∀ component ∈ (c.skip fun component => !isDelimiter delimiters component).rest.head?,
      isDelimiter delimiters component = true := by
  intro component hmem
  have hhead := List.head?_dropWhile_not (fun component => !isDelimiter delimiters component) c.rest
  rw [skip, Option.mem_def] at hmem
  simpa [hmem] using hhead

end Cursor

namespace Parser

variable {α β : Type}

/-- A delimiter is no filler. -/
theorem isFiller_of_isDelimiter {delimiters : List Char} {component : Component}
    (h : isDelimiter delimiters component = true) : component.isFiller = false := by
  cases component with
  | group opening contents closing => rfl
  | leaf t =>
      obtain ⟨kind, text, start⟩ := t
      cases kind <;> first | rfl | cases h

/-- A delimiter is no identifier. -/
theorem identName?_of_isDelimiter {delimiters : List Char} {component : Component}
    (h : isDelimiter delimiters component = true) : identName? component = none := by
  unfold identName?
  split
  · cases h
  · rfl

/-- A parser that expects a component and nothing else finds one significant component. -/
theorem entirely_expect_eq_ok_iff {value? : Component → Option α} {c after : Cursor} {a : α} :
    entirely (expect value?) c = .ok a after ↔
      ∃ component, significant c.rest = [component] ∧ value? component = some a ∧
        after = ⟨[], c.stop⟩ := by
  rw [entirely_eq_ok_iff]
  constructor
  · rintro ⟨mid, hexpect, hend, rfl⟩
    obtain ⟨component, rest, hrest, hvalue, rfl⟩ := expect_eq_ok_iff.mp hexpect
    have hnone := significant_eq_nil_iff.mpr ((Cursor.isExhausted_iff _).mp hend)
    exact ⟨component, significant_eq_cons_iff.mpr ⟨rest, hrest, hnone⟩, hvalue, rfl⟩
  · rintro ⟨component, hcomponent, hvalue, rfl⟩
    obtain ⟨rest, hrest, hnone⟩ := significant_eq_cons_iff.mp hcomponent
    refine ⟨⟨rest, c.stop⟩, expect_eq_ok_iff.mpr ⟨component, rest, hrest, hvalue, rfl⟩, ?_, rfl⟩
    exact (Cursor.isExhausted_iff _).mpr (significant_eq_nil_iff.mp hnone)

/-- What stands for an address is no identifier. -/
theorem identName?_of_address? {component : Component} {address : String}
    (h : component.address? = some address) : identName? component = none := by
  unfold identName?
  split
  · cases h
  · rfl

/-- A sequence goes on with the result of its first part. -/
theorem bind_of_ok {p : Parser α} {f : α → Parser β} {c mid : Cursor} {a : α}
    (h : p c = .ok a mid) : (p >>= f) c = f a mid := by
  show EStateM.bind p f c = _
  simp only [EStateM.bind, h]

/-- A sequence fails where its first part does. -/
theorem bind_of_error {p : Parser α} {f : α → Parser β} {c after : Cursor} {e : ParseError}
    (h : p c = .error e after) : (p >>= f) c = .error e after := by
  show EStateM.bind p f c = _
  simp only [EStateM.bind, h]

section

variable {ε σ : Type} {p : EStateM ε σ α} {f : α → β} {c after : σ}

/-- A function of the result succeeds where the run does. -/
theorem map_eq_ok_iff {b : β} : (f <$> p) c = .ok b after ↔ ∃ a, p c = .ok a after ∧ b = f a := by
  show EStateM.map f p c = _ ↔ _
  unfold EStateM.map
  cases p c with
  | ok a mid => simp [eq_comm, and_comm]
  | error e mid => simp

/-- A function of the result fails where the run does. -/
theorem map_eq_error_iff {e : ε} : (f <$> p) c = .error e after ↔ p c = .error e after := by
  show EStateM.map f p c = _ ↔ _
  unfold EStateM.map
  cases p c <;> simp

end

/-- A function of what is read entirely is a function of the result. -/
theorem entirely_map_eq_ok_iff {p : Parser α} {f : α → β} {c after : Cursor} {b : β} :
    entirely (f <$> p) c = .ok b after ↔ ∃ a, entirely p c = .ok a after ∧ b = f a := by
  simp only [entirely_eq_ok_iff, map_eq_ok_iff]
  constructor
  · rintro ⟨mid, ⟨a, hrun, rfl⟩, hend⟩
    exact ⟨a, ⟨mid, hrun, hend⟩, rfl⟩
  · rintro ⟨a, ⟨mid, hrun, hend⟩, rfl⟩
    exact ⟨mid, ⟨a, hrun, rfl⟩, hend⟩

/-- Inside a group, a parser fails where it fails on the contents. -/
theorem inside_of_error {p : Parser α} {opening : Token} {contents : List Component}
    {closing : Option Token} {last : Cursor} {e : ParseError}
    (h : p ⟨contents, Component.contentsStop opening contents closing⟩ = .error e last)
    (c : Cursor) : inside (.group opening contents closing) p c = .error e c := by
  simp only [inside, within, entirely, bind_of_error h]

section

variable {p : Parser α} {delimiters : List Char} {front back : List Component} {last : Cursor}

/-- In front of a delimiter, a parser is confined to the components in front of it. -/
theorem untilBefore_append_eq (p : Parser α) (stop : Position)
    (hfront : ∀ component ∈ front, isDelimiter delimiters component = false)
    (hback : ∀ component ∈ back.head?, isDelimiter delimiters component = true) :
    untilBefore delimiters p ⟨front ++ back, stop⟩ =
      match entirely p ⟨front, (Cursor.mk back stop).location⟩ with
      | .ok a _ => .ok a ⟨back, stop⟩
      | .error e _ => .error e ⟨front ++ back, stop⟩ := by
  have hskip : Cursor.skip (fun component => !isDelimiter delimiters component)
      ⟨front ++ back, stop⟩ = ⟨back, stop⟩ :=
    Cursor.skip_append (by simpa using hfront) (by simpa using hback)
  have hread : Cursor.read ⟨front ++ back, stop⟩ ⟨back, stop⟩ = front := by
    simp [Cursor.read]
  simp only [untilBefore, hskip, hread, within]
  cases entirely p ⟨front, (Cursor.mk back stop).location⟩ <;> rfl

/-- In front of a delimiter, a parser reads the components in front of it. -/
theorem untilBefore_append {a : α} (stop : Position)
    (hfront : ∀ component ∈ front, isDelimiter delimiters component = false)
    (hback : ∀ component ∈ back.head?, isDelimiter delimiters component = true)
    (h : entirely p ⟨front, (Cursor.mk back stop).location⟩ = .ok a last) :
    untilBefore delimiters p ⟨front ++ back, stop⟩ = .ok a ⟨back, stop⟩ := by
  rw [untilBefore_append_eq p stop hfront hback, h]

/-- In front of a delimiter, a parser fails where it fails on the components in front of it. -/
theorem untilBefore_append_of_error {e : ParseError} (stop : Position)
    (hfront : ∀ component ∈ front, isDelimiter delimiters component = false)
    (hback : ∀ component ∈ back.head?, isDelimiter delimiters component = true)
    (h : entirely p ⟨front, (Cursor.mk back stop).location⟩ = .error e last) :
    untilBefore delimiters p ⟨front ++ back, stop⟩ = .error e ⟨front ++ back, stop⟩ := by
  rw [untilBefore_append_eq p stop hfront hback, h]

end

/-- The next component is the first one that is no filler. -/
theorem next_eq_ok_iff {c after : Cursor} {component : Component} :
    next c = .ok component after ↔ ∃ rest,
      c.rest.dropWhile Component.isFiller = component :: rest ∧ after = ⟨rest, c.stop⟩ := by
  rw [next, nextAfter_eq]
  cases c.rest.dropWhile Component.isFiller with
  | nil => simp
  | cons first rest => simp [and_assoc, eq_comm]

/-- An attempt finds what the parser reads, or stays where it was. -/
theorem attempt_eq_ok_iff {p : Parser α} {c after : Cursor} {found : Option α} :
    attempt p c = .ok found after ↔
      (∃ a, found = some a ∧ p c = .ok a after) ∨
        found = none ∧ after = c ∧ ∃ e mid, p c = .error e mid := by
  unfold attempt
  cases p c with
  | ok a mid => simp [eq_comm]
  | error e mid => simp [eq_comm]

/-- The contents of a group are the address if its function is the address function. -/
theorem address?_group_eq_some_iff {opening : Token} {contents : List Component}
    {closing : Option Token} {address : String} :
    (Component.group opening contents closing).address? = some address ↔
      isUrlFunction (.group opening contents closing) = true ∧
        ∃ value, significant contents = [value] ∧ stringValue? value = some address := by
  rw [Component.address?]
  split
  · rename_i hurl
    simp only [hurl, true_and]
    cases significant contents with
    | nil => simp
    | cons value others =>
        cases others <;> simp
  · rename_i hurl
    simp [hurl]

/-- What stands for an address is read as the address. -/
theorem urlOrString_eq_ok_iff {c after : Cursor} {address : String} :
    urlOrString c = .ok address after ↔ ∃ component rest,
      c.rest.dropWhile Component.isFiller = component :: rest ∧
        component.address? = some address ∧ after = ⟨rest, c.stop⟩ := by
  refine Iff.trans bind_eq_ok ?_
  simp only [next, nextAfter_eq]
  cases hrest : c.rest.dropWhile Component.isFiller with
  | nil => simp
  | cons component rest =>
      simp only [EStateM.Result.ok.injEq, List.cons.injEq, and_assoc, exists_and_left,
        exists_eq_left']
      cases component with
      | leaf t =>
          obtain ⟨kind, text, start⟩ := t
          cases kind <;> simp [Component.address?, isUrlFunction, unexpected, fault, pure,
            EStateM.pure, throw, throwThe, MonadExceptOf.throw, EStateM.throw, eq_comm]
      | group opening contents closing =>
          rw [address?_group_eq_some_iff]
          dsimp only
          split
          · rename_i hurl
            simp only [hurl, inside_eq_ok_iff, string, entirely_expect_eq_ok_iff, true_and]
            constructor
            · rintro ⟨rfl, _, _, _, _, ⟨⟩, value, hvalue, haddress, _⟩
              exact ⟨⟨value, hvalue, haddress⟩, rfl⟩
            · rintro ⟨⟨value, hvalue, haddress⟩, rfl⟩
              exact ⟨rfl, _, _, _, _, rfl, value, hvalue, haddress, rfl⟩
          · rename_i hurl
            simp [hurl, unexpected, fault, throw, throwThe, MonadExceptOf.throw, EStateM.throw]

end Parser

end Css
