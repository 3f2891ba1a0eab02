import Css.Proofs.Parser.ErrorTokens

/-!
# Repeated parsers, and what is read without error tokens

A parser that stays where it is answers the same wherever that is, so behind the next component it
is nothing but an expectation, `next_bind_eq_ok_iff`. A repeated parser reads what is spelled in a
row, `ReadsExactly.many`. A parser that `ReadsClean` reads nothing in which an error token stands,
at any depth.
-/

namespace Css

open Component (significant significant_append errorTokenOf?_eq_none_iff
  errorTokenOf?_append_eq_none_iff errorTokenOf?_of_significant)

namespace Parser

variable {α β : Type} {p : Parser α} {spelled : α → List Component → Prop}

/-- The parser that gives an answer and stays where it is. -/
def answer (result : Except ParseError α) : Parser α := fun c =>
  match result with
  | .ok a => .ok a c
  | .error e => .error e c

/-- The parser stays where it is, and answers the same everywhere. -/
def Stays (p : Parser α) : Prop := ∃ result, p = answer result

/-- A result without reading stays. -/
theorem stays_pure (a : α) : Stays (pure a : Parser α) := ⟨.ok a, rfl⟩

/-- A refusal stays. -/
theorem stays_unexpected (component : Component) : Stays (unexpected component : Parser α) :=
  ⟨.error _, rfl⟩

/-- Parts that stay stay in sequence. -/
theorem Stays.bind {f : α → Parser β} (hp : Stays p) (hf : ∀ a, Stays (f a)) :
    Stays (p >>= f) := by
  obtain ⟨result, rfl⟩ := hp
  cases result with
  | ok a =>
      obtain ⟨other, ha⟩ := hf a
      exact ⟨other, ha⟩
  | error e => exact ⟨.error e, rfl⟩

/-- An attempt at what stays stays. -/
theorem Stays.attempt (hp : Stays p) : Stays (attempt p) := by
  obtain ⟨result, rfl⟩ := hp
  cases result with
  | ok a => exact ⟨.ok (some a), rfl⟩
  | error e => exact ⟨.ok none, rfl⟩

/-- Inside a component, a parser leaves the cursor alone. -/
theorem stays_inside (component : Component) (p : Parser α) : Stays (inside component p) := by
  cases component with
  | leaf t => exact stays_unexpected _
  | group opening contents closing =>
      have hinside : inside (.group opening contents closing) p =
          within contents (Component.contentsStop opening contents closing) p := rfl
      rw [hinside]
      unfold within
      cases entirely p ⟨contents, Component.contentsStop opening contents closing⟩ with
      | ok a last => exact ⟨.ok a, rfl⟩
      | error e last => exact ⟨.error e, rfl⟩

/-- What stays leads to where it is. -/
theorem Stays.advances (h : Stays p) : Advances p := by
  obtain ⟨result, rfl⟩ := h
  intro c a after hrun
  cases result with
  | ok b =>
      cases hrun
      exact .refl c
  | error e => cases hrun

/-- The result of a parser that stays. -/
def result? (p : Parser α) : Option α :=
  match p default with
  | .ok a _ => some a
  | .error _ _ => none

/-- A parser that stays succeeds wherever it has a result. -/
theorem Stays.eq_ok_iff (h : Stays p) {c after : Cursor} {a : α} :
    p c = .ok a after ↔ result? p = some a ∧ after = c := by
  obtain ⟨result, rfl⟩ := h
  cases result <;> simp [answer, result?, eq_comm]

/-- A sequence of parsers that stay has the result of the second one for that of the first one. -/
theorem Stays.result?_bind (h : Stays p) (f : α → Parser β) :
    result? (p >>= f) = (result? p).bind fun a => result? (f a) := by
  obtain ⟨result, rfl⟩ := h
  cases result <;> rfl

/-- The result of an attempt at what stays is whether there is one. -/
theorem Stays.result?_attempt (h : Stays p) : result? (Parser.attempt p) = some (result? p) := by
  obtain ⟨result, rfl⟩ := h
  cases result <;> rfl

/-- What is done with the next component without moving is an expectation. -/
theorem next_bind_eq_ok_iff {f : Component → Parser α} (hf : ∀ component, Stays (f component))
    {c after : Cursor} {a : α} :
    (next >>= f) c = .ok a after ↔
      expect (fun component => result? (f component)) c = .ok a after := by
  rw [expect_eq_ok_iff, bind_eq_ok]
  constructor
  · rintro ⟨component, mid, hnext, hrun⟩
    obtain ⟨rest, hrest, rfl⟩ := next_eq_ok_iff.mp hnext
    exact ⟨component, rest, hrest, (hf component).eq_ok_iff.mp hrun⟩
  · rintro ⟨component, rest, hrest, hrun⟩
    exact ⟨component, _, next_eq_ok_iff.mpr ⟨rest, hrest, rfl⟩, (hf component).eq_ok_iff.mpr hrun⟩

/-- The components are parts in a row, each of which spells its item. -/
inductive InARow (spelled : α → List Component → Prop) : List α → List Component → Prop where
  | nil {part : List Component} (hpart : significant part = []) : InARow spelled [] part
  | cons {a : α} {items : List α} {front back : List Component} (ha : spelled a front)
      (hitems : InARow spelled items back) : InARow spelled (a :: items) (front ++ back)

/-- Fillers may stand around what is spelled in a row. -/
theorem InARow.padded {stops : List Component → Prop} (hp : ReadsExactly p spelled stops)
    {items : List α} {lead part trail : List Component} (h : InARow spelled items part)
    (hlead : significant lead = []) (htrail : significant trail = []) :
    InARow spelled items (lead ++ part ++ trail) := by
  induction h generalizing lead with
  | nil hpart => exact .nil (by simp [hlead, hpart, htrail])
  | @cons a items front back ha _ ih =>
      have hback : InARow spelled items ([] ++ back ++ trail) := ih rfl
      have hrow := InARow.cons (hp.led ha hlead) hback
      rwa [List.append_assoc, ← List.append_assoc front, ← List.append_assoc lead,
        List.append_assoc, ← List.append_assoc] at hrow

/-- A repeated parser that reads something each time stops at the end, or goes on behind an item. -/
theorem many_eq_ok_iff (hp : Consumes p) {c after : Cursor} {items : List α} :
    many p c = .ok items after ↔
      (c.isExhausted = true ∧ items = [] ∧ after = c) ∨
        (c.isExhausted = false ∧ ∃ a others mid,
          p c = .ok a mid ∧ many p mid = .ok others after ∧ items = a :: others) := by
  unfold many
  rw [repeatWhile_eq]
  cases c.isExhausted with
  | true => simp [eq_comm]
  | false =>
      cases hrun : p c with
      | error e mid => simp
      | ok a mid => simp [(hp hrun).2, map_eq_ok_iff]

/-- A repeated parser that needs something to read reads what is spelled in a row. -/
theorem ReadsExactly.many (hp : ReadsExactly p spelled Anything)
    (hsome : ∀ {a part}, spelled a part → significant part ≠ []) :
    ReadsExactly (many p) (InARow spelled) AtEnd := by
  have hconsumes : Consumes p := by
    intro c a after h
    obtain ⟨part, hpart, hstop, ha⟩ := hp.split h
    refine ⟨⟨⟨part, hpart.symm⟩, hstop⟩, ?_⟩
    have hpos : 0 < part.length := by
      refine List.length_pos_iff.mpr ?_
      rintro rfl
      exact hsome ha rfl
    rw [hpart, List.length_append]
    omega
  refine ⟨?_, ?_, fun h hlead htrail => h.padded hp hlead htrail⟩
  · intro c after items h
    induction items generalizing c with
    | nil =>
        rcases (many_eq_ok_iff hconsumes).mp h with ⟨-, -, rfl⟩ | ⟨-, a, others, mid, -, -, heq⟩
        · exact ⟨[], rfl, rfl, .nil rfl⟩
        · cases heq
    | cons a items ih =>
        rcases (many_eq_ok_iff hconsumes).mp h with ⟨-, heq, -⟩ |
          ⟨-, a, others, mid, ha, hmany, heq⟩
        · cases heq
        · cases heq
          obtain ⟨front, hfront, hstop, hspelled⟩ := hp.split ha
          obtain ⟨back, hback, hstop', hrow⟩ := ih hmany
          refine ⟨front ++ back, ?_, hstop'.trans hstop, .cons hspelled hrow⟩
          rw [hfront, hback, List.append_assoc]
  · intro items part rest h hrest stop
    induction items generalizing part with
    | nil =>
        cases h with
        | nil hpart =>
            refine ⟨part, hpart, (many_eq_ok_iff hconsumes).mpr (.inl ⟨?_, rfl, rfl⟩)⟩
            rw [Cursor.isExhausted_iff_significant, significant_append, hpart]
            exact hrest
    | cons a items ih =>
        cases h with
        | @cons _ _ front back ha hitems =>
            -- the fillers that one item leaves stand in front of the next one
            obtain ⟨gap, hgap, hread⟩ := hp.reads ha trivial stop
            have hrow : InARow spelled items (gap ++ back ++ []) := hitems.padded hp hgap rfl
            rw [List.append_nil] at hrow
            obtain ⟨gap', hgap', hmany⟩ := ih hrow
            refine ⟨gap', hgap',
              (many_eq_ok_iff hconsumes).mpr (.inr ⟨?_, a, items, _, ?_, hmany, rfl⟩)⟩
            · rw [List.append_assoc]
              exact Cursor.isExhausted_append (hsome ha) _ _
            · rw [List.append_assoc, List.append_assoc]
              exact hread

/-- Nothing that the parser reads holds an error token. -/
def ReadsClean (p : Parser α) : Prop :=
  ∀ ⦃c a after⦄, p c = .ok a after →
    ∃ part, c.rest = part ++ after.rest ∧ Component.errorTokenOf? part = none

/-- What is spelled without error tokens is read without any. -/
theorem ReadsExactly.clean {stops : List Component → Prop} (hp : ReadsExactly p spelled stops)
    (h : ∀ a part, spelled a part → Component.errorTokenOf? part = none) : ReadsClean p := by
  intro c a after hrun
  obtain ⟨part, hpart, -, ha⟩ := hp.split hrun
  exact ⟨part, hpart, h a part ha⟩

/-- Where nothing is read, no error token is. -/
theorem clean_pure (a : α) : ReadsClean (pure a : Parser α) := by
  intro c b after h
  cases h
  exact ⟨[], rfl, rfl⟩

/-- A look at the cursor reads nothing. -/
theorem clean_look (look : Cursor → α) : ReadsClean (do return look (← get) : Parser α) := by
  intro c b after h
  cases h
  exact ⟨[], rfl, rfl⟩

/-- A refusal reads nothing. -/
theorem clean_fault (f : Fault) (location : Position) :
    ReadsClean (fault f location : Parser α) := by
  intro c a after h
  cases h

/-- Without error tokens in the parts there are none in a sequence. -/
theorem ReadsClean.bind {f : α → Parser β} (hp : ReadsClean p) (hf : ∀ a, ReadsClean (f a)) :
    ReadsClean (p >>= f) := by
  intro c b after h
  obtain ⟨a, mid, hrun, hrest⟩ := bind_eq_ok.mp h
  obtain ⟨front, hfront, hclean⟩ := hp hrun
  obtain ⟨back, hback, hclean'⟩ := hf a hrest
  refine ⟨front ++ back, ?_, errorTokenOf?_append_eq_none_iff.mpr ⟨hclean, hclean'⟩⟩
  rw [hfront, hback, List.append_assoc]

/-- An attempt reads nothing, or what the parser does. -/
theorem ReadsClean.attempt (hp : ReadsClean p) : ReadsClean (attempt p) := by
  intro c found after h
  rcases attempt_eq_ok_iff.mp h with ⟨a, -, hrun⟩ | ⟨-, rfl, -⟩
  · exact hp hrun
  · exact ⟨[], rfl, rfl⟩

/-- A component that is expected is no error token if none has a value. -/
theorem clean_expect {value? : Component → Option α}
    (h : ∀ component a, value? component = some a → component.errorToken? = none) :
    ReadsClean (expect value?) := by
  refine (readsExactly_expect value?).clean ?_
  rintro a part ⟨component, hpart, hvalue⟩
  rw [errorTokenOf?_eq_none_iff, hpart]
  intro other hmem
  obtain rfl := List.mem_singleton.mp hmem
  exact h _ a hvalue

/-- Fillers up to the end hold no error token. -/
theorem clean_atEnd : ReadsClean atEnd := by
  intro c a after h
  obtain ⟨hend, rfl⟩ := atEnd_eq_ok_iff.mp h
  exact ⟨c.rest, (List.append_nil _).symm,
    errorTokenOf?_of_significant (c.isExhausted_iff_significant.mp hend)⟩

/-- A parser after which nothing is left reads as clean as before. -/
theorem ReadsClean.entirely (hp : ReadsClean p) : ReadsClean (entirely p) :=
  hp.bind fun _ => clean_atEnd.bind fun _ => clean_pure _

/-- What is read entirely holds no error token. -/
theorem ReadsClean.errorTokenOf?_of_entirely (hp : ReadsClean p) {components : List Component}
    {stop : Position} {last : Cursor} {a : α}
    (h : Parser.entirely p ⟨components, stop⟩ = .ok a last) :
    Component.errorTokenOf? components = none := by
  obtain ⟨part, hpart, hclean⟩ := hp.entirely h
  obtain ⟨mid, -, -, rfl⟩ := entirely_eq_ok_iff.mp h
  rw [List.append_nil] at hpart
  obtain rfl : components = part := hpart
  exact hclean

/-- A component holds no error token if nothing does that is read inside it. -/
theorem ReadsClean.errorToken?_of_inside (hp : ReadsClean p) {component : Component}
    {c after : Cursor} {a : α} (h : inside component p c = .ok a after) :
    component.errorToken? = none := by
  obtain ⟨-, opening, contents, closing, last, rfl, hread⟩ := inside_eq_ok_iff.mp h
  exact hp.errorTokenOf?_of_entirely hread

/-- In front of a delimiter, a parser reads as clean as anywhere. -/
theorem ReadsClean.untilBefore (hp : ReadsClean p) (delimiters : List Char) :
    ReadsClean (untilBefore delimiters p) := by
  intro c a after h
  obtain ⟨hafter, last, hread⟩ := untilBefore_eq_ok.mp h
  have hleads : c.Leads after := hafter ▸ c.leads_skip _
  exact ⟨c.read after, hleads.read_append.symm, hp.errorTokenOf?_of_entirely hread⟩

/-- What is not an error is passed without moving. -/
theorem stays_passes (component : Component) : Stays (passes component) := by
  unfold passes
  cases component.errorToken? with
  | some token => exact ⟨.error _, rfl⟩
  | none => exact stays_pure ()

/-- A component is passed if it holds no error token. -/
theorem result?_passes {component : Component} :
    result? (passes component) = some () ↔ component.errorToken? = none := by
  unfold passes
  cases component.errorToken? with
  | some token => exact ⟨nofun, nofun⟩
  | none => exact ⟨fun _ => rfl, fun _ => rfl⟩

/-- What is captured is read as clean as otherwise. -/
theorem ReadsClean.captured {p : Parser Unit} (hp : ReadsClean p) : ReadsClean (captured p) :=
  (clean_look id).bind fun _ => hp.bind fun _ => clean_look _

/-- A word is no error token. -/
theorem clean_identMatching (word : String) : ReadsClean (identMatching word) := by
  refine clean_expect fun component a h => ?_
  split at h
  · rename_i hword
    obtain ⟨name, hname, -⟩ := Option.map_eq_some_iff.mp hword
    exact Component.errorToken?_of_identName? hname
  · cases h

/-- A word of a vocabulary is no error token. -/
theorem clean_member [Vocabulary α] : ReadsClean (member α) := by
  refine clean_expect fun component a h => ?_
  obtain ⟨word, hword, -⟩ := Option.bind_eq_some_iff.mp h
  obtain ⟨name, hname, -⟩ := Option.map_eq_some_iff.mp hword
  exact Component.errorToken?_of_identName? hname

/-- What holds no error token is read without a complaint, and nothing else is. -/
theorem readsExactly_noErrorToken :
    ReadsExactly noErrorToken (fun _ part => Component.errorTokenOf? part = none) AtEnd := by
  have hpasses : ReadsExactly (next >>= passes)
      (Shows fun component => result? (passes component)) Anything :=
    (readsExactly_expect _).congr fun _ _ _ => next_bind_eq_ok_iff stays_passes
  have hmany := hpasses.many fun ⟨component, hpart, _⟩ hnil => by
    rw [hnil] at hpart
    cases hpart
  have hread : ReadsExactly noErrorToken _ AtEnd := (hmany.map fun _ => ()).congr fun c _ _ => by
    rw [noErrorToken_eq_passes]
  refine hread.of_iff fun _ part => ⟨?_, fun h => ?_⟩
  · rintro ⟨items, -, hrow⟩
    induction hrow with
    | nil hpart => exact errorTokenOf?_of_significant hpart
    | cons hpart _ ih =>
        obtain ⟨component, hpart, hvalue⟩ := hpart
        refine errorTokenOf?_append_eq_none_iff.mpr ⟨?_, ih⟩
        rw [errorTokenOf?_eq_none_iff, hpart]
        intro other hmem
        obtain rfl := List.mem_singleton.mp hmem
        exact result?_passes.mp hvalue
  · suffices hitems : ∃ items, InARow (Shows fun component => result? (passes component)) items part
      from hitems.imp fun _ hrow => ⟨rfl, hrow⟩
    induction part with
    | nil => exact ⟨[], .nil rfl⟩
    | cons component rest ih =>
        rw [Component.errorTokenOf?, Option.or_eq_none_iff] at h
        obtain ⟨items, hrow⟩ := ih h.2
        cases hfiller : component.isFiller with
        | true =>
            have hlead : significant [component] = [] := by simp [significant, hfiller]
            have hpadded : InARow _ items ([component] ++ rest ++ []) :=
              hrow.padded hpasses hlead rfl
            rw [List.append_nil] at hpadded
            exact ⟨items, hpadded⟩
        | false =>
            have hpart : significant [component] = [component] :=
              Component.significant_cons hfiller []
            exact ⟨() :: items, .cons ⟨component, hpart, result?_passes.mpr h.1⟩ hrow⟩

end Parser

end Css
