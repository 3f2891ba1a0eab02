import Css.Proofs.Parser.Significant

/-!
# Parsers that read exactly what spells their results

`ReadsExactly p spelled stops` says that what `p` reads spells its result, and that `p` reads
whatever spells a result in front of what `stops` it. Fillers may stand around what is spelled. Such
a parser reads components entirely if and only if they spell a result,
`ReadsExactly.entirely_eq_ok_iff`, and parsers in a row read what is spelled in a row,
`ReadsExactly.bind`.
-/

namespace Css

open Component (significant significant_eq_nil_iff significant_eq_cons_iff)

namespace Component

/-- Two rows of components have their significant components in a row. -/
@[simp] theorem significant_append (a b : List Component) :
    significant (a ++ b) = significant a ++ significant b :=
  List.filter_append ..

/-- A component that is no filler is significant. -/
theorem significant_cons {component : Component} (h : component.isFiller = false)
    (rest : List Component) : significant (component :: rest) = component :: significant rest := by
  simp [significant, h]

/-- Nothing is significant in what is skipped. -/
theorem significant_takeWhile (components : List Component) :
    significant (components.takeWhile isFiller) = [] :=
  significant_eq_nil_iff_forall.mpr fun _ hmem => List.mem_takeWhile_imp hmem

/-- The first component behind fillers is no filler. -/
theorem isFiller_of_dropWhile {components rest : List Component} {component : Component}
    (h : components.dropWhile isFiller = component :: rest) : component.isFiller = false := by
  have hhead := List.head?_dropWhile_not isFiller components
  rw [h] at hhead
  simpa using hhead

/-- Fillers in front do not matter behind fillers. -/
theorem dropWhile_append_of_significant {gap : List Component} (h : significant gap = [])
    (rest : List Component) : (gap ++ rest).dropWhile isFiller = rest.dropWhile isFiller := by
  rw [List.dropWhile_append, if_pos (by rw [significant_eq_nil_iff.mp h]; rfl)]

/-- A component that is no filler is the first one behind fillers. -/
theorem dropWhile_append_cons {gap : List Component} (h : significant gap = [])
    {component : Component} (hcomponent : component.isFiller = false) (rest : List Component) :
    (gap ++ component :: rest).dropWhile isFiller = component :: rest := by
  rw [dropWhile_append_of_significant h, List.dropWhile_cons_of_neg (by simp [hcomponent])]

/-- The first component that is no filler, and what stands behind it, are determined. -/
theorem append_cons_inj {gap gap' rest rest' : List Component} {component component' : Component}
    (h : gap ++ component :: rest = gap' ++ component' :: rest') (hgap : significant gap = [])
    (hgap' : significant gap' = []) (hcomponent : component.isFiller = false)
    (hcomponent' : component'.isFiller = false) : component = component' ∧ rest = rest' := by
  have hdrop := dropWhile_append_cons hgap hcomponent rest
  rw [h, dropWhile_append_cons hgap' hcomponent'] at hdrop
  cases hdrop
  exact ⟨rfl, rfl⟩

/-- A significant component in front of others is the first one behind fillers, and fillers stand
behind it. -/
theorem exists_of_significant_singleton {part : List Component} {component : Component}
    (h : significant part = [component]) (rest : List Component) :
    ∃ gap, significant gap = [] ∧
      (part ++ rest).dropWhile isFiller = component :: (gap ++ rest) := by
  obtain ⟨gap, hpart, hgap⟩ := significant_eq_cons_iff.mp h
  refine ⟨gap, hgap, ?_⟩
  rw [List.dropWhile_append, hpart]
  rfl

end Component

open Component (significant_append significant_takeWhile dropWhile_append_of_significant
  exists_of_significant_singleton isFiller_of_dropWhile significant_cons)

/-- Nothing but fillers is left if nothing significant is. -/
theorem Cursor.isExhausted_iff_significant (c : Cursor) :
    c.isExhausted = true ↔ significant c.rest = [] := by
  rw [isExhausted_iff, significant_eq_nil_iff]

/-- Something is left if something significant is. -/
theorem Cursor.isExhausted_append {part : List Component} (h : significant part ≠ [])
    (rest : List Component) (stop : Position) :
    (Cursor.mk (part ++ rest) stop).isExhausted = false := by
  by_contra hend
  rw [Bool.not_eq_false, isExhausted_iff_significant, significant_append] at hend
  exact h (List.append_eq_nil_iff.mp hend).1

namespace Parser

variable {α β : Type}

/-- What the parser reads spells its result, and what spells a result is read in front of what
stops it. Fillers may stand around what is spelled. -/
structure ReadsExactly (p : Parser α) (spelled : α → List Component → Prop)
    (stops : List Component → Prop) : Prop where
  split : ∀ {c after : Cursor} {a : α}, p c = .ok a after →
    ∃ part, c.rest = part ++ after.rest ∧ after.stop = c.stop ∧ spelled a part
  reads : ∀ {a part rest}, spelled a part → stops rest → ∀ stop,
    ∃ gap, significant gap = [] ∧ p ⟨part ++ rest, stop⟩ = .ok a ⟨gap ++ rest, stop⟩
  padded : ∀ {a lead part trail}, spelled a part → significant lead = [] →
    significant trail = [] → spelled a (lead ++ part ++ trail)

/-- Nothing but fillers follows. -/
def AtEnd (rest : List Component) : Prop := significant rest = []

/-- Anything may follow. -/
def Anything (_ : List Component) : Prop := True

/-- The next significant component has the property. -/
def NextIs (property : Component → Prop) (rest : List Component) : Prop :=
  ∀ component ∈ (significant rest).head?, property component

/-- No significant component is next at the end. -/
theorem AtEnd.nextIs {property : Component → Prop} {rest : List Component} (h : AtEnd rest) :
    NextIs property rest := by
  intro component hmem
  rw [h] at hmem
  cases hmem

/-- There is one component, and it has the given value. -/
def Single (value? : Component → Option α) (a : α) (components : List Component) : Prop :=
  ∃ component, components = [component] ∧ value? component = some a

/-- The components are fillers and one component with the given value. -/
def Shows (value? : Component → Option α) (a : α) (part : List Component) : Prop :=
  Single value? a (significant part)

/-- The first component has a value, and the others spell what goes on from it. -/
def Leading (value? : Component → Option α) (spelled : α → β → List Component → Prop) (b : β)
    (components : List Component) : Prop :=
  ∃ component rest a, components = component :: rest ∧ value? component = some a ∧
    spelled a b rest

variable {p q : Parser α} {spelled : α → List Component → Prop} {stops : List Component → Prop}

/-- Fillers may stand in front of what is spelled. -/
theorem ReadsExactly.led (h : ReadsExactly p spelled stops) {a : α} {lead part : List Component}
    (ha : spelled a part) (hlead : significant lead = []) : spelled a (lead ++ part) := by
  have hpadded : spelled a (lead ++ part ++ []) := h.padded ha hlead rfl
  rwa [List.append_nil] at hpadded

/-- Fillers may stand behind what is spelled. -/
theorem ReadsExactly.trailed (h : ReadsExactly p spelled stops) {a : α}
    {part trail : List Component} (ha : spelled a part) (htrail : significant trail = []) :
    spelled a (part ++ trail) := by
  have hpadded : spelled a ([] ++ part ++ trail) := h.padded ha rfl htrail
  rwa [List.nil_append] at hpadded

/-- A parser reads components entirely if and only if they spell a result. -/
theorem ReadsExactly.entirely_eq_ok_iff (h : ReadsExactly p spelled stops)
    (hstops : ∀ rest, AtEnd rest → stops rest) {c after : Cursor} {a : α} :
    entirely p c = .ok a after ↔ spelled a c.rest ∧ after = ⟨[], c.stop⟩ := by
  rw [Parser.entirely_eq_ok_iff]
  constructor
  · rintro ⟨mid, hp, hend, rfl⟩
    obtain ⟨part, hpart, hstop, ha⟩ := h.split hp
    have hspelled := h.trailed ha (mid.isExhausted_iff_significant.mp hend)
    rw [← hpart] at hspelled
    exact ⟨hspelled, by rw [hstop]⟩
  · rintro ⟨ha, rfl⟩
    obtain ⟨gap, hgap, hp⟩ := h.reads ha (hstops [] rfl) c.stop
    rw [List.append_nil, List.append_nil] at hp
    exact ⟨⟨gap, c.stop⟩, hp, (Cursor.isExhausted_iff_significant _).mpr hgap, rfl⟩

/-- Only the successes of a parser matter. -/
theorem ReadsExactly.congr (h : ReadsExactly q spelled stops)
    (heq : ∀ c a after, p c = .ok a after ↔ q c = .ok a after) :
    ReadsExactly p spelled stops where
  split hp := h.split ((heq _ _ _).mp hp)
  reads ha hrest stop := by
    obtain ⟨gap, hgap, hq⟩ := h.reads ha hrest stop
    exact ⟨gap, hgap, (heq _ _ _).mpr hq⟩
  padded := h.padded

/-- A parser that succeeds where one of several does reads what is spelled for any of them. -/
theorem ReadsExactly.union {ι : Type} {f : ι → Parser α}
    {spelled : ι → α → List Component → Prop} (h : ∀ i, ReadsExactly (f i) (spelled i) stops)
    (heq : ∀ c a after, p c = .ok a after ↔ ∃ i, f i c = .ok a after) :
    ReadsExactly p (fun a part => ∃ i, spelled i a part) stops where
  split hp := by
    obtain ⟨i, hi⟩ := (heq _ _ _).mp hp
    obtain ⟨part, hpart, hstop, ha⟩ := (h i).split hi
    exact ⟨part, hpart, hstop, i, ha⟩
  reads ha hrest stop := by
    obtain ⟨i, hi⟩ := ha
    obtain ⟨gap, hgap, hread⟩ := (h i).reads hi hrest stop
    exact ⟨gap, hgap, (heq _ _ _).mpr ⟨i, hread⟩⟩
  padded ha hlead htrail := by
    obtain ⟨i, hi⟩ := ha
    exact ⟨i, (h i).padded hi hlead htrail⟩

/-- What a parser says about the place where it starts does not matter. -/
theorem ReadsExactly.anywhere {f : Cursor → Parser α}
    (h : ∀ c, ReadsExactly (f c) spelled stops) : ReadsExactly (fun c => f c c) spelled stops where
  split hp := (h _).split hp
  reads ha hrest stop := (h _).reads ha hrest stop
  padded := (h default).padded

/-- Behind a check, what is spelled is read if the check is passed. -/
theorem ReadsExactly.unless (h : ReadsExactly p spelled stops) (bad : Prop) [Decidable bad]
    (f : Fault) (location : Position) :
    ReadsExactly
      (do
        if bad then fault f location
        p)
      (fun a part => ¬bad ∧ spelled a part) stops where
  split hp := by
    by_cases hbad : bad
    · rw [if_pos hbad] at hp
      cases hp
    · rw [if_neg hbad] at hp
      obtain ⟨part, hpart, hstop, ha⟩ := h.split hp
      exact ⟨part, hpart, hstop, hbad, ha⟩
  reads ha hrest stop := by
    rw [if_neg ha.1]
    exact h.reads ha.2 hrest stop
  padded ha hlead htrail := ⟨ha.1, h.padded ha.2 hlead htrail⟩

/-- What spells a result may be said in another way. -/
theorem ReadsExactly.of_iff (h : ReadsExactly p spelled stops)
    {spelled' : α → List Component → Prop} (hiff : ∀ a part, spelled a part ↔ spelled' a part) :
    ReadsExactly p spelled' stops where
  split hp := by
    obtain ⟨part, hpart, hstop, ha⟩ := h.split hp
    exact ⟨part, hpart, hstop, (hiff _ _).mp ha⟩
  reads ha hrest stop := h.reads ((hiff _ _).mpr ha) hrest stop
  padded ha hlead htrail := (hiff _ _).mp (h.padded ((hiff _ _).mpr ha) hlead htrail)

/-- What stops a parser may be restricted. -/
theorem ReadsExactly.of_stops (h : ReadsExactly p spelled stops)
    {stops' : List Component → Prop} (hstops : ∀ rest, stops' rest → stops rest) :
    ReadsExactly p spelled stops' where
  split := h.split
  reads ha hrest stop := h.reads ha (hstops _ hrest) stop
  padded := h.padded

/-- What spells a result is what is read entirely as the result. -/
theorem ReadsExactly.readEntirely (h : ReadsExactly p spelled stops)
    (hstops : ∀ rest, AtEnd rest → stops rest) :
    ReadsExactly p (fun a part => ∃ stop last, entirely p ⟨part, stop⟩ = .ok a last) stops := by
  refine h.of_iff fun a part => ⟨fun ha => ?_, ?_⟩
  · exact ⟨default, _, (h.entirely_eq_ok_iff hstops).mpr ⟨ha, rfl⟩⟩
  · rintro ⟨stop, last, hread⟩
    exact ((h.entirely_eq_ok_iff hstops).mp hread).1

/-- A parser that reads nothing reads fillers. -/
theorem readsExactly_pure (a : α) :
    ReadsExactly (pure a : Parser α) (fun b part => b = a ∧ significant part = []) Anything where
  split hp := by
    cases hp
    exact ⟨[], rfl, rfl, rfl, rfl⟩
  reads ha _ stop := by
    obtain ⟨rfl, hpart⟩ := ha
    exact ⟨_, hpart, rfl⟩
  padded ha hlead htrail := ⟨ha.1, by simp [hlead, htrail, ha.2]⟩

/-- A parser that expects a component reads one with a value. -/
theorem readsExactly_expect (value? : Component → Option α) :
    ReadsExactly (expect value?) (Shows value?) Anything where
  split {c after a} hp := by
    obtain ⟨component, rest, hrest, hvalue, rfl⟩ := expect_eq_ok_iff.mp hp
    refine ⟨c.rest.takeWhile Component.isFiller ++ [component], ?_, rfl, component, ?_, hvalue⟩
    · rw [List.append_assoc, List.singleton_append, ← hrest, List.takeWhile_append_dropWhile]
    · rw [significant_append, significant_takeWhile, List.nil_append]
      exact significant_cons (isFiller_of_dropWhile hrest) []
  reads ha _ stop := by
    obtain ⟨component, hpart, hvalue⟩ := ha
    obtain ⟨gap, hgap, hrest⟩ := exists_of_significant_singleton hpart _
    exact ⟨gap, hgap, expect_eq_ok_iff.mpr ⟨component, _, hrest, hvalue, rfl⟩⟩
  padded ha hlead htrail := by
    obtain ⟨component, hpart, hvalue⟩ := ha
    exact ⟨component, by simp [hlead, htrail, hpart], hvalue⟩

/-- Two parsers in a row read what is spelled in a row, if what the second one reads stops the
first one. -/
theorem ReadsExactly.bind {f : α → Parser β} {spelled' : α → β → List Component → Prop}
    {stops' : List Component → Prop} (hp : ReadsExactly p spelled stops)
    (hf : ∀ a, ReadsExactly (f a) (spelled' a) stops')
    (hnext : ∀ {a b part rest}, spelled' a b part → stops' rest → stops (part ++ rest)) :
    ReadsExactly (p >>= f)
      (fun b part => ∃ a front back, part = front ++ back ∧ spelled a front ∧ spelled' a b back)
      stops' where
  split {c after b} h := by
    obtain ⟨a, mid, hpa, hfa⟩ := bind_eq_ok.mp h
    obtain ⟨front, hfront, hstop, ha⟩ := hp.split hpa
    obtain ⟨back, hback, hstop', hb⟩ := (hf a).split hfa
    refine ⟨front ++ back, ?_, hstop'.trans hstop, a, front, back, rfl, ha, hb⟩
    rw [hfront, hback, List.append_assoc]
  reads {b part rest} h hrest stop := by
    obtain ⟨a, front, back, rfl, ha, hb⟩ := h
    obtain ⟨gap, hgap, hpa⟩ := hp.reads ha (hnext hb hrest) stop
    -- the second parser reads the fillers that the first one leaves
    obtain ⟨gap', hgap', hfa⟩ := (hf a).reads ((hf a).led hb hgap) hrest stop
    rw [List.append_assoc] at hfa
    refine ⟨gap', hgap', bind_eq_ok.mpr ⟨a, _, ?_, hfa⟩⟩
    rw [List.append_assoc]
    exact hpa
  padded {b lead part trail} h hlead htrail := by
    obtain ⟨a, front, back, rfl, ha, hb⟩ := h
    exact ⟨a, lead ++ front, back ++ trail, by simp, hp.led ha hlead, (hf a).trailed hb htrail⟩

/-- Where something leads, there is something. -/
theorem Leading.ne_nil {value? : Component → Option α} {spelled : α → β → List Component → Prop}
    {b : β} {components : List Component} (h : Leading value? spelled b components) :
    components ≠ [] := by
  obtain ⟨component, rest, a, rfl, -⟩ := h
  exact List.cons_ne_nil component rest

/-- Fillers do not matter between a component and what is spelled behind it. -/
theorem leading_iff {value? : Component → Option α} {spelled : α → β → List Component → Prop}
    {b : β} {part : List Component} :
    (∃ a front back, part = front ++ back ∧ Shows value? a front ∧
        spelled a b (significant back)) ↔ Leading value? spelled b (significant part) := by
  constructor
  · rintro ⟨a, front, back, rfl, ⟨component, hfront, hvalue⟩, hback⟩
    exact ⟨component, significant back, a, by rw [significant_append, hfront]; rfl, hvalue, hback⟩
  · rintro ⟨component, rest, a, hpart, hvalue, hback⟩
    have hsplit : significant part = [component] ++ rest := hpart
    obtain ⟨front, back, rfl, hfront, rfl⟩ := List.filter_eq_append_iff.mp hsplit
    exact ⟨a, front, back, rfl, ⟨component, hfront, hvalue⟩, hback⟩

/-- Behind a component with a value, a parser reads what is spelled behind it. -/
theorem ReadsExactly.leading {value? : Component → Option α} {f : α → Parser β}
    {spelled : α → β → List Component → Prop} (hp : ReadsExactly p (Shows value?) Anything)
    (hf : ∀ a, ReadsExactly (f a) (fun b part => spelled a b (significant part)) stops) :
    ReadsExactly (p >>= f) (fun b part => Leading value? spelled b (significant part)) stops :=
  (hp.bind hf fun _ _ => trivial).of_iff fun _ _ => leading_iff

/-- A component without the value that is expected is refused. -/
theorem expect_of_significant {value? : Component → Option α} {components others : List Component}
    {component : Component} (h : significant components = component :: others)
    (hnone : value? component = none) (stop : Position) :
    ∃ e mid, expect value? ⟨components, stop⟩ = .error e mid := by
  obtain ⟨rest, hrest, -⟩ := significant_eq_cons_iff.mp h
  simp only [expect_eq, hrest, hnone]
  exact ⟨_, _, rfl⟩

/-- A result may be changed behind a parser. -/
theorem ReadsExactly.map (hp : ReadsExactly p spelled stops) (f : α → β) :
    ReadsExactly (do return f (← p)) (fun b part => ∃ a, b = f a ∧ spelled a part) stops where
  split h := by
    obtain ⟨a, mid, hpa, hpure⟩ := bind_eq_ok.mp h
    cases hpure
    obtain ⟨part, hpart, hstop, ha⟩ := hp.split hpa
    exact ⟨part, hpart, hstop, a, rfl, ha⟩
  reads h hrest stop := by
    obtain ⟨a, rfl, ha⟩ := h
    obtain ⟨gap, hgap, hpa⟩ := hp.reads ha hrest stop
    exact ⟨gap, hgap, bind_eq_ok.mpr ⟨a, _, hpa, rfl⟩⟩
  padded h hlead htrail := by
    obtain ⟨a, rfl, ha⟩ := h
    exact ⟨a, rfl, hp.padded ha hlead htrail⟩

/-- Where an attempt decides how to go on, what is spelled in either way is read, if the attempted
parser refuses what is spelled without it. -/
theorem ReadsExactly.attempt {f : α → Parser β} {q : Parser β}
    {spelled' : α → β → List Component → Prop} {without : β → List Component → Prop}
    {stops' : List Component → Prop} (hp : ReadsExactly p spelled stops)
    (hf : ∀ a, ReadsExactly (f a) (spelled' a) stops') (hq : ReadsExactly q without stops')
    (hnext : ∀ {a b part rest}, spelled' a b part → stops' rest → stops (part ++ rest))
    (hrefuses : ∀ {b part rest}, without b part → stops' rest → ∀ stop,
      ∃ e mid, p ⟨part ++ rest, stop⟩ = .error e mid) :
    ReadsExactly (attempt p >>= fun found => found.elim q f)
      (fun b part =>
        (∃ a front back, part = front ++ back ∧ spelled a front ∧ spelled' a b back) ∨
          without b part) stops' where
  split {c after b} h := by
    obtain ⟨found, mid, hfound, hrest⟩ := bind_eq_ok.mp h
    rcases attempt_eq_ok_iff.mp hfound with ⟨a, rfl, ha⟩ | ⟨rfl, rfl, -⟩
    · obtain ⟨part, hpart, hstop, hspelled⟩ :=
        (hp.bind hf hnext).split (bind_eq_ok.mpr ⟨a, mid, ha, hrest⟩)
      exact ⟨part, hpart, hstop, .inl hspelled⟩
    · obtain ⟨part, hpart, hstop, hspelled⟩ := hq.split hrest
      exact ⟨part, hpart, hstop, .inr hspelled⟩
  reads {b part rest} h hrest stop := by
    rcases h with hspelled | hspelled
    · obtain ⟨gap, hgap, hread⟩ := (hp.bind hf hnext).reads hspelled hrest stop
      obtain ⟨a, mid, ha, hback⟩ := bind_eq_ok.mp hread
      exact ⟨gap, hgap, bind_eq_ok.mpr ⟨_, _, attempt_eq_ok_iff.mpr (.inl ⟨a, rfl, ha⟩), hback⟩⟩
    · obtain ⟨gap, hgap, hread⟩ := hq.reads hspelled hrest stop
      -- the refused attempt leaves the cursor where it was
      have herror := hrefuses hspelled hrest stop
      exact ⟨gap, hgap, bind_eq_ok.mpr
        ⟨none, _, attempt_eq_ok_iff.mpr (.inr ⟨rfl, rfl, herror⟩), hread⟩⟩
  padded {b lead part trail} h hlead htrail :=
    h.imp (fun hspelled => (hp.bind hf hnext).padded hspelled hlead htrail)
      fun hspelled => hq.padded hspelled hlead htrail

/-- Whether a parser succeeds is what an attempt decides. -/
theorem succeeds_bind (p : Parser α) (q r : Parser β) :
    (do if ← succeeds p then q else r) =
      Parser.attempt p >>= fun found => found.elim r fun _ => q := by
  funext c
  simp only [succeeds, bind, EStateM.bind, Parser.attempt]
  cases p c <;> rfl

/-- At the end, a result is there at once; otherwise a parser reads on that needs something to
read. -/
theorem ReadsExactly.unlessExhausted (hq : ReadsExactly q spelled AtEnd) (a : α)
    (hsome : ∀ {b part}, spelled b part → significant part ≠ []) :
    ReadsExactly
      (do
        if ← isExhausted then return a
        q)
      (fun b part => (b = a ∧ significant part = []) ∨ spelled b part) AtEnd where
  split {c after b} h := by
    obtain ⟨exhausted, mid, hlook, hrest⟩ := bind_eq_ok.mp h
    cases hlook
    cases hc : c.isExhausted with
    | true =>
        rw [hc] at hrest
        cases hrest
        exact ⟨[], rfl, rfl, .inl ⟨rfl, rfl⟩⟩
    | false =>
        rw [hc] at hrest
        obtain ⟨part, hpart, hstop, hspelled⟩ := hq.split hrest
        exact ⟨part, hpart, hstop, .inr hspelled⟩
  reads {b part rest} h hrest stop := by
    rcases h with ⟨rfl, hpart⟩ | hspelled
    · have hend : (Cursor.mk (part ++ rest) stop).isExhausted = true := by
        rw [Cursor.isExhausted_iff_significant, significant_append, hpart]
        exact hrest
      refine ⟨part, hpart, bind_eq_ok.mpr ⟨true, _, ?_, rfl⟩⟩
      rw [← hend]
      rfl
    · have hmore := Cursor.isExhausted_append (hsome hspelled) rest stop
      obtain ⟨gap, hgap, hread⟩ := hq.reads hspelled hrest stop
      refine ⟨gap, hgap, bind_eq_ok.mpr ⟨false, _, ?_, hread⟩⟩
      rw [← hmore]
      rfl
  padded {b lead part trail} h hlead htrail := by
    rcases h with ⟨rfl, hpart⟩ | hspelled
    · exact .inl ⟨rfl, by simp [hlead, hpart, htrail]⟩
    · exact .inr (hq.padded hspelled hlead htrail)

/-- At the end, a fault is reported; otherwise a parser reads on that needs something to read. -/
theorem ReadsExactly.orFaultAtEnd (hq : ReadsExactly q spelled stops) (f : Fault)
    (hsome : ∀ {a part}, spelled a part → significant part ≠ []) :
    ReadsExactly
      (do
        if ← isExhausted then fault f (← location)
        q) spelled stops where
  split {c after a} h := by
    obtain ⟨exhausted, mid, hlook, hrest⟩ := bind_eq_ok.mp h
    cases hlook
    cases hc : c.isExhausted with
    | true =>
        rw [hc] at hrest
        cases hrest
    | false =>
        rw [hc] at hrest
        exact hq.split hrest
  reads {a part rest} h hrest stop := by
    have hmore := Cursor.isExhausted_append (hsome h) rest stop
    obtain ⟨gap, hgap, hread⟩ := hq.reads h hrest stop
    refine ⟨gap, hgap, bind_eq_ok.mpr ⟨false, _, ?_, hread⟩⟩
    rw [← hmore]
    rfl
  padded := hq.padded

/-- A value that is refused because of a fault is not expected. -/
theorem checked_eq_ok_iff {value? : Component → Option α} {bad : α → Prop} [DecidablePred bad]
    {f : Fault} {c after : Cursor} {a : α} :
    (do
      let location ← location
      let value ← expect value?
      if bad value then fault f location
      return value : Parser α) c = .ok a after ↔
      expect (fun component => (value? component).filter fun value => !decide (bad value)) c =
        .ok a after := by
  rw [expect_eq_ok_iff]
  constructor
  · intro h
    obtain ⟨location, mid, hlocation, h⟩ := bind_eq_ok.mp h
    cases hlocation
    obtain ⟨value, mid, hvalue, h⟩ := bind_eq_ok.mp h
    obtain ⟨component, rest, hrest, hfound, rfl⟩ := expect_eq_ok_iff.mp hvalue
    by_cases hbad : bad value
    · rw [if_pos hbad] at h
      cases h
    · rw [if_neg hbad] at h
      cases h
      exact ⟨component, rest, hrest, by simp [hfound, hbad], rfl⟩
  · rintro ⟨component, rest, hrest, hfound, rfl⟩
    rw [Option.filter_eq_some_iff] at hfound
    have hbad : ¬bad a := by simpa using hfound.2
    refine bind_eq_ok.mpr ⟨c.location, c, rfl, bind_eq_ok.mpr ⟨a, ⟨rest, c.stop⟩, ?_, ?_⟩⟩
    · exact expect_eq_ok_iff.mpr ⟨component, rest, hrest, hfound.1, rfl⟩
    · rw [if_neg hbad]
      rfl

end Parser

end Css
