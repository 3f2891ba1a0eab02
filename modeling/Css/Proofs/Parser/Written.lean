import Css.Proofs.Component.Spells
import Css.Proofs.Parser.Reads
import Css.Proofs.Parser.Significant
import Css.Proofs.Vocabulary

/-!
# Reading written components

Identifiers, strings and integers in their canonical text are read by the parsers of single
components, with any fillers in front of them.
-/

namespace Css

variable {α : Type}

/-- Writing items that can all be written gives all their texts. -/
theorem mapM_eq_ok {ε : Type} {css : α → Except ε String} {text : α → String} {items : List α}
    (h : ∀ item ∈ items, css item = .ok (text item)) :
    items.mapM css = .ok (items.map text) := by
  induction items with
  | nil => rfl
  | cons item items ih =>
      rw [List.mapM_cons, h item (List.mem_cons_self ..),
        ih fun other hother => h other (List.mem_cons_of_mem item hother)]
      rfl

namespace Component

/-- A token in its canonical text, as a component. -/
def written (kind : Token.Kind) : Component := .leaf (.written kind)

/-- A single space between two components. -/
def space : Component := .written (.space " ")

/-- The components of a list with a comma and a space between its items. -/
def commaComponents (components : α → List Component) : List α → List Component
  | [] => []
  | first :: others =>
    components first ++ others.flatMap fun item => written .comma :: space :: components item

/-- A list of items that are spelled is spelled with commas between them. -/
theorem spells_commaComponents {components : α → List Component} {css : α → String}
    {items : List α} (hne : items ≠ [])
    (h : ∀ item ∈ items, Spells (components item) (css item)) :
    Spells (commaComponents components items) (", ".intercalate (items.map css)) := by
  cases items with
  | nil => exact absurd rfl hne
  | cons first others =>
      have hcomma {a b : List Component} {x y : String} (ha : Spells a x) (hb : Spells b y) :
          Spells (a ++ ([written .comma, space] ++ b)) (x ++ ", " ++ y) := ha.append_comma hb
      exact spells_intercalate hcomma first others h

/-- A list with commas holds the components of its items, commas and spaces. -/
theorem mem_commaComponents {components : α → List Component} {items : List α} {c : Component}
    (h : c ∈ commaComponents components items) :
    (∃ item ∈ items, c ∈ components item) ∨ c = written .comma ∨ c = space := by
  cases items with
  | nil => cases h
  | cons first others =>
      rcases List.mem_append.mp h with h | h
      · exact .inl ⟨first, List.mem_cons_self .., h⟩
      · obtain ⟨item, hitem, h⟩ := List.mem_flatMap.mp h
        simp only [List.mem_cons] at h
        rcases h with rfl | rfl | h
        · exact .inr (.inl rfl)
        · exact .inr (.inr rfl)
        · exact .inl ⟨item, List.mem_cons_of_mem first hitem, h⟩

end Component

namespace Parser

open Component (written commaComponents)

variable {lead rest : List Component}

/-- What is read from the components of a text is read from the text. -/
theorem Reads.run {p : Parser α} {components : List Component} {text : String} {a : α}
    (hp : Reads p components (Exactly a rest)) (htext : Component.ReadFrom components text) :
    p.run text = .ok a := by
  obtain ⟨source, hsource, hbare⟩ := htext.ofString
  obtain ⟨_, after, hrun, _, _, rfl, _⟩ := hp _ hbare
  exact run_eq_ok_iff.mpr ⟨source, hsource, after, hrun⟩

/-- A function of what is read entirely is read entirely. -/
theorem Reads.entirely_map {β : Type} {p : Parser α} {components : List Component} {a : α}
    (hp : Reads (entirely p) components (Exactly a [])) (f : α → β) :
    Reads (entirely (f <$> p)) components (Exactly (f a) []) := by
  intro c hc
  obtain ⟨_, after, hrun, _, hafter, rfl, rfl⟩ := hp c hc
  exact ⟨_, after, entirely_map_eq_ok_iff.mpr ⟨_, hrun, rfl⟩, [], hafter, rfl, rfl⟩

/-- What the items of a list with commas behind fillers are read as is read item by item. -/
theorem reads_commaComponents_behind {β : Type} {p : Parser β} {f : α → β}
    {components : α → List Component} {items : List α} (hne : items ≠ [])
    (hread : ∀ item ∈ items, ∀ lead : List Component, lead.all Component.isFiller →
      ReadsAll p (lead ++ components item) (f item))
    (hfree : ∀ item ∈ items, ∀ c ∈ components item, c.delimiter? = none)
    (hlead : lead.all Component.isFiller) :
    Reads (commaSeparated p) (lead ++ commaComponents components items)
      (Exactly (items.map f) []) := by
  have hdelimiter {c : Component} (hc : c.delimiter? = none) : isDelimiter [','] c = false := by
    simp [isDelimiter, hc]
  cases items with
  | nil => exact absurd rfl hne
  | cons first others =>
      have hothers : ∀ item ∈ others, ReadsAll p (Component.space :: components item) (f item) :=
        fun item hitem => hread item (List.mem_cons_of_mem first hitem) [Component.space] rfl
      rw [commaComponents, ← List.append_assoc]
      refine reads_commaSeparated (hread first (List.mem_cons_self ..) lead hlead) hothers rfl
        fun c hc => ?_
      rcases List.mem_append.mp hc with hc | hc
      · rcases List.mem_append.mp hc with hc | hc
        · refine Bool.eq_false_iff.mpr fun hend => ?_
          exact absurd (isFiller_of_isDelimiter hend) (by simp [List.all_eq_true.mp hlead c hc])
        · exact hdelimiter (hfree first (List.mem_cons_self ..) c hc)
      · obtain ⟨item, hitem, hc⟩ := List.mem_flatMap.mp hc
        rcases List.mem_cons.mp hc with rfl | hc
        · rfl
        · exact hdelimiter (hfree item (List.mem_cons_of_mem first hitem) c hc)

/-- What the items of a list with commas are read as is read item by item. -/
theorem reads_commaComponents_map {β : Type} {p : Parser β} {f : α → β}
    {components : α → List Component} {items : List α} (hne : items ≠ [])
    (hread : ∀ item ∈ items, ∀ lead : List Component, lead.all Component.isFiller →
      ReadsAll p (lead ++ components item) (f item))
    (hfree : ∀ item ∈ items, ∀ c ∈ components item, c.delimiter? = none) :
    Reads (commaSeparated p) (commaComponents components items) (Exactly (items.map f) []) := by
  have hnothing : ([] : List Component).all Component.isFiller := rfl
  exact reads_commaComponents_behind hne hread hfree hnothing

/-- A list with commas is read item by item. -/
theorem reads_commaComponents {p : Parser α} {components : α → List Component} {items : List α}
    (hne : items ≠ [])
    (hread : ∀ item ∈ items, ∀ lead : List Component, lead.all Component.isFiller →
      ReadsAll p (lead ++ components item) item)
    (hfree : ∀ item ∈ items, ∀ c ∈ components item, c.delimiter? = none) :
    Reads (commaSeparated p) (commaComponents components items) (Exactly items []) := by
  have hread := reads_commaComponents_map (f := id) hne hread hfree
  rwa [List.map_id] at hread

/-- A component that looks like a written token says what the token says. -/
theorem exists_leaf_of_bare {component : Component} {kind : Token.Kind}
    (h : component.bare = (written kind).bare) :
    ∃ text start, component = .leaf ⟨kind, text, start⟩ := by
  have hleaf : Component.bareOf [component] = Component.bareOf [.leaf (.written kind)] := by
    simp only [Component.bareOf, h, written]
  obtain ⟨⟨_, text, start⟩, _, heq, rfl, -, -⟩ := Component.bareOf_eq_leaf_cons hleaf
  exact ⟨text, start, (List.cons.inj heq).1⟩

/-- The word of an identifier in lower case is its keyword. -/
theorem keyword?_of_bare {component : Component} {name : String}
    (h : component.bare = (written (.ident name)).bare) :
    keyword? component = some (Text.lowerCase name) := by
  obtain ⟨text, start, rfl⟩ := exists_leaf_of_bare h
  rfl

/-- A value is found in a written token behind fillers. -/
theorem reads_expect_written {value? : Component → Option α} {kind : Token.Kind} {a : α}
    (hlead : lead.all Component.isFiller) (hkind : kind.isFiller = false)
    (hvalue : ∀ text start, value? (.leaf ⟨kind, text, start⟩) = some a) :
    Reads (expect value?) (lead ++ written kind :: rest) (Exactly a rest) :=
  reads_expect (t := .written kind) (Component.dropWhile_isFiller_append hlead hkind) hvalue

/-- A value that is not found in a written token behind fillers is refused. -/
theorem refuses_expect_written {value? : Component → Option α} {kind : Token.Kind}
    (hlead : lead.all Component.isFiller) (hkind : kind.isFiller = false)
    (hvalue : ∀ text start, value? (.leaf ⟨kind, text, start⟩) = none) :
    Refuses (expect value?) (lead ++ written kind :: rest) :=
  refuses_expect (t := .written kind) (Component.dropWhile_isFiller_append hlead hkind) hvalue

/-- A value is found in a written token. -/
theorem reads_expect_first {value? : Component → Option α} {kind : Token.Kind} {a : α}
    (hkind : kind.isFiller = false)
    (hvalue : ∀ text start, value? (.leaf ⟨kind, text, start⟩) = some a) :
    Reads (expect value?) (written kind :: rest) (Exactly a rest) := by
  have hread : Reads (expect value?) ([] ++ written kind :: rest) (Exactly a rest) :=
    reads_expect_written rfl hkind hvalue
  exact hread

/-- Brackets are found behind fillers. -/
theorem reads_block (bracket : Bracket) (contents : List Component)
    (hlead : lead.all Component.isFiller) :
    Reads (block bracket) (lead ++ .group (.written (.opening bracket)) contents
        (some (.written (.closing bracket))) :: rest) fun found after =>
      found.bare = (Component.group (.written (.opening bracket)) contents
        (some (.written (.closing bracket)))).bare ∧ after = rest := by
  refine (reads_next (Component.dropWhile_isFiller_append hlead rfl)).bind
    fun found after hfound => ?_
  obtain ⟨hlook, rfl⟩ := hfound
  cases found with
  | leaf t => cases hlook
  | group opening body closing =>
      obtain ⟨kind, text, start⟩ := opening
      have hkind : kind = .opening bracket := by
        simp only [Component.bare, Component.group.injEq] at hlook
        exact congrArg Token.kind hlook.1
      have hblock : isBlock bracket (.group ⟨kind, text, start⟩ body closing) = true := by
        rw [hkind]
        exact decide_eq_true rfl
      intro c hc
      dsimp only
      rw [if_pos hblock]
      exact ⟨_, c, rfl, after, hc, hlook, rfl⟩

/-- A colon is read. -/
theorem reads_colon (rest : List Component) :
    Reads colon (written .colon :: rest) (Exactly () rest) :=
  reads_expect_first rfl fun _ _ => rfl

/-- An address is read from the address function. -/
theorem reads_urlOrString (address : String) (hlead : lead.all Component.isFiller) :
    Reads urlOrString (lead ++ Component.url address :: rest) (Exactly address rest) := by
  refine (reads_next (Component.dropWhile_isFiller_append hlead rfl)).bind
    fun component after hfound => ?_
  obtain ⟨hlook, rfl⟩ := hfound
  have hstring : ReadsAll string [written (.string address true)] address :=
    ⟨[], rfl, reads_expect_first rfl fun _ _ => rfl⟩
  cases component with
  | leaf t => cases hlook
  | group opening contents closing =>
      have hkind : opening.kind = .function "url" := by
        have hopening := (Component.group.inj hlook).1
        exact congrArg Token.kind hopening
      have hurl : isUrlFunction (.group opening contents closing) = true := by
        obtain ⟨kind, text, start⟩ := opening
        cases hkind
        show (Text.lowerCase "url" == "url") = true
        decide
      show Reads (if isUrlFunction _ then inside _ string else unexpected _) _ _
      rw [if_pos hurl]
      exact reads_inside hlook hstring

/-- An integer is read. -/
theorem reads_integer (n : Int) (hlead : lead.all Component.isFiller) :
    Reads integer (lead ++ written (.number (.ofInt n)) :: rest) (Exactly n rest) :=
  reads_expect_written hlead rfl fun _ _ => rfl

/-- An integer is read if the mode allows it. -/
theorem reads_nonNegativeInteger {context : Context} {n : Int}
    (h : context.mode.negativeNumbers = false → 0 ≤ n) (hlead : lead.all Component.isFiller) :
    Reads (nonNegativeInteger context) (lead ++ written (.number (.ofInt n)) :: rest)
      (Exactly n rest) := by
  refine (reads_location _).bind fun location after hafter => ?_
  subst hafter
  refine (reads_integer n hlead).andThen ?_
  have hsign : ¬(n < 0 ∧ (!context.mode.negativeNumbers) = true) := by
    rintro ⟨hn, hmode⟩
    have := h (by simpa using hmode)
    omega
  rw [if_neg hsign]
  exact reads_pure n rest

/-- A custom name is read from an identifier. -/
theorem reads_customIdent {excluded : List String} {name : String}
    (h : IsCustomName excluded name) (hlead : lead.all Component.isFiller) :
    Reads (customIdent excluded) (lead ++ written (.ident name) :: rest) (Exactly name rest) := by
  refine reads_expect_written hlead rfl fun _ _ => ?_
  simp [identName?, h.ne_default, h.notMem_excluded, h.not_wide]

/-- A word is matched by an identifier that is the word in lower case. -/
theorem reads_identMatching {word : String} (hword : Text.lowerCase word = word)
    (hlead : lead.all Component.isFiller) :
    Reads (identMatching word) (lead ++ written (.ident word) :: rest) (Exactly () rest) := by
  refine reads_expect_written hlead rfl fun _ _ => ?_
  simp [keyword?, identName?, hword]

/-- A word of a vocabulary is read. -/
theorem reads_member [Vocabulary α] [LawfulVocabulary α] {member : α}
    (hword : Text.lowerCase (Vocabulary.word member) = Vocabulary.word member)
    (hlead : lead.all Component.isFiller) :
    Reads (Parser.member α) (lead ++ written (.ident (Vocabulary.word member)) :: rest)
      (Exactly member rest) := by
  refine reads_expect_written hlead rfl fun _ _ => ?_
  simp [keyword?, identName?, hword, Vocabulary.find?_word]

end Parser

end Css
