import Css.Proofs.Parser.Local
import Css.Proofs.Rule.Items

/-!
# How far rules reach

A rule reaches to its own block, a statement of the prologue to its semicolon, and a mark stands for
itself. Nothing behind the end of an item is looked at, so an item is read alike whatever follows,
`Item.local_topLevelStep` and `Item.parser_local`. Only a statement that the end of the components
cuts off has no end of its own.
-/

namespace Css

open Css.Parser

open Component (significant significant_eq_nil_iff significant_eq_cons_iff)

namespace Rule

variable {context : Context} {namespaces : Namespaces} {rules : Parser (List Rule)}
  {c after : Cursor} {rule : Rule}

/-- The parser reads up to a block, and reads the same whatever stands behind the block. -/
def EndsAtBlock (p : Parser Rule) (c after : Cursor) (rule : Rule) : Prop :=
  ∃ front opening contents closing,
    c.rest = front ++ .group opening contents closing :: after.rest ∧
      opening.kind = .opening .curly ∧ ∀ tail stop,
        p ⟨front ++ .group opening contents closing :: tail, stop⟩ = .ok rule ⟨tail, stop⟩

/-- What is left behind fillers starts with no filler, whatever comes behind its start. -/
theorem dropWhile_cons_of_dropWhile {components rest : List Component} {first : Component}
    (h : components.dropWhile Component.isFiller = first :: rest) (others : List Component) :
    (first :: others).dropWhile Component.isFiller = first :: others := by
  have hfirst := List.head?_dropWhile_not Component.isFiller components
  simp only [h, List.head?_cons] at hfirst
  exact List.dropWhile_cons_of_neg (by simp [hfirst])

/-- A row starts as before if what stands behind one of its components is exchanged. -/
theorem exists_append_eq_cons {front rest behind : List Component} {first last : Component}
    (h : first :: rest = front ++ last :: behind) (tail : List Component) :
    ∃ others, front ++ last :: tail = first :: others := by
  cases front <;> cases h <;> exact ⟨_, rfl⟩

/-- No fillers stand at a delimiter. -/
theorem dropWhile_of_untilBefore {α : Type} {delimiters : List Char} {p : Parser α} {a : α}
    (h : untilBefore delimiters p c = .ok a after) :
    after.rest.dropWhile Component.isFiller = after.rest := by
  obtain ⟨rfl, -⟩ := untilBefore_eq_ok.mp h
  cases hrest : (c.skip fun component => !isDelimiter delimiters component).rest with
  | nil => rfl
  | cons first rest =>
      have hfirst := isFiller_of_isDelimiter (c.isDelimiter_head?_skip first (by rw [hrest]; rfl))
      exact List.dropWhile_cons_of_neg (by simp [hfirst])

/-- What ends a statement and is kept is the next component. -/
theorem statementEnd_eq_ok_some {body : Component} (h : statementEnd c = .ok (some body) after) :
    c.rest.dropWhile Component.isFiller = body :: after.rest := by
  obtain ⟨exhausted, mid, hlook, hrun⟩ := bind_eq_ok.mp h
  cases hlook
  split at hrun
  · cases hrun
  · obtain ⟨component, last, hnext, hrun⟩ := bind_eq_ok.mp hrun
    obtain ⟨rest, hrest, rfl⟩ := next_eq_ok_iff.mp hnext
    split at hrun
    · cases hrun
    · cases hrun
      exact hrest

/-- A rule is made of a part without delimiters, which the first parser reads, and a block in curly
brackets, which is read by what the second one makes of the result. -/
structure WithBlock {α : Type} (delimiters : List Char) (p : Parser α) (body : α → Parser Rule)
    (front : List Component) (opening : Token) (contents : List Component) (closing : Option Token)
    (rule : Rule) : Prop where
  curly : opening.kind = .opening .curly
  undelimited : ∀ component ∈ front, isDelimiter delimiters component = false
  reads : ∃ a last last', entirely p ⟨front, opening.start⟩ = .ok a last ∧
    entirely (body a) ⟨contents, Component.contentsStop opening contents closing⟩ = .ok rule last'

/-- A parser in front of a group reads what stands in front of it, which ends at the group. -/
theorem untilBefore_of_group {α : Type} {delimiters : List Char} {p : Parser α} {a : α}
    {mid : Cursor} {opening : Token} {contents rest : List Component} {closing : Option Token}
    (h : untilBefore delimiters p c = .ok a mid)
    (hmid : mid.rest = .group opening contents closing :: rest) :
    opening.kind = .opening .curly ∧ ∃ front last,
      c.rest = front ++ .group opening contents closing :: rest ∧
      (∀ component ∈ front, isDelimiter delimiters component = false) ∧
      entirely p ⟨front, opening.start⟩ = .ok a last := by
  obtain ⟨rfl, last, hread⟩ := untilBefore_eq_ok.mp h
  have hdelimiter : isDelimiter delimiters (.group opening contents closing) = true :=
    c.isDelimiter_head?_skip _ (by rw [hmid]; rfl)
  rw [Cursor.read_skip, Cursor.location, hmid] at hread
  constructor
  · simp only [isDelimiter, Component.delimiter?] at hdelimiter
    split at hdelimiter
    · rename_i hopening
      simpa using hopening
    · cases hdelimiter
  · refine ⟨_, last, ?_, fun component hmem => ?_, hread⟩
    · rw [← hmid]
      exact List.takeWhile_append_dropWhile.symm
    · simpa using List.mem_takeWhile_imp hmem

/-- A parser in front of a block reads what stands in front of it. -/
theorem untilBefore_of_curly {α : Type} {delimiters : List Char} {p : Parser α} {a : α}
    {last : Cursor} {front : List Component} {opening : Token} (hbrace : '{' ∈ delimiters)
    (hcurly : opening.kind = .opening .curly)
    (hfront : ∀ component ∈ front, isDelimiter delimiters component = false)
    (h : entirely p ⟨front, opening.start⟩ = .ok a last) (contents tail : List Component)
    (closing : Option Token) (stop : Position) :
    untilBefore delimiters p ⟨front ++ .group opening contents closing :: tail, stop⟩ =
      .ok a ⟨.group opening contents closing :: tail, stop⟩ := by
  refine untilBefore_append stop hfront ?_ h
  rintro _ ⟨⟩
  simp [isDelimiter, Component.delimiter?, hcurly, hbrace]

/-- An at-rule is a prelude and a block. -/
theorem atRuleParser_eq_ok_iff {location : Position} {kind : Option AtRule} :
    atRuleParser context rules location kind c = .ok rule after ↔ after.stop = c.stop ∧
      ∃ front opening contents closing,
        c.rest = front ++ .group opening contents closing :: after.rest ∧
        WithBlock [';', '{'] (Prelude.parser context location kind)
          (fun found => found.bodyParser context rules) front opening contents closing rule := by
  constructor
  · intro h
    obtain ⟨found, mid, huntil, hrun⟩ := bind_eq_ok.mp h
    obtain ⟨body?, behind, hend, hrun⟩ := bind_eq_ok.mp hrun
    cases body? with
    | none => cases hrun
    | some body =>
        obtain ⟨rfl, opening, contents, closing, last', rfl, hbody⟩ := inside_eq_ok_iff.mp hrun
        have hmid := statementEnd_eq_ok_some hend
        rw [dropWhile_of_untilBefore huntil] at hmid
        obtain ⟨hcurly, front, last, hfront, hundelimited, hread⟩ :=
          untilBefore_of_group huntil hmid
        refine ⟨?_, front, opening, contents, closing, hfront, hcurly, hundelimited,
          found, last, last', hread, hbody⟩
        rw [(advances_statementEnd hend).stop, (advances_untilBefore _ _ huntil).stop]
  · rintro ⟨hstop, front, opening, contents, closing, hrest, hblock⟩
    obtain ⟨found, last, last', hread, hbody⟩ := hblock.reads
    obtain ⟨rest, stop⟩ := c
    obtain ⟨tail, stop'⟩ := after
    dsimp only at hstop hrest
    subst hstop hrest
    have huntil := untilBefore_of_curly (by simp) hblock.curly hblock.undelimited hread
      contents tail closing stop'
    have hend : statementEnd ⟨.group opening contents closing :: tail, stop'⟩ =
        .ok (some (.group opening contents closing)) ⟨tail, stop'⟩ := rfl
    rw [atRuleParser, bind_of_ok huntil, bind_of_ok hend]
    exact inside_eq_ok_iff.mpr ⟨rfl, _, _, _, last', rfl, hbody⟩

/-- A rule with selectors is these and a block of declarations. -/
theorem styleParser_eq_ok_iff :
    styleParser context namespaces c = .ok rule after ↔ after.stop = c.stop ∧
      ∃ front opening contents closing,
        c.rest = front ++ .group opening contents closing :: after.rest ∧
        WithBlock ['{'] (Selector.parser namespaces)
          (fun selectors => Rule.style selectors <$> Declarations.parser (context.inRule .style))
          front opening contents closing rule := by
  constructor
  · intro h
    obtain ⟨selectors, mid, huntil, hrun⟩ := bind_eq_ok.mp h
    obtain ⟨exhausted, mid', hlook, hrun⟩ := bind_eq_ok.mp hrun
    cases hlook
    split at hrun
    · cases hrun
    · obtain ⟨body, behind, hblock, hrun⟩ := bind_eq_ok.mp hrun
      obtain ⟨declarations, last, hinside, hpure⟩ := bind_eq_ok.mp hrun
      cases hpure
      obtain ⟨rfl, opening, contents, closing, last', rfl, hbody⟩ := inside_eq_ok_iff.mp hinside
      obtain ⟨component, rest, hmid, hvalue, rfl⟩ := expect_eq_ok_iff.mp hblock
      rw [dropWhile_of_untilBefore huntil] at hmid
      obtain ⟨hblock, ⟨⟩⟩ := Option.ite_none_right_eq_some.mp hvalue
      obtain ⟨hcurly, front, last, hfront, hundelimited, hread⟩ := untilBefore_of_group huntil hmid
      exact ⟨(advances_untilBefore _ _ huntil).stop, front, opening, contents, closing, hfront,
        hcurly, hundelimited, selectors, last, last', hread,
        entirely_map_eq_ok_iff.mpr ⟨declarations, hbody, rfl⟩⟩
  · rintro ⟨hstop, front, opening, contents, closing, hrest, hblock⟩
    obtain ⟨selectors, last, last', hread, hbody⟩ := hblock.reads
    obtain ⟨declarations, hcontents, rfl⟩ := entirely_map_eq_ok_iff.mp hbody
    obtain ⟨rest, stop⟩ := c
    obtain ⟨tail, stop'⟩ := after
    dsimp only at hstop hrest
    subst hstop hrest
    have huntil := untilBefore_of_curly (by simp) hblock.curly hblock.undelimited hread
      contents tail closing stop'
    have hlook : isExhausted ⟨.group opening contents closing :: tail, stop'⟩ =
        .ok false ⟨.group opening contents closing :: tail, stop'⟩ := rfl
    have hcurly : isBlock .curly (.group opening contents closing) = true := by
      have hkind := hblock.curly
      obtain ⟨kind, text, start⟩ := opening
      dsimp only at hkind
      rw [hkind]
      rfl
    have hbody' : block .curly ⟨.group opening contents closing :: tail, stop'⟩ =
        .ok (.group opening contents closing) ⟨tail, stop'⟩ :=
      expect_eq_ok_iff.mpr ⟨_, tail, rfl, by rw [if_pos hcurly], rfl⟩
    rw [styleParser, bind_of_ok huntil, bind_of_ok hlook]
    refine bind_eq_ok.mpr ⟨_, _, hbody', bind_eq_ok.mpr ⟨declarations, _, ?_, rfl⟩⟩
    exact inside_eq_ok_iff.mpr ⟨rfl, _, _, _, last', rfl, hcontents⟩

/-- A rule that is made of a part and a block, whatever stands behind them, reaches to its block. -/
theorem WithBlock.endsAtBlock {α : Type} {delimiters : List Char} {p : Parser α}
    {body : α → Parser Rule} {q : Parser Rule}
    (hq : ∀ {c after rule}, q c = .ok rule after ↔ after.stop = c.stop ∧
      ∃ front opening contents closing,
        c.rest = front ++ .group opening contents closing :: after.rest ∧
        WithBlock delimiters p body front opening contents closing rule)
    (h : q c = .ok rule after) : EndsAtBlock q c after rule := by
  obtain ⟨-, front, opening, contents, closing, hrest, hblock⟩ := hq.mp h
  exact ⟨front, opening, contents, closing, hrest, hblock.curly, fun tail stop =>
    hq.mpr ⟨rfl, front, opening, contents, closing, rfl, hblock⟩⟩

/-- An at-rule reaches to its block. -/
theorem atRuleParser_endsAtBlock {location : Position} {kind : Option AtRule}
    (h : atRuleParser context rules location kind c = .ok rule after) :
    EndsAtBlock (atRuleParser context rules location kind) c after rule :=
  WithBlock.endsAtBlock atRuleParser_eq_ok_iff h

/-- A rule with selectors reaches to its block. -/
theorem styleParser_endsAtBlock (h : styleParser context namespaces c = .ok rule after) :
    EndsAtBlock (styleParser context namespaces) c after rule :=
  WithBlock.endsAtBlock styleParser_eq_ok_iff h

/-- Fillers in front of a rule do not matter. -/
theorem ruleWith_skip (c : Cursor) :
    ruleWith context namespaces rules (c.skip Component.isFiller) =
      ruleWith context namespaces rules c := by
  rw [ruleWith_eq, ruleWith_eq, Cursor.skip, List.dropWhile_idempotent]

/-- A rule reaches to its block. -/
theorem ruleWith_endsAtBlock (h : ruleWith context namespaces rules c = .ok rule after) :
    EndsAtBlock (ruleWith context namespaces rules) (c.skip Component.isFiller) after rule := by
  rw [ruleWith_eq] at h
  cases hrest : c.rest.dropWhile Component.isFiller with
  | nil => rw [hrest] at h; cases h
  | cons first rest =>
      have hstart := dropWhile_cons_of_dropWhile hrest
      rw [hrest] at h
      cases hkeyword : AtRule.isKeyword first with
      | true =>
          simp only [hkeyword, if_true] at h
          obtain ⟨front, opening, contents, closing, hfront, hcurly, hlocal⟩ :=
            atRuleParser_endsAtBlock h
          refine ⟨first :: front, opening, contents, closing, ?_, hcurly, fun tail stop => ?_⟩
          · rw [Cursor.skip, hrest]
            exact congrArg (List.cons first) hfront
          · rw [List.cons_append, ruleWith_of_isKeyword (hstart _) hkeyword]
            exact hlocal tail stop
      | false =>
          simp only [hkeyword, Bool.false_eq_true, if_false] at h
          obtain ⟨front, opening, contents, closing, hfront, hcurly, hlocal⟩ :=
            styleParser_endsAtBlock h
          refine ⟨front, opening, contents, closing, ?_, hcurly, fun tail stop => ?_⟩
          · rw [Cursor.skip, hrest]
            exact hfront
          · -- The first component stands in front of the block, or is the block.
            obtain ⟨others, hothers⟩ := exists_append_eq_cons hfront tail
            have hstyle := hlocal tail stop
            rw [hothers] at hstyle ⊢
            rw [ruleWith_of_not_isKeyword (hstart others) hkeyword]
            exact hstyle

/-- The component ends a rule or a statement: a block in curly brackets, or a semicolon. -/
def isEnd : Component → Bool
  | .leaf ⟨.semicolon, _, _⟩ => true
  | component => isBlock .curly component

end Rule

/-- The last component that is no filler, if there is one, is of the given kind. -/
def Component.EndsWith (last : Component → Bool) (components : List Component) : Prop :=
  ∀ component ∈ (significant components).getLast?, last component = true

/-- The ends of a row end alike. -/
theorem Component.EndsWith.of_suffix {last : Component → Bool} {components rest : List Component}
    (h : EndsWith last components) (hsuffix : rest <:+ components) : EndsWith last rest := by
  obtain ⟨front, rfl⟩ := hsuffix
  intro component hmem
  refine h component ?_
  rw [significant, List.filter_append, List.getLast?_append]
  rw [Option.mem_def] at hmem
  rw [significant] at hmem
  simp [hmem]

namespace Item

variable {context : Context} {progress next : Progress} {c after : Cursor} {item : Item}

/-- The component ends an item of a stylesheet. -/
def isEnd (component : Component) : Bool := Rule.isEnd component || isHtmlMark component

/-- What stands for an address ends no item. -/
theorem isEnd_of_address? {component : Component} {address : String}
    (h : component.address? = some address) : isEnd component = false := by
  cases component with
  | leaf t =>
      obtain ⟨kind, text, start⟩ := t
      cases kind <;> first | rfl | cases h
  | group opening contents closing =>
      have hurl := (address?_group_eq_some_iff.mp h).1
      obtain ⟨kind, text, start⟩ := opening
      cases kind <;> first | rfl | cases hurl

/-- A string stands for an address. -/
theorem address?_of_stringValue? {component : Component} {value : String}
    (h : stringValue? component = some value) : component.address? = some value := by
  unfold stringValue? at h
  split at h
  · exact h
  · cases h

/-- The last component of the prelude of a statement ends no item. -/
theorem not_endsWith_of_ofPrelude? {kind : AtRule} {keyword : Component} {prelude : List Component}
    (hrest : c.rest.dropWhile Component.isFiller = keyword :: prelude)
    (hitem : ofPrelude? kind prelude = some item) : ¬Component.EndsWith isEnd c.rest := by
  obtain ⟨front, component, address, hprelude, haddress⟩ : ∃ front component address,
      significant prelude = front ++ [component] ∧ component.address? = some address := by
    unfold ofPrelude? at hitem
    split at hitem
    · rename_i name hname
      obtain ⟨value, hvalue, -⟩ := Option.map_eq_some_iff.mp hitem
      exact ⟨[], name, value, hname, address?_of_stringValue? hvalue⟩
    · rename_i component hcomponent
      obtain ⟨address, haddress, -⟩ := Option.map_eq_some_iff.mp hitem
      exact ⟨[], component, address, hcomponent, haddress⟩
    · rename_i key component hcomponents
      obtain ⟨name, -, hitem⟩ := Option.bind_eq_some_iff.mp hitem
      obtain ⟨address, haddress, -⟩ := Option.bind_eq_some_iff.mp hitem
      exact ⟨[key], component, address, hcomponents, haddress⟩
    · cases hitem
  intro hends
  have hsignificant := significant_eq_cons_iff.mpr ⟨prelude, hrest, hprelude⟩
  have hlast :=
    hends component (by rw [hsignificant, ← List.cons_append, List.getLast?_concat]; rfl)
  rw [isEnd_of_address? haddress] at hlast
  cases hlast

/-- Fillers in front of a statement of the prologue do not matter. -/
theorem statementParser_skip (contents : Parser Item) (c : Cursor) :
    statementParser contents (c.skip Component.isFiller) = statementParser contents c := by
  have hnext : Parser.next (c.skip Component.isFiller) = Parser.next c := by
    rw [Parser.next, nextAfter_eq, nextAfter_eq, Cursor.skip, List.dropWhile_idempotent]
  show EStateM.bind Parser.next _ _ = EStateM.bind Parser.next _ _
  simp only [EStateM.bind, hnext]

/-- Fillers in front of a rule do not matter where it is an item. -/
theorem map_parser_skip (namespaces : Namespaces) (c : Cursor) :
    (Item.rule <$> Rule.parser context namespaces) (c.skip Component.isFiller) =
      (Item.rule <$> Rule.parser context namespaces) c := by
  show EStateM.map _ (Rule.ruleWith _ _ _) _ = EStateM.map _ (Rule.ruleWith _ _ _) _
  simp only [EStateM.map, Rule.ruleWith_skip]

/-- Fillers in front of an item do not matter. -/
theorem topLevelStep_skip (progress : Progress) (c : Cursor) :
    topLevelStep context progress (c.skip Component.isFiller) =
      topLevelStep context progress c := by
  simp only [topLevelStep, step, Cursor.skip_skip, statementParser_skip, map_parser_skip]
  rfl

/-- The step of a stylesheet looks at nothing behind the end of its item. -/
theorem local_topLevelStep (context : Context) :
    Local (Component.EndsWith isEnd) (topLevelStep context) where
  skip := topLevelStep_skip
  leads hstep := (topLevelStep_eq_ok_iff.mp hstep).leads
  closed_of_suffix := Component.EndsWith.of_suffix
  exists_front := by
    intro progress c next item after hstep hend
    cases topLevelStep_eq_ok_iff.mp hstep with
    | mark hrest hmark =>
        rename_i first rest
        have hstart := Rule.dropWhile_cons_of_dropWhile hrest
        exact ⟨[first], hrest, fun tail stop => topLevelStep_of_isHtmlMark (hstart tail) hmark⟩
    | rule hrest hmark hlate hrule =>
        rename_i first rest rule
        obtain ⟨front, opening, contents, closing, hfront, -, hlocal⟩ :=
          Rule.ruleWith_endsAtBlock hrule
        refine ⟨front ++ [.group opening contents closing], ?_, fun tail stop => ?_⟩
        · rw [List.append_assoc]
          exact hfront
        · rw [List.append_assoc, List.singleton_append]
          rw [Cursor.skip, hrest] at hfront
          obtain ⟨others, hothers⟩ := Rule.exists_append_eq_cons hfront tail
          have hstart := Rule.dropWhile_cons_of_dropWhile hrest others
          have hread := hlocal tail stop
          rw [hothers] at hread ⊢
          exact topLevelStep_eq_ok_iff.mpr (.rule hstart hmark hlate hread)
    | statement hphase hstatement hitem =>
        rename_i kind prelude
        obtain ⟨⟨keyword, ending, hrest, hkind, hends⟩, hprelude, hstop⟩ := hstatement
        obtain ⟨rfl, hnil⟩ | ⟨t, ht, rfl⟩ := hends
        · -- Cut off by the end of the components, which is only allowed where they are not closed.
          rw [hnil, List.append_nil, List.append_nil] at hrest
          exact hend.elim (absurd hnil) fun hends =>
            absurd hends (not_endsWith_of_ofPrelude? hrest hitem)
        · refine ⟨keyword :: (prelude ++ [.leaf t]), ?_, fun tail stop => ?_⟩
          · rw [List.cons_append, List.append_assoc]
            exact hrest
          · rw [List.cons_append, List.append_assoc]
            have hstart := Rule.dropWhile_cons_of_dropWhile hrest (prelude ++ ([.leaf t] ++ tail))
            exact topLevelStep_eq_ok_iff.mpr (.statement hphase
              ⟨⟨keyword, [.leaf t], hstart, hkind, .inr ⟨t, ht, rfl⟩⟩, hprelude, rfl⟩ hitem)

/-- The step of a block looks at nothing behind the block of its rule. -/
theorem parser_local (context : Context) (namespaces : Namespaces) :
    Local (fun _ => True) fun (progress : Progress) c =>
      (progress, (Item.rule <$> Rule.parser context namespaces) c) where
  skip progress c := congrArg (Prod.mk progress) (map_parser_skip namespaces c)
  leads hstep := by
    obtain ⟨rule, hrule, -⟩ := map_eq_ok_iff.mp (congrArg Prod.snd hstep)
    exact Rule.consumes_rule hrule
  closed_of_suffix _ _ := trivial
  exists_front := by
    intro progress c next item after hstep _
    cases congrArg Prod.fst hstep
    obtain ⟨rule, hrule, rfl⟩ := map_eq_ok_iff.mp (congrArg Prod.snd hstep)
    obtain ⟨front, opening, contents, closing, hfront, -, hlocal⟩ := Rule.ruleWith_endsAtBlock hrule
    refine ⟨front ++ [.group opening contents closing], ?_, fun tail stop => ?_⟩
    · rw [List.append_assoc]
      exact hfront
    · rw [List.append_assoc, List.singleton_append]
      exact Prod.ext rfl (map_eq_ok_iff.mpr ⟨rule, hlocal tail stop, rfl⟩)

end Item

end Css
