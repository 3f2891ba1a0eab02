import Css.Proofs.Rule.Canonical
import Css.Proofs.Rule.Namespace
import Css.Proofs.Rule.Reads
import Css.Proofs.Stylesheet.Prologue

/-!
# Written namespaces

The statements that a stylesheet writes in front of its rules bind what its table binds. The names
and addresses in a table were read from tokens, so they can be written, and a name is written as an
identifier and an address as a string in the address function, so that a prefix and an address are
never taken for each other. No key stands twice in the table, so the statements make it up again in
its order.
-/

namespace Css

open Css.Parser
open Component (written space bareOf ReadFrom Spells)

namespace Namespaces

/-- A binding whose prefix and address a token can hold. -/
structure IsSound (binding : Option String × String) : Prop where
  prefixed : ∀ name ∈ binding.1, IsName name
  address : NullFree binding.2.toList

/-- A table that statements can make up: no key stands twice, and each binding can be written. -/
structure Canonical (n : Namespaces) : Prop where
  nodup : n.keys.Nodup
  sound : ∀ binding ∈ n.bindings, IsSound binding

/-- The empty table is canonical. -/
theorem canonical_empty : Canonical empty := ⟨.nil, nofun⟩

/-- A canonical table stays so with one more binding. -/
theorem Canonical.insert {n : Namespaces} (h : n.Canonical) {key : Option String}
    {address : String} (hbinding : IsSound (key, address)) : (n.insert key address).Canonical where
  nodup := nodup_keys_insert h.nodup key address
  sound := by
    intro binding hmem
    rcases mem_bindings_insert hmem with rfl | hmem
    · exact hbinding
    · exact h.sound binding hmem

/-- The components that a binding is written as. -/
def statement : Option String × String → List Component
  | (none, address) =>
    [written (.atKeyword "namespace"), space, .url address, written .semicolon]
  | (some name, address) =>
    [written (.atKeyword "namespace"), space, written (.ident name), space, .url address,
      written .semicolon]

/-- A binding is read from its statement in front of whatever is read behind it. -/
theorem IsSound.readFrom {binding : Option String × String} (h : IsSound binding)
    {rest : List Component} {text : String} (hrest : ReadFrom rest text) :
    ReadFrom (statement binding ++ rest) (bindingCss binding ++ text) := by
  have hword : IsName "namespace" ∧ identifierText "namespace" = "namespace" := by decide
  obtain ⟨key, address⟩ := binding
  have haddress := (Component.spells_url h.address).append hrest.semicolon
    (Component.delimited_append ⟨';', [], rfl, by decide⟩)
  cases key with
  | none =>
      have htext : bindingCss (none, address) ++ text = "@" ++ "namespace" ++
          (" " ++ ("url(" ++ stringText address ++ ")" ++ (";" ++ text))) := by
        rw [← String.toList_inj]
        simp [bindingCss]
      rw [htext]
      exact haddress.afterKeyword hword
  | some name =>
      have hname := Component.spells_ident (h.prefixed name rfl)
      have htext : bindingCss (some name, address) ++ text = "@" ++ "namespace" ++
          (" " ++ (identifierText name ++ " " ++
            ("url(" ++ stringText address ++ ")" ++ (";" ++ text)))) := by
        rw [← String.toList_inj]
        simp [bindingCss]
      rw [htext]
      exact (hname.append_space haddress).afterKeyword hword

/-- The statements of bindings are read from what they are written as, one behind the other, in
front of whatever is read behind them. -/
theorem readFrom_bindings_append {bindings : List (Option String × String)}
    (h : ∀ binding ∈ bindings, IsSound binding) {rest : List Component} {text : String}
    (hrest : ReadFrom rest text) : ReadFrom (bindings.flatMap statement ++ rest)
      (String.join (bindings.map bindingCss) ++ text) := by
  induction bindings with
  | nil => simpa using hrest
  | cons binding bindings ih =>
      obtain ⟨hbinding, hbindings⟩ := List.forall_mem_cons.mp h
      rw [List.flatMap_cons, List.map_cons, String.join_cons, List.append_assoc,
        String.append_assoc]
      exact hbinding.readFrom (ih hbindings)

/-- The statements of bindings are read from what they are written as, one behind the other. -/
theorem readFrom_bindings {bindings : List (Option String × String)}
    (h : ∀ binding ∈ bindings, IsSound binding) :
    ReadFrom (bindings.flatMap statement) (String.join (bindings.map bindingCss)) := by
  have hread := readFrom_bindings_append h Component.readFrom_nil
  rwa [List.append_nil, String.append_empty] at hread

/-- Between the keyword and the semicolon of a statement, its binding is read. -/
theorem bindingParser_reads (key : Option String) (address : String) :
    ∃ front, (∀ rest, statement (key, address) ++ rest =
        written (.atKeyword "namespace") :: (front ++ written .semicolon :: rest)) ∧
      ReadsAll Item.bindingParser front (.binding key address) ∧
      ∀ component ∈ front, isDelimiter [';', '{'] component = false := by
  have hspace : [space].all Component.isFiller = true := rfl
  have haddress : Reads urlOrString [space, .url address] (Exactly address []) :=
    reads_urlOrString address hspace
  cases key with
  | none =>
      -- What stands behind the keyword is no identifier, so it is not taken for a prefix.
      have hkey : Refuses ident [space, .url address] :=
        refuses_expect_of_bare rfl fun found hlook => by
          cases found with
          | leaf t => cases hlook
          | group opening contents closing => rfl
      refine ⟨[space, .url address], fun _ => rfl, ⟨[], rfl, ?_⟩, ?_⟩
      · exact hkey.attempt.andThen (haddress.andThen (reads_pure _ _))
      · simp only [List.forall_mem_cons]
        exact ⟨rfl, rfl, nofun⟩
  | some name =>
      have hkey : Reads ident [space, written (.ident name), space, .url address]
          (Exactly name [space, .url address]) :=
        reads_expect_written hspace rfl fun _ _ => rfl
      refine ⟨[space, written (.ident name), space, .url address], fun _ => rfl, ⟨[], rfl, ?_⟩, ?_⟩
      · exact hkey.attempt.andThen (haddress.andThen (reads_pure _ _))
      · simp only [List.forall_mem_cons]
        exact ⟨rfl, rfl, rfl, rfl, nofun⟩

/-- The statement of a binding is read as the binding, and what stands behind it is left. -/
theorem statementParser_reads (key : Option String) (address : String) (rest : List Component) :
    Reads (Item.statementParser Item.bindingParser) (statement (key, address) ++ rest)
      (Exactly (.binding key address) rest) := by
  obtain ⟨front, hstatement, hread, hfront⟩ := bindingParser_reads key address
  rw [hstatement]
  refine (reads_next rfl).bind fun component after hfound => ?_
  obtain ⟨-, rfl⟩ := hfound
  refine (reads_untilBefore hread.entirely hfront (by rintro _ ⟨⟩; rfl)).andThen ?_
  exact (Rule.reads_statementEnd_semicolon rest).andThen (reads_pure _ _)

end Namespaces

/-- The statement of a binding in the prologue is a step that makes the binding. -/
theorem Item.topLevelStep_statement (context : Context) (n : Namespaces) {c : Cursor}
    {key : Option String} {address : String} {rest : List Component}
    (hc : bareOf c.rest = bareOf (Namespaces.statement (key, address) ++ rest)) :
    ∃ after, c.isExhausted = false ∧ bareOf after.rest = bareOf rest ∧
      topLevelStep context ⟨.prologue, n⟩ c =
        (⟨.prologue, n.insert key address⟩, .ok (.binding key address) after) := by
  obtain ⟨front, hstatement, -, -⟩ := Namespaces.bindingParser_reads key address
  obtain ⟨item, after, hrun, _, hafter, rfl, rfl⟩ :=
    Namespaces.statementParser_reads key address rest c hc
  rw [hstatement] at hc
  obtain ⟨⟨kind, text, start⟩, others, hrest, rfl, -, -⟩ := Component.bareOf_eq_leaf_cons hc
  have hfirst : c.rest.dropWhile Component.isFiller =
      .leaf ⟨.atKeyword "namespace", text, start⟩ :: others := by
    rw [hrest]
    rfl
  have hkind : AtRule.ofComponent? (.leaf ⟨.atKeyword "namespace", text, start⟩) =
      some .binding := by
    show AtRule.ofName? (Text.lowerCase "namespace") = some .binding
    decide
  have hparser : statement? (.leaf ⟨.atKeyword "namespace", text, start⟩) =
      some bindingParser := by
    rw [statement?, hkind]
  refine ⟨after, by simp [Cursor.isExhausted_of_cons hfirst], hafter, ?_⟩
  rw [topLevelStep_of_statement? hfirst rfl rfl hparser, hrun]
  rfl

/-- A run over statements of bindings makes the bindings in their order, and comes to what stands
behind them. -/
theorem RuleList.exists_run_statements (context : Context) (n : Namespaces)
    (bindings : List (Option String × String)) {c : Cursor} {rest : List Component}
    (hc : bareOf c.rest = bareOf (bindings.flatMap Namespaces.statement ++ rest)) :
    ∃ after, bareOf after.rest = bareOf rest ∧ Run context ⟨.prologue, n⟩ c
      (bindings.map fun binding => .binding binding.1 binding.2)
      ⟨.prologue, n.insertAll bindings⟩ after := by
  induction bindings generalizing n c with
  | nil => exact ⟨c, hc, .refl _ c⟩
  | cons binding bindings ih =>
      obtain ⟨key, address⟩ := binding
      rw [List.flatMap_cons, List.append_assoc] at hc
      obtain ⟨mid, hmore, hmid, hstep⟩ := Item.topLevelStep_statement context n hc
      obtain ⟨after, hafter, hrun⟩ := ih (n.insert key address) hmid
      exact ⟨after, hafter, .cons (by simp [hmore]) hstep hrun⟩

/-- A run that comes to nothing is the whole one. -/
theorem RuleList.Run.topLevel_eq_of_nil {context : Context} {progress last : Progress}
    {c after : Cursor} {items : List Item} (h : Run context progress c items last after)
    (hafter : bareOf after.rest = bareOf []) :
    topLevel context progress c = ⟨items, none, last, after⟩ := by
  have hend : (!after.isExhausted) = false := by
    rw [Cursor.isExhausted, Component.all_isFiller_of_bareOf hafter]
    rfl
  have hlast : topLevel context last after = ⟨[], none, last, after⟩ := collect_of_not_more hend
  rw [h.topLevel_eq, hlast, List.append_nil]

/-- A run over statements of bindings makes the bindings in their order. -/
theorem RuleList.topLevel_statements (context : Context) (n : Namespaces)
    (bindings : List (Option String × String)) {c : Cursor}
    (hc : bareOf c.rest = bareOf (bindings.flatMap Namespaces.statement)) :
    ∃ after, topLevel context ⟨.prologue, n⟩ c =
      ⟨bindings.map fun binding => .binding binding.1 binding.2, none,
        ⟨.prologue, n.insertAll bindings⟩, after⟩ := by
  rw [← List.append_nil (bindings.flatMap Namespaces.statement)] at hc
  obtain ⟨after, hafter, hrun⟩ := exists_run_statements context n bindings hc
  exact ⟨after, hrun.topLevel_eq_of_nil hafter⟩

/-- An address in sound components is sound. -/
theorem Component.nullFree_of_address? {component : Component} {address : String}
    (h : component.All SoundTokens) (haddress : component.address? = some address) :
    NullFree address.toList := by
  unfold address? at haddress
  split at haddress
  · cases haddress
    exact h.token
  · cases haddress
    exact h.token
  · cases haddress
  · split at haddress
    · split at haddress
      · rename_i opening contents closing _ _ value hvalue
        have hmem : value ∈ contents := by
          have hmem : value ∈ significant contents := by simp [hvalue]
          exact (List.mem_filter.mp hmem).1
        have hstring := Hereditary.of_mem (Hereditary.contents h) hmem
        obtain ⟨t, closed, rfl, hkind⟩ := stringValue?_eq_some haddress
        have hsound := hstring.token
        rw [token, hkind] at hsound
        exact hsound
      · cases haddress
    · cases haddress

/-- A binding in sound components is sound. -/
theorem Namespaces.isSound_of_ofPrelude? {prelude : List Component} {key : Option String}
    {address : String} (h : SoundTokens prelude)
    (hitem : Item.ofPrelude? .binding prelude = some (.binding key address)) :
    IsSound (key, address) := by
  have hcomponent {component : Component} (hmem : component ∈ Component.significant prelude) :
      component.All SoundTokens := Hereditary.of_mem h (List.mem_filter.mp hmem).1
  unfold Item.ofPrelude? at hitem
  split at hitem
  · rename_i heq _
    cases heq
  · rename_i component _ hprelude
    obtain ⟨found, hfound, heq⟩ := Option.map_eq_some_iff.mp hitem
    cases heq
    exact ⟨nofun, Component.nullFree_of_address? (hcomponent (by simp [hprelude])) hfound⟩
  · rename_i first component _ hprelude
    obtain ⟨name, hname, hitem⟩ := Option.bind_eq_some_iff.mp hitem
    obtain ⟨found, hfound, heq⟩ := Option.bind_eq_some_iff.mp hitem
    cases heq
    refine ⟨?_, Component.nullFree_of_address? (hcomponent (by simp [hprelude])) hfound⟩
    rintro _ ⟨⟩
    have hmem : first ∈ Component.significant prelude := by simp [hprelude]
    have hsound := (hcomponent hmem).token
    obtain ⟨t, rfl, hkind⟩ := identName?_eq_some hname
    rw [Component.token, hkind] at hsound
    exact hsound
  · cases hitem

/-- A step keeps a table canonical. -/
theorem Item.Stands.canonical {context : Context} {progress next : Progress} {c after : Cursor}
    {item : Item} (h : Stands context progress c item next after) (hc : c.All SoundTokens)
    (hn : progress.namespaces.Canonical) : next.namespaces.Canonical := by
  cases h with
  | mark hrest hmark => exact hn
  | rule hrest hmark hlate hrule => exact hn
  | statement hphase hstatement hitem =>
      rename_i kind prelude
      cases item with
      | rule r => exact absurd hitem ofPrelude?_ne_rule
      | nothing => exact hn
      | binding key address =>
          have hkind := kind_of_ofPrelude? hitem
          subst hkind
          obtain ⟨keyword, ending, hrest, -, -⟩ := hstatement.starts
          have hinfix : prelude <:+: c.rest :=
            List.IsInfix.trans ⟨[keyword], ending ++ after.rest, by simp⟩
              (Component.suffix_of_dropWhile hrest).isInfix
          have hprelude : SoundTokens prelude := Hereditary.of_infix hc hinfix
          exact hn.insert (Namespaces.isSound_of_ofPrelude? hprelude hitem)

namespace Stylesheet

/-- The table of a stylesheet that is read is canonical. -/
theorem canonical_namespaces {mode : Mode} {text : String} {s : Stylesheet}
    (h : ofText mode text = .ok s) : s.namespaces.Canonical := by
  obtain ⟨source, hsource, herror, rfl⟩ := ofText_eq_ok_iff.mp h
  obtain ⟨hrun, -⟩ := RuleList.exists_run herror
  have hinvariant := hrun.invariant
    (fun progress c => progress.namespaces.Canonical ∧ c.All SoundTokens)
    ⟨Namespaces.canonical_empty, Cursor.all_ofSource hsource⟩
    fun ⟨hn, hc⟩ hstep => ⟨(Item.topLevelStep_eq_ok_iff.mp hstep).canonical hc hn,
      (Item.yields_topLevelStep _ _ hc (congrArg Prod.snd hstep)).2⟩
  exact hinvariant.1

/-- What a stylesheet writes of its namespaces in front of its rules is, in every mode, a stylesheet
by itself, without rules and with the same namespaces: the same prefixes and the same addresses in
the same order. -/
theorem ofText_namespaces_css {mode mode' : Mode} {text : String} {s : Stylesheet}
    (h : ofText mode text = .ok s) :
    s.cssWithNamespaces = (s.namespaces.css ++ ·) <$> s.css ∧
    ∃ s', ofText mode' s.namespaces.css = .ok s' ∧ s'.rules = [] ∧
      s'.namespaces = s.namespaces := by
  have hcanonical := canonical_namespaces h
  have hread := Namespaces.readFrom_bindings hcanonical.sound
  obtain ⟨source, hsource, hbare⟩ := hread.ofString
  obtain ⟨after, hlist⟩ := RuleList.topLevel_statements (.ofMode mode') .empty _ hbare
  have hnamespaces := Namespaces.ofList_bindings hcanonical.nodup
  refine ⟨rfl, _, ofText_eq_ok_iff.mpr ⟨source, hsource, ?_, rfl⟩, ?_, ?_⟩
  · rw [hlist]
  · rw [hlist]
    simp [RuleList.rules, Item.rule?, Function.comp_def]
  · rw [hlist]
    exact hnamespaces

/-- A prefix that is spelled like the address function, the default namespace, and a prefix that
has to be escaped. The first one is bound twice. -/
theorem ofText_namespaces_css_escaped :
    ∃ s, ofText .strict
        "@namespace url url(x);@namespace 'd';@namespace \\31 b \"y\";@namespace url 'z'" = .ok s ∧
      s.namespaces = ⟨[(some "url", "z"), (none, "d"), (some "1b", "y")]⟩ ∧
      s.cssWithNamespaces = (s.namespaces.css ++ ·) <$> s.css ∧
      ∃ s', ofText ⟨true, true⟩ s.namespaces.css = .ok s' ∧ s'.rules = [] ∧
        s'.namespaces = s.namespaces := by
  have hread : ∃ s, ofText .strict
      "@namespace url url(x);@namespace 'd';@namespace \\31 b \"y\";@namespace url 'z'" = .ok s ∧
      s.namespaces = ⟨[(some "url", "z"), (none, "d"), (some "1b", "y")]⟩ :=
    ⟨_, by cbv, by cbv⟩
  obtain ⟨s, hs, hnamespaces⟩ := hread
  exact ⟨s, hs, hnamespaces, ofText_namespaces_css hs⟩

end Stylesheet

end Css
