import Css.Proofs.Stylesheet.Edit

/-!
# Bindings in a stylesheet without rules

A statement that is inserted is read into a copy of the table in which prefixes are looked up. What
the copy binds and the table does not is bound in the stylesheet, `Namespaces.insertAll_newSince`.
So a statement binds its prefix in the stylesheet, unless the table that is passed along binds it to
the same address already, `Stylesheet.insertText_binding`.
-/

namespace Css

open Css.Parser

namespace Namespaces

variable {n : Namespaces} {key : Option String} {address : String}

/-- A binding goes to the place of its key, if there is one, and to the end otherwise. -/
theorem exists_bindings_insert (n : Namespaces) (key : Option String) (address : String) :
    ∃ front back, n.bindings = front ++ ((n.get? key).map (key, ·)).toList ++ back ∧
      (n.insert key address).bindings = front ++ (key, address) :: back := by
  obtain ⟨bindings⟩ := n
  unfold insert get?
  induction bindings with
  | nil => exact ⟨[], [], rfl, rfl⟩
  | cons first rest ih =>
      obtain ⟨k, a⟩ := first
      by_cases hk : k = key
      · subst hk
        exact ⟨[], rest, by simp, by simp [insertIn]⟩
      · obtain ⟨front, back, hrest, hinsert⟩ := ih
        dsimp only at hrest hinsert ⊢
        have hbeq : (key == k) = false := by simpa using Ne.symm hk
        refine ⟨(k, a) :: front, back, ?_, ?_⟩
        · rw [List.lookup_cons, hbeq, List.cons_append, List.cons_append]
          exact congrArg _ hrest
        · rw [insertIn, if_neg hk, hinsert, List.cons_append]

/-- A binding that the table has already is not added. -/
theorem insert_eq_self_iff : n.insert key address = n ↔ n.get? key = some address := by
  constructor
  · intro h
    rw [← h, get?_insert, if_pos rfl]
  · intro h
    obtain ⟨front, back, hbindings, hinsert⟩ := n.exists_bindings_insert key address
    rw [h] at hbindings
    obtain ⟨bindings⟩ := n
    simp only [insert, mk.injEq] at hinsert ⊢
    rw [hinsert]
    simpa using hbindings.symm

/-- If no key stands twice in a table, each of its bindings is the one of its key. -/
theorem get?_of_mem (h : n.keys.Nodup) (hmem : (key, address) ∈ n.bindings) :
    n.get? key = some address := by
  obtain ⟨bindings⟩ := n
  unfold keys get? at *
  dsimp only at *
  induction bindings with
  | nil => cases hmem
  | cons first rest ih =>
      obtain ⟨k, a⟩ := first
      rw [List.map_cons, List.nodup_cons] at h
      rcases List.mem_cons.mp hmem with heq | hrest
      · cases heq
        simp
      · have hne : key ≠ k := fun heq => h.1 (List.mem_map.mpr ⟨(key, address), hrest, heq⟩)
        have hbeq : (key == k) = false := by simpa using hne
        rw [List.lookup_cons, hbeq]
        exact ih h.2 hrest

/-- A table with one more binding has this binding more, unless it was there. -/
theorem newSince_insert (h : n.keys.Nodup) (key : Option String) (address : String) :
    (n.insert key address).newSince n =
      if n.get? key = some address then [] else [(key, address)] := by
  obtain ⟨front, back, hbindings, hinsert⟩ := n.exists_bindings_insert key address
  -- what stands around the place of the key is in the table already
  have hold (part : List (Option String × String))
      (hpart : ∀ binding ∈ part, binding ∈ n.bindings) :
      newSince ⟨part⟩ n = [] := by
    refine List.filter_eq_nil_iff.mpr fun binding hmem => ?_
    simp [get?_of_mem h (hpart binding hmem)]
  have hfront := hold front fun binding hmem => by simp [hbindings, hmem]
  have hback := hold back fun binding hmem => by simp [hbindings, hmem]
  have hsplit : (n.insert key address).newSince n =
      newSince ⟨front⟩ n ++ newSince ⟨[(key, address)]⟩ n ++ newSince ⟨back⟩ n := by
    rw [newSince, hinsert, ← List.singleton_append, ← List.append_assoc, List.filter_append,
      List.filter_append]
    rfl
  rw [hsplit, hfront, hback]
  by_cases hget : n.get? key = some address <;> simp [newSince, hget]

/-- What a copy of a table has more by a binding, added to another table, is the binding, unless the
table had it. -/
theorem insertAll_newSince {table : Namespaces} (h : table.keys.Nodup) (n : Namespaces)
    (key : Option String) (address : String) :
    n.insertAll ((table.insert key address).newSince table) =
      if table.get? key = some address then n else n.insert key address := by
  rw [newSince_insert h]
  split <;> rfl

end Namespaces

namespace Item

variable {context : Context} {progress next : Progress} {text : String} {key : Option String}
  {address : String}

/-- The text is a statement that binds the key to the address, and nothing else. -/
def IsBinding (text : String) (key : Option String) (address : String) : Prop :=
  ∃ c prelude after, Cursor.ofText text = .ok c ∧ IsStatement .binding prelude c after ∧
    ofPrelude? .binding prelude = some (.binding key address) ∧ after.isExhausted = true

/-- A step reads a binding in the prologue, from a statement that makes it. -/
theorem step_eq_ok_binding_iff {c after : Cursor} :
    step context progress c = (next, .ok (.binding key address) after) ↔
      progress.phase = .prologue ∧ next = ⟨.prologue, progress.namespaces.insert key address⟩ ∧
        ∃ prelude, IsStatement .binding prelude c after ∧
          ofPrelude? .binding prelude = some (.binding key address) := by
  obtain ⟨phase, namespaces⟩ := progress
  constructor
  · intro h
    cases hrest : c.rest.dropWhile Component.isFiller with
    | nil =>
        rw [step_of_isExhausted (c.isExhausted_iff.mpr hrest)] at h
        cases h
    | cons first rest =>
        by_cases hbody : phase = .body ∨ AtRule.lateFault? first = none
        · rw [step_of_rule hrest hbody, Prod.mk.injEq, map_eq_ok_iff] at h
          obtain ⟨-, rule, -, ⟨⟩⟩ := h
        · obtain ⟨hphase, hlate⟩ := not_or.mp hbody
          obtain rfl : phase = .prologue := by
            cases phase with
            | prologue => rfl
            | body => exact absurd rfl hphase
          obtain ⟨contents, hcontents⟩ :=
            Option.ne_none_iff_exists'.mp (mt statement?_eq_none_iff.mp hlate)
          obtain ⟨kind, hkind, hread⟩ := entirely_statement?_eq_ok_iff hcontents
          rw [step_of_statement? hrest rfl hcontents] at h
          split at h
          · rename_i hparser
            cases h
            obtain ⟨keyword, prelude, ending, hkeyword, hprelude, hends, hstop, hitem⟩ :=
              (statementParser_eq_ok_iff hread).mp hparser
            cases hrest.symm.trans hkeyword
            obtain rfl := kind_of_ofPrelude? hitem
            exact ⟨rfl, rfl, prelude,
              ⟨⟨_, ending, hkeyword, hkind, hends⟩, hprelude, hstop⟩, hitem⟩
          · cases h
  · rintro ⟨hphase, rfl, prelude, hstatement, hitem⟩
    dsimp only at hphase
    subst hphase
    obtain ⟨keyword, ending, hrest, hkind, -⟩ := hstatement.starts
    have hstep : topLevelStep context ⟨.prologue, namespaces⟩ c =
        (⟨.prologue, namespaces.insert key address⟩, .ok (.binding key address) after) :=
      topLevelStep_eq_ok_iff.mpr (.statement rfl hstatement hitem)
    rwa [topLevelStep_eq_step hrest (isHtmlMark_of_ofComponent? hkind)] at hstep

/-- A text is a binding in the prologue if and only if it is a statement that makes it. -/
theorem ofText_eq_ok_binding_iff :
    ofText context progress text = (next, .ok (.binding key address)) ↔
      progress.phase = .prologue ∧ next = ⟨.prologue, progress.namespaces.insert key address⟩ ∧
        IsBinding text key address := by
  rw [ofText_eq_ok_iff]
  constructor
  · rintro ⟨c, mid, hc, -, hstep, hend⟩
    obtain ⟨hphase, hnext, prelude, hstatement, hitem⟩ := step_eq_ok_binding_iff.mp hstep
    exact ⟨hphase, hnext, c, prelude, mid, hc, hstatement, hitem, hend⟩
  · rintro ⟨hphase, hnext, c, prelude, mid, hc, hstatement, hitem, hend⟩
    obtain ⟨keyword, ending, hrest, -, -⟩ := hstatement.starts
    exact ⟨c, mid, hc, Cursor.isExhausted_of_cons hrest,
      step_eq_ok_binding_iff.mpr ⟨hphase, hnext, prelude, hstatement, hitem⟩, hend⟩

end Item

namespace Stylesheet

/-- A statement that binds a prefix can be inserted into a stylesheet without rules, whatever table
is passed along. It changes nothing but the binding of this prefix in the table of the stylesheet,
and it makes the binding unless the table in which prefixes are looked up has it already. So the
table of the stylesheet is the old one with the binding if and only if it has the binding wherever
the other table has. -/
theorem insertText_binding {sheet : Stylesheet} {passed : Option Namespaces} {text : String}
    {index : Option Int} {key : Option String} {address : String} (hrules : sheet.rules = [])
    (hindex : index.getD 0 = 0) (htext : Item.IsBinding text key address)
    (hkeys : (passed.getD sheet.namespaces).keys.Nodup) :
    let table := passed.getD sheet.namespaces
    ∃ namespaces, (Edit.insertText text index).perform ⟨sheet, passed⟩ =
        .ok (some 0) ⟨{ sheet with namespaces }, passed⟩ ∧
      (∀ k, namespaces.get? k =
        if k = key ∧ table.get? key ≠ some address then some address else sheet.namespaces.get? k) ∧
      sheet.namespaces.keys <+: namespaces.keys ∧
      (namespaces = sheet.namespaces.insert key address ↔
        (table.get? key = some address → sheet.namespaces.get? key = some address)) := by
  intro table
  have hitem : Item.ofText (.ofMode sheet.mode) ⟨.prologue, table⟩ text = _ :=
    Item.ofText_eq_ok_binding_iff.mpr ⟨rfl, rfl, htext⟩
  have hmerge := Namespaces.insertAll_newSince hkeys sheet.namespaces key address
  refine ⟨if table.get? key = some address then sheet.namespaces
    else sheet.namespaces.insert key address, ?_, ?_, ?_, ?_⟩
  · exact Edit.perform_eq_ok_iff.mpr
      ⟨rfl, .inr ⟨hrules, hindex, rfl, _, _, hitem, rfl, by rw [hmerge]⟩⟩
  · intro k
    split
    · simp_all
    · rename_i hnew
      simp only [Namespaces.get?_insert, ne_eq, hnew, not_false_eq_true, and_true]
  · split
    · exact List.prefix_rfl
    · exact sheet.namespaces.keys_prefix_insert key address
  · split
    · rename_i hold
      rw [eq_comm, Namespaces.insert_eq_self_iff]
      exact ⟨fun h _ => h, fun h => h hold⟩
    · rename_i hnew
      exact ⟨fun _ h => absurd h hnew, fun _ => rfl⟩

/-- A prefix that the table passed along binds to another address is bound in the stylesheet, and
keeps its place there. -/
theorem insertText_binding_other : ∃ namespaces,
    (Edit.insertText " @Namespace q url(v)" (some 0)).perform
        ⟨{ Stylesheet.empty with namespaces := ⟨[(some "q", "u"), (none, "u")]⟩ },
          some ⟨[(some "q", "w")]⟩⟩ =
      .ok (some 0) ⟨{ Stylesheet.empty with namespaces }, some ⟨[(some "q", "w")]⟩⟩ ∧
    namespaces = ⟨[(some "q", "v"), (none, "u")]⟩ := by
  have hread : Item.ofText (.ofMode .strict) ⟨.prologue, .empty⟩ " @Namespace q url(v)" =
      (⟨.prologue, Namespaces.empty.insert (some "q") "v"⟩, .ok (.binding (some "q") "v")) := by
    cbv
  obtain ⟨-, -, htext⟩ := Item.ofText_eq_ok_binding_iff.mp hread
  obtain ⟨namespaces, hperform, -, -, hiff⟩ := @insertText_binding
    { Stylesheet.empty with namespaces := ⟨[(some "q", "u"), (none, "u")]⟩ }
    (some ⟨[(some "q", "w")]⟩) _ (some 0) _ _ rfl rfl htext (by decide)
  exact ⟨namespaces, hperform, (hiff.mpr (by decide)).trans (by decide)⟩

/-- **A binding of the table that is passed along is not made.** The stylesheet does not have the
binding, and the statement that makes it is inserted, but the stylesheet is left as it was. -/
theorem not_insertText_binding :
    Item.IsBinding "@namespace p \"u\";" (some "p") "u" ∧
      (Edit.insertText "@namespace p \"u\";" none).perform ⟨.empty, some ⟨[(some "p", "u")]⟩⟩ =
        .ok (some 0) ⟨.empty, some ⟨[(some "p", "u")]⟩⟩ ∧
      Stylesheet.empty.namespaces ≠ Stylesheet.empty.namespaces.insert (some "p") "u" := by
  have hread : Item.ofText (.ofMode .strict) ⟨.prologue, .empty⟩ "@namespace p \"u\";" =
      (⟨.prologue, Namespaces.empty.insert (some "p") "u"⟩, .ok (.binding (some "p") "u")) := by
    cbv
  obtain ⟨-, -, htext⟩ := Item.ofText_eq_ok_binding_iff.mp hread
  exact ⟨htext, by cbv, by decide⟩

end Stylesheet

end Css
