import Css.Proofs.Component.Closed
import Css.Proofs.Component.Lexed
import Css.Proofs.Declaration.Accepts
import Css.Proofs.Parser.Run
import Css.Stylesheet.Basic

/-!
# Single declarations

Nothing bounds the value of a single declaration, so it may hold semicolons. The list of
declarations that the same text is holds the single one and no other if and only if no semicolon
stands outside of the groups in the text, `Declarations.ofText_singleton_iff`.
-/

namespace Css

open Css.Parser
open Component (isInside entries significant significant_append closedTextOf closedTextOf_append
  keptText Lexed StandsBefore)

/-- Trimming keeps every character that is not blank. -/
theorem Text.count_trim {d : Char} (hd : isBlank d = false) (text : List Char) :
    (trim text).count d = text.count d := by
  have hdrop (text : List Char) : (text.dropWhile isBlank).count d = text.count d := by
    have hskipped : (text.takeWhile isBlank).count d = 0 := by
      refine List.count_eq_zero.mpr fun hmem => ?_
      rw [List.mem_takeWhile_imp hmem] at hd
      cases hd
    conv_rhs => rw [← List.takeWhile_append_dropWhile (p := isBlank) (l := text)]
    rw [List.count_append, hskipped, Nat.zero_add]
  rw [trim, List.count_reverse, hdrop, List.count_reverse, hdrop]

/-- A token that ends a segment is written as the character that it ends it at. -/
theorem Token.ReadsBefore.text_of_delimiter? {t : Token} {rest : List Char} (h : t.ReadsBefore rest)
    {d : Char} (hd : (Component.leaf t).delimiter? = some d) : t.text = [d] := by
  obtain ⟨c, text, htext, hscan⟩ := h
  have hscanned := scanned_scan c (text ++ rest)
  rw [hscan] at hscanned
  obtain ⟨kind, _, start⟩ := t
  generalize hfollowing : text ++ rest = following at hscanned
  dsimp only at hscanned htext
  rw [htext]
  cases hscanned with
  | punctuation =>
      obtain rfl := List.append_left_eq_self.mp hfollowing
      have hc : c = d := by
        revert hd
        unfold punctuation
        split <;> simp [Component.delimiter?]
      rw [hc]
  | string value ending => cases ending <;> cases hd
  | url name body address ending => cases ending <;> cases hd
  | _ => cases hd

namespace Component

/-- A semicolon in a source is written as one. -/
theorem closedText_of_isDelimiter {component : Component} (h : Lexed [component])
    (hend : isDelimiter [';'] component = true) : component.closedText = [';'] := by
  obtain ⟨closer, rest, hstands⟩ := h.stands
  cases component with
  | group opening contents closing =>
      obtain ⟨kind, text, start⟩ := opening
      simp only [isDelimiter, delimiter?] at hend
      split at hend <;> cases hend
  | leaf t =>
      have hd : (leaf t).delimiter? = some ';' := by
        unfold isDelimiter at hend
        cases hd : (leaf t).delimiter? with
        | none => simp [hd] at hend
        | some d => simpa [hd] using hend
      have htext := hstands.readBack.1.text_of_delimiter? hd
      have hclosed : t.kind.isClosed = true := by
        obtain ⟨kind, text, start⟩ := t
        cases kind <;> first | rfl | cases hd
      rw [closedText, if_pos hclosed, htext]

/-- The kept text holds a semicolon more than that of what stands in front of it. -/
theorem keptText_takeWhile_ne {components : List Component} (h : Lexed components)
    {component : Component} (hmem : component ∈ components)
    (hend : isDelimiter [';'] component = true) :
    keptText (components.takeWhile (isInside [';'])) ≠ keptText components := by
  -- the texts are told apart by how many semicolons they hold, which trimming keeps
  have hblank : Text.isBlank ';' = false := by decide
  have hcount (components : List Component) : (keptText components).toList.count ';' =
      (closedTextOf (components.rdropWhile isFiller)).count ';' := by
    rw [keptText, String.toList_ofList, Text.count_trim hblank]
  obtain ⟨ending, back, hback⟩ : ∃ ending back,
      components.dropWhile (isInside [';']) = ending :: back := by
    refine List.exists_cons_of_ne_nil fun hnil => ?_
    have hinside := List.dropWhile_eq_nil_iff.mp hnil component hmem
    simp [isInside, hend] at hinside
  have hending : isDelimiter [';'] ending = true :=
    (Cursor.mk components default).isDelimiter_head?_skip ending (congrArg List.head? hback)
  have hsplit := List.takeWhile_append_dropWhile (p := isInside [';']) (l := components)
  rw [hback] at hsplit
  have hlexed : Lexed [ending] := Hereditary.of_mem h (hsplit ▸ by simp)
  intro heq
  have hsame := congrArg (fun text => text.toList.count ';') heq
  nth_rewrite 2 [← hsplit] at hsame
  rw [hcount, hcount, rdropWhile_append_cons (isFiller_of_isDelimiter hending),
    closedTextOf_append, List.count_append, closedTextOf, closedText_of_isDelimiter hlexed hending,
    List.count_append, List.count_singleton_self] at hsame
  obtain ⟨gap, hgap⟩ := List.rdropWhile_prefix isFiller (components.takeWhile (isInside [';']))
  nth_rewrite 2 [← hgap] at hsame
  rw [closedTextOf_append, List.count_append] at hsame
  omega

end Component

namespace PropertyValue

/-- A value that holds a delimiter is kept as it is written. -/
theorem ofComponents_of_isDelimiter {components : List Component} {component : Component}
    (hmem : component ∈ components) {delimiters : List Char}
    (hend : isDelimiter delimiters component = true) :
    ofComponents components = .specified (keptText components) := by
  have hwide : wide? components = none := by
    unfold wide?
    split
    · rename_i other hsignificant
      have hfiller := isFiller_of_isDelimiter hend
      have hself : component ∈ significant components :=
        List.mem_filter.mpr ⟨hmem, by simp [hfiller]⟩
      obtain rfl : component = other := by simpa [hsignificant] using hself
      simp [keyword?, identName?_of_isDelimiter hend]
    · rfl
  simp [ofComponents, hwide]

/-- In front of a semicolon in it, a value of a source is another one. -/
theorem ofComponents_takeWhile_ne {components : List Component} (h : Lexed components)
    {component : Component} (hmem : component ∈ components)
    (hend : isDelimiter [';'] component = true) :
    ofComponents (components.takeWhile (isInside [';'])) ≠ ofComponents components := by
  rw [ofComponents_of_isDelimiter hmem hend]
  intro heq
  unfold ofComponents at heq
  cases hwide : wide? (components.takeWhile (isInside [';'])) with
  | some keyword => simp [hwide] at heq
  | none =>
      simp only [hwide, Option.elim, PropertyValue.specified.injEq] at heq
      exact Component.keptText_takeWhile_ne h hmem hend heq

end PropertyValue

namespace Declaration

variable {name : String} {value components : List Component} {important : Bool}

/-- A name is significant. -/
theorem Parts.significant_ne_nil (h : Parts name value important components) :
    significant components ≠ [] := by
  obtain ⟨gap, component, rest, rfl, -, hname, -⟩ := parts_iff.mp h
  rw [significant_append, Component.significant_cons (Component.isFiller_of_identName? hname)]
  simp

/-- A value stands in the declaration. -/
theorem Parts.value_infix (h : Parts name value important components) : value <:+: components := by
  obtain ⟨hname, hvalue⟩ := h
  rename_i front rest text start
  obtain ⟨hinside, hmark⟩ := hvalue
  rename_i tail
  exact ⟨front ++ [.leaf ⟨.colon, text, start⟩], tail, by simp⟩

/-- No delimiter stands with a single identifier. -/
theorem isDelimiter_of_shows {α : Type} {value? : Component → Option α} {a : α}
    {part : List Component} (h : Shows value? a part)
    (hvalue : ∀ component, value? component = some a → identName? component ≠ none)
    {delimiters : List Char} :
    ∀ component ∈ part, isDelimiter delimiters component = false := by
  obtain ⟨word, hword, hshown⟩ := h
  intro component hmem
  by_contra hend
  rw [Bool.not_eq_false] at hend
  have hself : component ∈ significant part :=
    List.mem_filter.mpr ⟨hmem, by simp [isFiller_of_isDelimiter hend]⟩
  obtain rfl : component = word := by simpa [hword] using hself
  exact hvalue component hshown (identName?_of_isDelimiter hend)

/-- In a mark of importance stands no semicolon. -/
theorem Mark.isDelimiter_eq_false {tail : List Component} (h : Mark important tail) :
    ∀ component ∈ tail, isDelimiter [';'] component = false := by
  cases h with
  | absent => simp
  | present hword =>
      refine List.forall_mem_cons.mpr ⟨rfl, isDelimiter_of_shows hword fun component hkeyword => ?_⟩
      rintro hnone
      simp [keyword?, hnone] at hkeyword

/-- A semicolon outside of groups stands in the value. -/
theorem Parts.mem_value (h : Parts name value important components) {component : Component}
    (hmem : component ∈ components) (hend : isDelimiter [';'] component = true) :
    component ∈ value := by
  obtain ⟨hname, hvalue⟩ := h
  obtain ⟨hinside, hmark⟩ := hvalue
  have hfront : component ∈ _ → isDelimiter [';'] component = false :=
    isDelimiter_of_shows hname (fun component hname => by simp [hname]) component
  simp only [List.mem_append, List.mem_cons] at hmem
  rcases hmem with hmem | rfl | hmem | hmem
  · simp [hfront hmem] at hend
  · cases hend
  · exact hmem
  · simp [hmark.isDelimiter_eq_false component hmem] at hend

/-- In front of the first semicolon stand the name and the part of the value in front of it. -/
theorem Parts.takeWhile (h : Parts name value important components) {component : Component}
    (hmem : component ∈ value) (hend : isDelimiter [';'] component = true) :
    Parts name (value.takeWhile (isInside [';'])) false
      (components.takeWhile (isInside [';'])) := by
  obtain ⟨hname, hvalue⟩ := h
  rename_i front rest text start
  obtain ⟨hinside, hmark⟩ := hvalue
  rename_i tail
  have hfront : ∀ component ∈ front, isInside [';'] component = true := by
    simpa [isInside] using
      isDelimiter_of_shows hname (fun component hname => by simp [hname])
  have hshort : (value.takeWhile (isInside [';'])).length ≠ value.length := by
    intro hlength
    have hself := (List.takeWhile_prefix (isInside [';'])).eq_of_length hlength
    have hcomponent := List.takeWhile_eq_self_iff.mp hself component hmem
    simp [isInside, hend] at hcomponent
  rw [List.takeWhile_append_of_pos hfront, List.takeWhile_cons_of_pos rfl, List.takeWhile_append,
    if_neg hshort]
  refine .intro hname ?_
  have hcut : ∀ other ∈ value.takeWhile (isInside [';']), isDelimiter ['!'] other = false :=
    fun other hother => hinside other ((List.takeWhile_prefix _).subset hother)
  simpa using ValueParts.intro hcut .absent

/-- A text is a declaration if its components spell one. -/
theorem ofText_eq_ok_iff {context : Context} {text : String} {c : Cursor} {d : Declaration}
    (hc : Cursor.ofText text = .ok c) :
    ofText context text = .ok d ↔ Spelled context d c.rest := by
  simp only [ofText, run_eq_ok_iff_of_ofText hc, parser_eq_ok_iff, exists_and_left, exists_eq,
    and_true]
  rfl

end Declaration

namespace Declarations

/-- A text is a list of declarations if its entries spell them. -/
theorem ofText_eq_ok_iff {context : Context} {text : String} {c : Cursor} {list : Declarations}
    (hc : Cursor.ofText text = .ok c) :
    ofText context text = .ok list ↔
      List.Forall₂ (fun segment d => Declaration.Spelled context d segment.contents)
        (entries c.rest) list.declarations := by
  rw [ofText, run_eq_ok_iff_of_ofText hc, parser_eq_ok_iff]

/-- The list that the text of a single declaration is holds this declaration and no other if and
only if no semicolon stands in the text outside of groups. -/
theorem ofText_singleton_iff {context : Context} {text : String} {c : Cursor} {d : Declaration}
    (hc : Cursor.ofText text = .ok c) (hd : Declaration.ofText context text = .ok d) :
    ofText context text = .ok ⟨[d]⟩ ↔
      ∀ component ∈ c.rest, isDelimiter [';'] component = false := by
  have hlexed : Lexed c.rest := by
    obtain ⟨source, hsource, rfl⟩ := Cursor.ofText_eq_ok_iff.mp hc
    exact Source.lexed_ofTokens hsource
  obtain ⟨name, value, important, hparts, hallowed, rfl⟩ :=
    (Declaration.ofText_eq_ok_iff hc).mp hd
  rw [ofText_eq_ok_iff hc]
  constructor
  · intro hlist component hmem
    by_contra hend
    rw [Bool.not_eq_false] at hend
    have hvalue := hparts.mem_value hmem hend
    -- the first entry ends at the first semicolon in the value, so it spells another declaration
    have hcut := hparts.takeWhile hvalue hend
    rw [Component.entries_eq_cons hcut.significant_ne_nil] at hlist
    obtain ⟨name', value', important', hparts', -, heq⟩ := (List.forall₂_cons.mp hlist).1
    obtain ⟨rfl, rfl, rfl⟩ := hcut.unique hparts'
    refine PropertyValue.ofComponents_takeWhile_ne ?_ hvalue hend
      (congrArg Declaration.value heq).symm
    exact Hereditary.of_infix hlexed hparts.value_infix
  · intro hnone
    have hinside : ∀ component ∈ c.rest, isInside [';'] component = true := by
      simpa [isInside] using hnone
    have htake := List.takeWhile_eq_self_iff.mpr hinside
    have hentries : entries c.rest = [⟨c.rest, none⟩] := by
      rw [Component.entries_eq_cons (by rw [htake]; exact hparts.significant_ne_nil), htake,
        List.dropWhile_eq_nil_iff.mpr hinside]
      rfl
    rw [hentries]
    exact .cons ⟨name, value, important, hparts, hallowed, rfl⟩ .nil

/-- A semicolon inside of a group belongs to the value in the list as well. -/
theorem ofText_singleton_group : ∃ c d,
    Cursor.ofText "a:[b;c]" = .ok c ∧
      Declaration.ofText ((Context.ofMode .strict).inRule .style) "a:[b;c]" = .ok d ∧
      (∀ component ∈ c.rest, isDelimiter [';'] component = false) ∧
      Declarations.ofText ((Context.ofMode .strict).inRule .style) "a:[b;c]" = .ok ⟨[d]⟩ := by
  obtain ⟨c, d, hc, hd, hnone⟩ : ∃ c d, Cursor.ofText "a:[b;c]" = .ok c ∧
      Declaration.ofText ((Context.ofMode .strict).inRule .style) "a:[b;c]" = .ok d ∧
      ∀ component ∈ c.rest, isDelimiter [';'] component = false :=
    ⟨_, _, by cbv, by cbv, by simp [isDelimiter, Component.delimiter?]⟩
  exact ⟨c, d, hc, hd, hnone, (ofText_singleton_iff hc hd).mpr hnone⟩

/-- **A single declaration goes on over semicolons.** The value of the single declaration is all of
the text behind the first colon, but two declarations are listed. -/
theorem not_ofText_singleton : ∃ d list,
    Declaration.ofText ((Context.ofMode .strict).inRule .style) "a:b;c:d" = .ok d ∧
      Declarations.ofText ((Context.ofMode .strict).inRule .style) "a:b;c:d" = .ok list ∧
      list.declarations ≠ [d] :=
  ⟨⟨none, "a", .specified "b;c:d", false⟩,
    ⟨[⟨none, "a", .specified "b", false⟩, ⟨none, "c", .specified "d", false⟩]⟩,
    by cbv, by cbv, by decide⟩

end Declarations

end Css
