import Css.Proofs.Token.InFront

/-!
# Rows of tokens in front of another text

The tokens of a text are read back from it, and an unclosed one is the last of them. A row of tokens
that is read back in front of a text is read back in front of what follows in its place.
-/

namespace Css

namespace Token

variable {rest other : List Char}

/-- A token that is read back is not empty. -/
theorem ReadsBefore.text_ne_nil {t : Token} (h : t.ReadsBefore rest) : t.text ≠ [] := by
  obtain ⟨c, text, htext, -⟩ := h
  rw [htext]
  exact List.cons_ne_nil c text

/-- The tokens of a text are read back. -/
theorem readBack_tokensFrom (start : Position) (s : List Char) :
    ReadBack (tokensFrom start s) [] := by
  fun_induction tokensFrom start s with
  | case1 => trivial
  | case2 start c rest token ih =>
      have hsuffix := scan_suffix c rest
      refine ⟨?_, ih⟩
      rw [List.append_nil, textOf, flatMap_text_tokensFrom]
      obtain ⟨text, htext⟩ := hsuffix
      refine ⟨c, text, ?_, by rw [htext]⟩
      have happend := textBefore_append ((scan_suffix c rest).trans (List.suffix_cons c rest))
      refine List.append_cancel_right (?_ : _ ++ (scan c rest).2 = _)
      rw [List.cons_append, htext]
      exact happend

/-- Nothing is left behind an unclosed string. -/
theorem readString_of_unclosed {quote : Char} {s value after : List Char}
    (h : readString quote s = (value, .unclosed, after)) : after = [] := by
  fun_induction readString quote s generalizing value with
  | case1 | case4 => exact (Prod.mk.inj (Prod.mk.inj h).2).2.symm
  | case2 | case3 => cases h
  | case5 tail _ _ ih => exact ih h
  | case6 d tail _ found ending left hread _ _ ih =>
      obtain ⟨-, rfl, rfl⟩ := by simpa using h
      exact ih hread
  | case7 c tail _ _ _ found ending left hread ih =>
      obtain ⟨-, rfl, rfl⟩ := by simpa using h
      exact ih hread

/-- Nothing is left behind an unclosed address. -/
theorem readUrl_of_unclosed {s address after : List Char}
    (h : readUrl s = (address, .unclosed, after)) : after = [] := by
  fun_induction readUrl s generalizing address with
  | case1 | case3 => exact (Prod.mk.inj (Prod.mk.inj h).2).2.symm
  | case2 | case4 | case5 | case6 | case8 => cases h
  | case7 tail found ending left hread _ _ _ _ ih =>
      obtain ⟨-, rfl, rfl⟩ := by simpa using h
      exact ih hread
  | case9 c tail _ _ _ _ found ending left hread ih =>
      obtain ⟨-, rfl, rfl⟩ := by simpa using h
      exact ih hread

/-- Nothing is left behind an unclosed comment. -/
theorem readComment_of_unclosed {s text after : List Char}
    (h : readComment s = (text, false, after)) : after = [] := by
  fun_induction readComment s generalizing text with
  | case1 => exact (Prod.mk.inj (Prod.mk.inj h).2).2.symm
  | case2 => cases h
  | case3 c tail _ found closed left hread ih =>
      obtain ⟨-, rfl, rfl⟩ := by simpa using h
      exact ih hread

/-- A token that the end of the text cut off has nothing behind it. -/
theorem ReadsBefore.eq_nil {t : Token} (h : t.ReadsBefore rest)
    (hclosed : t.kind.isClosed = false) :
    rest = [] := by
  obtain ⟨c, text, -, hscan⟩ := h
  have hscanned := scanned_iff.mpr hscan
  generalize t.kind = kind at hscanned hclosed
  generalize text ++ rest = s at hscanned
  cases hscanned with
  | comment body text closed after hc hrest hread =>
      obtain rfl : closed = false := hclosed
      exact readComment_of_unclosed hread
  | string value ending after hc hread =>
      cases ending with
      | unclosed => exact readString_of_unclosed hread
      | closed | broken => cases hclosed
  | url name body address ending after hnumber hclose hstart hread hname hquote hurl =>
      cases ending with
      | unclosed => exact readUrl_of_unclosed hurl
      | closed | broken => cases hclosed
  | punctuation =>
      unfold punctuation at hclosed
      split at hclosed <;> cases hclosed
  | _ => cases hclosed

/-- A broken string is read in front of a line break. -/
theorem ReadsBefore.head?_of_badString {t : Token} (h : t.ReadsBefore rest) {value : String}
    (hkind : t.kind = .badString value) : rest.head? = some '\n' := by
  obtain ⟨c, text, -, hscan⟩ := h
  have hscanned := scanned_iff.mpr hscan
  generalize t.kind = kind at hscanned hkind
  generalize text ++ rest = s at hscanned
  cases hscanned with
  | string value ending after hc hread =>
      cases ending with
      | broken =>
          have hline := head?_readString_broken (by rw [hread])
          rwa [hread] at hline
      | closed | unclosed => cases hkind
  | url name body address ending => cases ending <;> cases hkind
  | punctuation =>
      unfold punctuation at hkind
      split at hkind <;> cases hkind
  | _ => cases hkind

/-- A token with a text behind it that stays is over, whatever follows that text. -/
theorem ReadsBefore.isOver_append {t : Token} {text : List Char}
    (h : t.ReadsBefore (text ++ rest)) (htext : text ≠ []) (other : List Char) :
    t.kind.IsOver (text ++ rest) (text ++ other) := by
  have hclosed : t.kind.isClosed := by
    by_contra hclosed
    have hnil := h.eq_nil (by simpa using hclosed)
    exact htext (List.append_eq_nil_iff.mp hnil).1
  have hne : text ++ rest ≠ [] := List.append_ne_nil_of_left_ne_nil htext rest
  cases hkind : t.kind with
  | badString value =>
      have hline := h.head?_of_badString hkind
      rw [List.head?_append_of_ne_nil text htext] at hline
      show (text ++ other).head? = some '\n'
      rw [List.head?_append_of_ne_nil text htext, hline]
  | badUrl address => exact hne
  | _ =>
      rw [hkind] at hclosed
      exact hclosed

/-- The last tokens of a row are among the last ones of a longer row. -/
theorem mem_take_reverse_cons {n : Nat} {tokens : List Token} {t u : Token}
    (h : u ∈ tokens.reverse.take n) : u ∈ (t :: tokens).reverse.take n := by
  rw [List.reverse_cons, List.take_append]
  exact List.mem_append_left _ h

/-- A row of tokens is read back in front of what follows in the place of what follows it. Only the
last token can see whether it is over, and only the last two tokens can be functions that look as
far as what follows the row. -/
theorem ReadBack.of_follows {tokens : List Token} (h : ReadBack tokens rest)
    (hover : ∀ t ∈ tokens.getLast?, t.kind.IsOver rest other) (hfollows : Follows rest other)
    (hresembles : ∀ t ∈ tokens.reverse.take 2, t.kind.isAddressFunction → Resembles rest other)
    (hcut : ∀ t ∈ tokens.getLast?, breaksOff t.text → GoOnAlike rest other) :
    ReadBack tokens other ∧ Follows (textOf tokens ++ rest) (textOf tokens ++ other) := by
  induction tokens with
  | nil => exact ⟨trivial, hfollows⟩
  | cons t tokens ih =>
      obtain ⟨hread, hrest⟩ := h
      have hlast : ∀ u ∈ tokens.getLast?, u ∈ (t :: tokens).getLast? := by
        intro u hu
        rw [List.getLast?_cons, Option.mem_def.mp hu]
        rfl
      obtain ⟨hread', hfollows'⟩ := ih hrest (fun u hu => hover u (hlast u hu))
        (fun u hu => hresembles u (mem_take_reverse_cons hu)) (fun u hu => hcut u (hlast u hu))
      have hover' : t.kind.IsOver (textOf tokens ++ rest) (textOf tokens ++ other) := by
        cases tokens with
        | nil => exact hover t rfl
        | cons u tokens =>
            exact hread.isOver_append
              (List.append_ne_nil_of_left_ne_nil hrest.1.text_ne_nil (textOf tokens)) other
      have hresembles' : t.kind.isAddressFunction →
          Resembles (textOf tokens ++ rest) (textOf tokens ++ other) := by
        intro haddress
        rcases tokens with _ | ⟨u, _ | ⟨v, tokens⟩⟩
        · exact hresembles t (by simp) haddress
        · exact (hresembles t (by simp) haddress).append (textOf [u])
        · have hu := List.length_pos_iff.mpr hrest.1.text_ne_nil
          have hv := List.length_pos_iff.mpr hrest.2.1.text_ne_nil
          refine resembles_append ?_ rest other
          simp only [textOf, List.flatMap_cons, List.length_append]
          omega
      have hcut' : breaksOff t.text →
          GoOnAlike (textOf tokens ++ rest) (textOf tokens ++ other) := by
        intro hbreaks
        cases tokens with
        | nil => exact hcut t rfl hbreaks
        | cons u tokens =>
            refine goOnAlike_append ?_ rest other
            exact List.append_ne_nil_of_left_ne_nil hrest.1.text_ne_nil (textOf tokens)
      refine ⟨⟨hread.of_follows hover' hfollows' hresembles' hcut', hread'⟩, ?_⟩
      have hfront := hfollows'.append hcut'
      rw [← List.append_assoc, ← List.append_assoc] at hfront
      exact hfront

/-- Behind whole tokens, the last ones may be replaced by others that are read back. -/
theorem ReadBack.replace {front back back' : List Token} (h : ReadBack (front ++ back) rest)
    (hwhole : ∀ t ∈ front, t.kind.isWhole) (hback : ReadBack back' other)
    (hfollows : Follows (textOf back ++ rest) (textOf back' ++ other))
    (hresembles : Resembles (textOf back ++ rest) (textOf back' ++ other))
    (halike : GoOnAlike (textOf back ++ rest) (textOf back' ++ other)) :
    ReadBack (front ++ back') other := by
  have hfront := (readBack_append.mp h).1
  exact readBack_append.mpr
    ⟨(hfront.of_follows
      (fun t ht => Kind.isOver_of_isWhole (hwhole t (List.mem_of_getLast? ht)) _ _)
      hfollows (fun _ _ _ => hresembles) fun _ _ _ => halike).1, hback⟩

end Token

end Css
