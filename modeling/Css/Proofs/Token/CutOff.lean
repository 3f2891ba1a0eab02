import Css.Proofs.Token.Rows

/-!
# Tokens that the end of the text cuts off

A string, an address and a comment can be cut off by the end of the text. What is written for them
is closed and starts with a character that continues no more than what the source has in its place,
so whatever stands in front is read as before.
-/

namespace Css

namespace Token

variable {rest : List Char} {t : Token}

/-- What is known of a token that the end of the text cut off, and of the text that says it. -/
inductive CutOff : Kind → List Char → Prop where
  | string {value : String} {quote : Char} {text : List Char} (hquote : isQuote quote) :
      CutOff (.string value false) (quote :: text)
  | url {address : String} {text : List Char} (hname : startsName text) :
      CutOff (.url address false) text
  | comment {body : List Char} (hread : readComment body = (body, false, [])) :
      CutOff (.comment (String.ofList ('/' :: '*' :: body)) false) ('/' :: '*' :: body)

/-- A token that is not closed was cut off. -/
theorem ReadsBefore.cutOff (h : t.ReadsBefore rest) (hclosed : t.kind.isClosed = false) :
    CutOff t.kind t.text := by
  have hnil := h.eq_nil hclosed
  obtain ⟨c, text, htext, hscan⟩ := h
  rw [htext]
  have hscanned := scanned_iff.mpr hscan
  generalize hs : text ++ rest = s at hscanned
  rw [hnil, List.append_nil] at hs
  generalize t.kind = kind at hscanned hclosed
  cases hscanned with
  | comment body text closed after hc hrest hread =>
      obtain rfl : closed = false := hclosed
      have hbody := readComment_append body
      rw [hread, hnil, List.append_nil] at hbody
      rw [hnil] at hread
      subst hs hc hrest hbody
      exact .comment hread
  | string value ending after hc hread =>
      cases ending with
      | unclosed => exact .string hc
      | closed | broken => cases hclosed
  | url name body address ending after hnumber hclose hstart hread hname hquote hurl =>
      cases ending with
      | unclosed => exact .url (hs ▸ hstart)
      | closed | broken => cases hclosed
  | punctuation =>
      unfold punctuation at hclosed
      split at hclosed <;> cases hclosed
  | _ => cases hclosed

/-- A comment that was cut off is closed by its end mark, whatever follows. -/
theorem readComment_append_close {s text after : List Char}
    (h : readComment s = (text, false, after)) (other : List Char) :
    readComment (text ++ '*' :: '/' :: other) = (text ++ ['*', '/'], true, other) := by
  fun_induction readComment s generalizing text with
  | case1 =>
      obtain rfl : [] = text := (Prod.mk.inj h).1
      rfl
  | case2 => cases h
  | case3 c tail hopen found closed left hread ih =>
      obtain ⟨rfl, rfl, rfl⟩ := by simpa using h
      have hfound := ih hread
      rw [List.cons_append, readComment, hfound]
      · rfl
      · rintro rest rfl htext
        cases found with
        | nil => cases htext
        | cons d found =>
            obtain ⟨rfl, -⟩ := List.cons.inj htext
            have htail := readComment_append tail
            rw [hread] at htail
            exact hopen (found ++ left) rfl htail.symm

/-- A comment that was cut off is read back with its end mark, whatever follows. -/
theorem readsBefore_comment {body : List Char} (hread : readComment body = (body, false, []))
    (other : List Char) :
    (written (.comment (String.ofList ('/' :: '*' :: body) ++ "*/") true)).ReadsBefore other := by
  have hclose := readComment_append_close hread other
  refine ⟨'/', '*' :: body ++ ['*', '/'], by simp [written, Kind.css], scanned_iff.mp ?_⟩
  have hscanned : Scanned '/' ('*' :: (body ++ '*' :: '/' :: other)) _ other :=
    .comment _ _ _ _ rfl rfl hclose
  simpa [written, String.append_assoc] using hscanned

/-- White space is read as a token of white space. -/
theorem ReadsBefore.kind_of_isSpace (h : t.ReadsBefore rest) {c : Char} {text : List Char}
    (htext : t.text = c :: text) (hc : isSpace c) : ∃ text, t.kind = .space text := by
  obtain ⟨d, tail, heq, hscan⟩ := h
  obtain ⟨rfl, rfl⟩ := List.cons.inj (htext.symm.trans heq)
  have hspace := (show Scanned c (text ++ rest) _ _ from .space hc).scan_eq
  rw [hscan] at hspace
  exact ⟨_, (Prod.mk.inj hspace).1⟩

/-- A token of white space holds nothing else. -/
theorem ReadsBefore.all_isSpace (h : t.ReadsBefore rest) {text : String}
    (hkind : t.kind = .space text) : ∀ c ∈ t.text, isSpace c := by
  obtain ⟨c, tail, htext, hscan⟩ := h
  by_cases hc : isSpace c
  · have hspace := (show Scanned c (tail ++ rest) _ _ from .space hc).scan_eq
    rw [hscan] at hspace
    have hdrop : rest = (tail ++ rest).dropWhile isSpace := (Prod.mk.inj hspace).2
    have htake := List.takeWhile_append_dropWhile (p := isSpace) (l := tail ++ rest)
    rw [← hdrop] at htake
    have htail := List.append_cancel_right htake
    rw [htext]
    intro d hd
    rcases List.mem_cons.mp hd with rfl | hd
    · exact hc
    · rw [← htail] at hd
      exact List.mem_takeWhile_imp hd
  · exfalso
    have hscanned := scanned_iff.mpr hscan
    generalize t.kind = kind at hscanned hkind
    generalize tail ++ rest = s at hscanned
    cases hscanned with
    | space h => exact hc h
    | string value ending after => cases ending <;> cases hkind
    | url name body address ending => cases ending <;> cases hkind
    | punctuation =>
        unfold punctuation at hkind
        split at hkind <;> cases hkind
    | _ => cases hkind

/-- A closing bracket is read from the character that it is. -/
theorem ReadsBefore.text_of_closing (h : t.ReadsBefore rest) {bracket : Bracket}
    (hkind : t.kind = .closing bracket) : t.text = [bracket.closer] := by
  obtain ⟨c, tail, htext, hscan⟩ := h
  have hscanned := scanned_iff.mpr hscan
  obtain ⟨rfl, hrest⟩ : c = bracket.closer ∧ tail ++ rest = rest := by
    generalize t.kind = kind at hscanned hkind
    generalize tail ++ rest = s at hscanned
    cases hscanned with
    | string value ending after => cases ending <;> cases hkind
    | url name body address ending => cases ending <;> cases hkind
    | punctuation =>
        unfold punctuation at hkind
        split at hkind <;> cases hkind <;> exact ⟨rfl, rfl⟩
    | _ => cases hkind
  rw [htext, List.append_left_eq_self.mp hrest]

/-- Behind whole tokens, the last token, which is no white space, may be replaced by one that starts
with the same character and follows what stands in front. -/
theorem ReadBack.replace_last {front : List Token} {u : Token} {other : List Char}
    (h : ReadBack (front ++ [t]) rest) (hwhole : ∀ t ∈ front, t.kind.isWhole)
    (hspace : ∀ text, t.kind ≠ .space text) (hu : u.ReadsBefore other)
    (hhead : t.text.head? = u.text.head?) (hfollows : Follows (t.text ++ rest) (u.text ++ other)) :
    ReadBack (front ++ [u]) other := by
  have ht := (readBack_append.mp h).2.1
  obtain ⟨c, text, htext⟩ := List.exists_cons_of_ne_nil ht.text_ne_nil
  have hc : isSpace c = false := by
    by_contra hc
    obtain ⟨value, hkind⟩ := ht.kind_of_isSpace htext (by simpa using hc)
    exact hspace value hkind
  rw [htext, List.head?_cons] at hhead
  obtain ⟨tail, hu'⟩ := List.head?_eq_some_iff.mp hhead.symm
  refine h.replace hwhole ⟨hu, trivial⟩ ?_ ?_ ?_
  · simpa [textOf] using hfollows
  · simpa [textOf, htext, hu'] using resembles_cons hc (text ++ rest) (tail ++ other)
  · simpa [textOf, htext, hu'] using GoOnAlike.cons Iff.rfl

end Token

end Css
