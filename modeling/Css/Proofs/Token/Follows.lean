import Css.Proofs.Token.Writing

/-!
# What may follow a text in place of another

Every reader looks a little further than it reads. `Follows rest other` says that `other` continues
nothing that `rest` does not continue, however far a reader looks: it starts with an ending, like a
name where `rest` starts with one, or with as much of what `rest` starts with as any reader looks
at. What a reader rules out in front
of `rest` is then ruled out in front of `other` as well.
-/

namespace Css

/-- Characters that continue nothing that stands in front of them. -/
def endings : List Char := [';', ',', ':', '!', '{', '}', ')', ']', '/', '"', '\'']

/-- The text starts with an ending, and not like the mark that opens a hidden text. -/
inductive Ends : List Char → Prop where
  | cons {c : Char} {rest : List Char} (hc : c ∈ endings)
      (hmark : c = '!' → rest.head? ≠ some '-') :
      Ends (c :: rest)

/-- The text ends with a backslash that escapes whatever comes behind the text. -/
def breaksOff : List Char → Bool
  | [] => false
  | ['\\'] => true
  | '\\' :: _ :: rest => breaksOff rest
  | _ :: rest => breaksOff rest

/-- Whatever `rest` does not continue, `other` does not continue. -/
inductive Follows : List Char → List Char → Prop where
  | ending {rest other : List Char} (h : Ends other) : Follows rest other
  | name {rest other : List Char} (h : startsName rest) : Follows rest ('u' :: other)
  | mark {rest other : List Char} {c : Char} (hc : c = '(' ∨ c = '%') :
      Follows (c :: rest) (c :: other)
  | cons {rest other : List Char} {c : Char} (hc : c ≠ '\\') (h : Follows rest other) :
      Follows (c :: rest) (c :: other)
  | escape {rest other : List Char} {c d : Char} (h : c = '\n' ↔ d = '\n') :
      Follows ('\\' :: c :: rest) ('\\' :: d :: other)

/-- Both texts go on, and either both with a line break or both without one. -/
inductive GoOnAlike : List Char → List Char → Prop where
  | cons {rest other : List Char} {c d : Char} (h : c = '\n' ↔ d = '\n') :
      GoOnAlike (c :: rest) (d :: other)

/-- Where `rest` starts with white space, or with a quotation mark behind at most one white space
character, `other` does too. -/
structure Resembles (rest other : List Char) : Prop where
  space : rest.head?.any isSpace → other.head?.any isSpace
  quote : rest.head?.any isQuote → other.head?.any isQuote
  spaceQuote : (dropSpace rest).head?.any isQuote → (dropSpace other).head?.any isQuote

/-- A backslash escapes what follows it, unless that is a line break. -/
theorem startsEscape_cons (c : Char) (rest : List Char) :
    startsEscape (c :: rest) = (c == '\\' && rest.head? != some '\n') := by
  unfold startsEscape
  split
  · rename_i heq
    cases heq
    rfl
  · rename_i hother heq
    cases heq
    cases rest with
    | nil => rfl
    | cons d rest =>
        have hd : d ≠ '\n' := by
          rintro rfl
          exact hother rest rfl
        simp [hd]
  · rename_i hother
    have hc : c ≠ '\\' := by
      rintro rfl
      exact hother rest rfl
    simp [hc]

/-- Only a backslash escapes something. -/
theorem startsEscape_of_ne {c : Char} (hc : c ≠ '\\') (rest : List Char) :
    startsEscape (c :: rest) = false := by
  rw [startsEscape_cons, beq_false_of_ne hc, Bool.false_and]

/-- A character that is no backslash does not take the next one with it. -/
theorem breaksOff_cons {c : Char} (hc : c ≠ '\\') (rest : List Char) :
    breaksOff (c :: rest) = breaksOff rest := by
  cases rest <;> simp [breaksOff, hc]

/-- A backslash takes the next character with it. -/
theorem breaksOff_escape (c : Char) (rest : List Char) :
    breaksOff ('\\' :: c :: rest) = breaksOff rest := by
  simp [breaksOff]

/-- Characters that are no backslashes do not matter at the beginning. -/
theorem breaksOff_append {front : List Char} (h : '\\' ∉ front) (rest : List Char) :
    breaksOff (front ++ rest) = breaksOff rest := by
  induction front with
  | nil => rfl
  | cons c front ih =>
      simp only [List.mem_cons, not_or] at h
      rw [List.cons_append, breaksOff_cons (Ne.symm h.1), ih h.2]

/-- A text without backslashes does not end with one. -/
theorem breaksOff_of_not_mem {text : List Char} (h : '\\' ∉ text) : breaksOff text = false := by
  rw [← List.append_nil text, breaksOff_append h]
  rfl

/-- A text that ends with another character than a backslash does not break off. -/
theorem breaksOff_concat {c : Char} (hc : c ≠ '\\') (text : List Char) :
    breaksOff (text ++ [c]) = false := by
  fun_induction breaksOff text with
  | case1 => rw [List.nil_append, breaksOff_cons hc]; rfl
  | case2 => exact breaksOff_escape c []
  | case3 d text ih => exact ih
  | case4 d text hnil hescape ih =>
      have hd : d ≠ '\\' := by
        intro hd
        cases text with
        | nil => exact hnil hd rfl
        | cons e text => exact hescape e text hd rfl
      rw [List.cons_append, breaksOff_cons hd, ih]

namespace Follows

variable {rest other : List Char}

/-- A character of a class without endings and backslashes is not at the beginning of one text if
no character of the class is at the beginning of the other. -/
theorem head?_any (h : Follows rest other) {p : Char → Bool} (hp : ('u' :: endings).all (!p ·))
    (hrest : rest.head?.any p = false) : other.head?.any p = false := by
  cases h with
  | ending h =>
      obtain ⟨hc, -⟩ := h
      simpa using List.all_eq_true.mp hp _ (List.mem_cons_of_mem _ hc)
  | name => simpa using List.all_eq_true.mp hp _ (List.mem_cons_self ..)
  | mark | cons | escape => exact hrest

/-- A text without endings and backslashes is not at the beginning of one text if it is not at the
beginning of the other. -/
theorem isPrefixOf (h : Follows rest other) {text : List Char}
    (htext : text.all (· ∉ '\\' :: 'u' :: '(' :: '%' :: endings))
    (hrest : text.isPrefixOf rest = false) : text.isPrefixOf other = false := by
  induction text generalizing rest other with
  | nil => cases hrest
  | cons d text ih =>
      simp only [List.all_cons, Bool.and_eq_true, decide_eq_true_eq, List.mem_cons, not_or] at htext
      obtain ⟨⟨hescape, hname, hbracket, hpercent, hending⟩, htext⟩ := htext
      cases h with
      | ending h =>
          obtain ⟨hc, -⟩ := h
          have hne := ne_of_mem_of_not_mem hc hending
          rw [List.isPrefixOf_cons_cons, beq_false_of_ne hne.symm, Bool.false_and]
      | name => rw [List.isPrefixOf_cons_cons, beq_false_of_ne hname, Bool.false_and]
      | mark hc =>
          rcases hc with rfl | rfl
          · rw [List.isPrefixOf_cons_cons, beq_false_of_ne hbracket, Bool.false_and]
          · rw [List.isPrefixOf_cons_cons, beq_false_of_ne hpercent, Bool.false_and]
      | @cons _ _ c hc h =>
          simp only [List.isPrefixOf_cons_cons, Bool.and_eq_false_iff] at hrest ⊢
          exact hrest.imp_right (ih h (by simpa using htext))
      | escape => rw [List.isPrefixOf_cons_cons, beq_false_of_ne hescape, Bool.false_and]

/-- The mark that opens a hidden text is not at the beginning of one text if it is not at the
beginning of the other. -/
theorem not_htmlOpen (h : Follows rest other) (hrest : ['!', '-', '-'].isPrefixOf rest = false) :
    ['!', '-', '-'].isPrefixOf other = false := by
  cases h with
  | ending h =>
      obtain @⟨c, other, -, hmark⟩ := h
      rw [List.isPrefixOf_cons_cons, Bool.and_eq_false_iff, or_iff_not_imp_left,
        beq_eq_false_iff_ne, not_not]
      intro hc
      have hhyphen := hmark hc.symm
      cases other with
      | nil => rfl
      | cons d other =>
          have hd : '-' ≠ d := fun heq => hhyphen (congrArg some heq.symm)
          rw [List.isPrefixOf_cons_cons, beq_false_of_ne hd, Bool.false_and]
  | name => rfl
  | mark hc => rcases hc with rfl | rfl <;> rfl
  | cons hc h =>
      rw [List.isPrefixOf_cons_cons, Bool.and_eq_false_iff] at hrest ⊢
      exact hrest.imp_right (h.isPrefixOf (by decide))
  | escape => rfl

/-- The one text starts with no character of which the other rules out that it starts with it. -/
theorem head?_ne (h : Follows rest other) {c : Char} (hc : c ∉ 'u' :: endings)
    (hrest : rest.head? ≠ some c) : other.head? ≠ some c := by
  have hhead (text : List Char) : text.head? ≠ some c ↔ text.head?.any (· = c) = false := by
    cases text <;> simp
  rw [hhead] at hrest ⊢
  refine h.head?_any (List.all_eq_true.mpr fun d hd => ?_) hrest
  simpa using fun heq : d = c => hc (heq ▸ hd)

/-- What escapes nothing and does not start with a character that may start a name after a hyphen is
not replaced by what does. -/
theorem startsName_hyphen (h : Follows rest other) (hrest : startsName ('-' :: rest) = false) :
    startsName ('-' :: other) = false := by
  cases h with
  | ending h =>
      obtain @⟨c, other, hc, -⟩ := h
      have hall : endings.all (fun c => !isNameStart c && c ≠ '-' && c ≠ '\\') := by decide
      have hclass := List.all_eq_true.mp hall c hc
      simp only [Bool.and_eq_true, Bool.not_eq_true', decide_eq_true_eq] at hclass
      simp [startsName, startsEscape_cons, hclass]
  | name hname =>
      cases rest with
      | nil => cases hname
      | cons c rest =>
          simp only [startsName, if_true, Bool.or_eq_false_iff] at hrest hname
          simp only [List.head?_cons, Option.any_some, Bool.or_eq_false_iff,
            decide_eq_false_iff_not] at hrest
          simp [hrest] at hname
  | mark hc => rcases hc with rfl | rfl <;> rfl
  | cons hc => simpa [startsName, startsEscape_cons, hc] using hrest
  | @escape rest other c d hline =>
      simp only [startsName, if_true, startsEscape_cons, Bool.or_eq_false_iff] at hrest ⊢
      simpa [hline] using hrest

/-- What starts no name is not replaced by what does. -/
theorem startsName (h : Follows rest other) (hrest : startsName rest = false) :
    startsName other = false := by
  cases h with
  | ending h =>
      obtain @⟨c, other, hc, -⟩ := h
      have hall : endings.all (fun c => !isNameStart c && c ≠ '-' && c ≠ '\\') := by decide
      have hclass := List.all_eq_true.mp hall c hc
      simp only [Bool.and_eq_true, Bool.not_eq_true', decide_eq_true_eq] at hclass
      simp [Css.startsName, startsEscape_cons, hclass]
  | name hname => rw [hrest] at hname; cases hname
  | mark hc => rcases hc with rfl | rfl <;> rfl
  | @cons rest other c hc h =>
      by_cases hhyphen : c = '-'
      · subst hhyphen
        exact h.startsName_hyphen hrest
      · simpa [Css.startsName, startsEscape_cons, hhyphen, hc] using hrest
  | escape hline => simpa [Css.startsName, startsEscape_cons, hline] using hrest

/-- What continues no name is not replaced by what does. -/
theorem stopsName (h : Follows rest other) (hrest : StopsName rest) : StopsName other := by
  cases h with
  | ending h =>
      obtain @⟨c, other, hc, -⟩ := h
      have hall : endings.all (fun c => !isNameChar c && c ≠ '\\') := by decide
      have hclass := List.all_eq_true.mp hall c hc
      simp only [Bool.and_eq_true, Bool.not_eq_true', decide_eq_true_eq] at hclass
      exact ⟨by simp [hclass], by simp [startsEscape_cons, hclass]⟩
  | name hname => rw [hrest.startsName] at hname; cases hname
  | mark hc => rcases hc with rfl | rfl <;> exact ⟨rfl, rfl⟩
  | cons hc => exact ⟨hrest.nameChar, by simp [startsEscape_cons, hc]⟩
  | escape hline =>
      have hescape := hrest.escape
      exact ⟨hrest.nameChar, by simpa [startsEscape_cons, hline] using hescape⟩

/-- What starts with no digit is not replaced by what does. -/
theorem startsDigit (h : Follows rest other) (hrest : startsDigit rest = false) :
    startsDigit other = false :=
  h.head?_any (by decide) hrest

/-- What starts with no number without a sign is not replaced by what does. -/
theorem startsUnsigned (h : Follows rest other) (hrest : startsUnsigned rest = false) :
    startsUnsigned other = false := by
  have hhead {c : Char} (hc : (!isDigit c && c ≠ '.') = true) (other : List Char) :
      Css.startsUnsigned (c :: other) = false := by
    simp only [Bool.and_eq_true, Bool.not_eq_true', decide_eq_true_eq] at hc
    simp [Css.startsUnsigned, hc]
  cases h with
  | ending h =>
      obtain ⟨hc, -⟩ := h
      have hall : endings.all (fun c => !isDigit c && c ≠ '.') := by decide
      exact hhead (List.all_eq_true.mp hall _ hc) _
  | name => exact hhead (by decide) _
  | mark hc => rcases hc with rfl | rfl <;> exact hhead (by decide) _
  | cons hc h =>
      simp only [Css.startsUnsigned, Bool.or_eq_false_iff, Bool.and_eq_false_iff] at hrest ⊢
      exact ⟨hrest.1, hrest.2.imp_right h.startsDigit⟩
  | escape => exact hhead (by decide) _

/-- What starts with no digit behind an optional sign is not replaced by what does. -/
theorem startsDigit_readSign (h : Follows rest other)
    (hrest : Css.startsDigit (readSign rest).2 = false) :
    Css.startsDigit (readSign other).2 = false := by
  have hhead {c : Char} (hc : (!isDigit c && c ≠ '+' && c ≠ '-') = true) (other : List Char) :
      Css.startsDigit (readSign (c :: other)).2 = false := by
    simp only [Bool.and_eq_true, Bool.not_eq_true', decide_eq_true_eq] at hc
    simp [readSign, hc, Css.startsDigit]
  cases h with
  | ending h =>
      obtain ⟨hc, -⟩ := h
      have hall : endings.all (fun c => !isDigit c && c ≠ '+' && c ≠ '-') := by decide
      exact hhead (List.all_eq_true.mp hall _ hc) _
  | name => exact hhead (by decide) _
  | mark hc => rcases hc with rfl | rfl <;> exact hhead (by decide) _
  | @cons _ _ c hc h =>
      by_cases hsign : c = '+' ∨ c = '-'
      · simp only [readSign, hsign, if_true] at hrest ⊢
        exact h.startsDigit hrest
      · simpa [readSign, hsign, Css.startsDigit] using hrest
  | escape => exact hhead (by decide) _

/-- In front of both texts, the same text follows itself, unless it ends with a backslash that
escapes different things. -/
theorem append (h : Follows rest other) {text : List Char}
    (htext : breaksOff text → GoOnAlike rest other) : Follows (text ++ rest) (text ++ other) := by
  fun_induction breaksOff text with
  | case1 => exact h
  | case2 =>
      cases htext rfl with
      | cons hline => exact .escape hline
  | case3 c text ih => exact .escape Iff.rfl
  | case4 c text hc _ ih =>
      have hne : c ≠ '\\' := by
        rintro rfl
        cases text with
        | nil => exact hc rfl rfl
        | cons d text => simp_all
      exact .cons hne (ih htext)

end Follows

/-- Everything resembles the empty text. -/
theorem resembles_nil (other : List Char) : Resembles [] other := ⟨nofun, nofun, nofun⟩

/-- A quotation mark is no white space. -/
theorem isSpace_of_isQuote {c : Char} (h : isQuote c) : isSpace c = false := by
  simp only [isQuote, decide_eq_true_eq] at h
  rcases h with rfl | rfl <;> rfl

/-- What starts with a quotation mark resembles what starts with one. -/
theorem resembles_quote {c d : Char} (hc : isQuote c) (hd : isQuote d) (rest other : List Char) :
    Resembles (c :: rest) (d :: other) := by
  refine ⟨?_, fun _ => hd, fun _ => ?_⟩
  · simp [isSpace_of_isQuote hc]
  · simpa [dropSpace, isSpace_of_isQuote hd] using hd

/-- What starts neither with white space nor with a quotation mark resembles everything. -/
theorem Resembles.of_head {rest : List Char} {c : Char} (hc : isSpace c = false)
    (hquote : isQuote c = false) (other : List Char) : Resembles (c :: rest) other :=
  ⟨by simp [hc], by simp [hquote], by simp [dropSpace, hc, hquote]⟩

/-- Texts that start with the same character, which is no white space, resemble each other. -/
theorem resembles_cons {c : Char} (hc : isSpace c = false) (rest other : List Char) :
    Resembles (c :: rest) (c :: other) :=
  ⟨id, id, by simp [dropSpace, hc]⟩

/-- In front of texts that resemble each other, the same text resembles itself. -/
theorem Resembles.append {rest other : List Char} (h : Resembles rest other) (text : List Char) :
    Resembles (text ++ rest) (text ++ other) := by
  rcases text with _ | ⟨c, text⟩
  · exact h
  refine ⟨id, id, ?_⟩
  by_cases hc : isSpace c
  · simp only [List.cons_append, dropSpace, hc, if_true]
    cases text with
    | nil => exact h.quote
    | cons d text => exact id
  · simp only [List.cons_append, dropSpace, hc]
    exact id

/-- In front of two texts, a text of two characters resembles itself: no more of it matters. -/
theorem resembles_append {text : List Char} (h : 2 ≤ text.length) (rest other : List Char) :
    Resembles (text ++ rest) (text ++ other) := by
  rcases text with _ | ⟨c, _ | ⟨d, text⟩⟩
  · cases h
  · exact absurd h (by simp)
  · refine ⟨id, id, ?_⟩
    by_cases hc : isSpace c <;> simp [dropSpace, hc]

/-- In front of two texts, a text that is not empty goes on like itself. -/
theorem goOnAlike_append {text : List Char} (h : text ≠ []) (rest other : List Char) :
    GoOnAlike (text ++ rest) (text ++ other) := by
  obtain ⟨c, text, rfl⟩ := List.exists_cons_of_ne_nil h
  exact .cons Iff.rfl

end Css
