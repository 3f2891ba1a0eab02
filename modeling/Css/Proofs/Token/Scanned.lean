import Css.Token.Scan
import Mathlib

/-!
# The cases of scanning

`Scanned c rest kind after` lists the ways in which a token can start with `c` in front of `rest`:
what the readers have to find for each class, and what has to be ruled out before. `scan` takes
exactly one of these ways, `scanned_iff`, so facts about single tokens are proved by cases on it.
-/

namespace Css

open Token (Kind)

/-- The token that starts with `c` says `kind` and leaves `after`, because of what the text in front
of it starts with. -/
inductive Scanned (c : Char) (rest : List Char) : Kind → List Char → Prop where
  | comment (body text : List Char) (closed : Bool) (after : List Char) (hc : c = '/')
      (hrest : rest = '*' :: body) (hread : readComment body = (text, closed, after)) :
      Scanned c rest (.comment (String.ofList ('/' :: '*' :: text)) closed) after
  | string (value : List Char) (ending : Ending) (after : List Char) (hc : isQuote c)
      (hread : readString c rest = (value, ending, after)) :
      Scanned c rest (stringKind value ending) after
  | hash (name after : List Char) (hc : c = '#')
      (hstart : rest.head?.any isNameChar || startsEscape rest)
      (hread : readName rest = (name, after)) :
      Scanned c rest (.hash (String.ofList name) (startsName rest)) after
  | number (value : Numeral) (after : List Char) (hstart : startsNumber (c :: rest))
      (hread : readNumeral (c :: rest) = (value, after)) (hunit : startsName after = false)
      (hsign : after.head? ≠ some '%') : Scanned c rest (.number value) after
  | percentage (value : Numeral) (after : List Char) (hstart : startsNumber (c :: rest))
      (hread : readNumeral (c :: rest) = (value, '%' :: after)) :
      Scanned c rest (.percentage value) after
  | dimension (value : Numeral) (mid unit after : List Char) (hstart : startsNumber (c :: rest))
      (hread : readNumeral (c :: rest) = (value, mid)) (hunit : startsName mid)
      (hname : readName mid = (unit, after)) :
      Scanned c rest (.dimension value (String.ofList unit)) after
  | htmlClose (after : List Char) (hc : c = '-') (hrest : rest = '-' :: '>' :: after) :
      Scanned c rest .htmlClose after
  | htmlOpen (after : List Char) (hc : c = '<') (hrest : rest = '!' :: '-' :: '-' :: after) :
      Scanned c rest .htmlOpen after
  | atKeyword (name after : List Char) (hc : c = '@') (hstart : startsName rest)
      (hread : readName rest = (name, after)) :
      Scanned c rest (.atKeyword (String.ofList name)) after
  | ident (name after : List Char) (hnumber : startsNumber (c :: rest) = false)
      (hclose : ¬(c = '-' ∧ ['-', '>'].isPrefixOf rest)) (hstart : startsName (c :: rest))
      (hread : readName (c :: rest) = (name, after)) (hbracket : after.head? ≠ some '(') :
      Scanned c rest (.ident (String.ofList name)) after
  | function (name after : List Char) (hnumber : startsNumber (c :: rest) = false)
      (hclose : ¬(c = '-' ∧ ['-', '>'].isPrefixOf rest)) (hstart : startsName (c :: rest))
      (hread : readName (c :: rest) = (name, '(' :: after))
      (hname : Text.lowerCase (String.ofList name) ≠ "url") :
      Scanned c rest (.function (String.ofList name)) after
  | urlFunction (name body : List Char) (hnumber : startsNumber (c :: rest) = false)
      (hclose : ¬(c = '-' ∧ ['-', '>'].isPrefixOf rest)) (hstart : startsName (c :: rest))
      (hread : readName (c :: rest) = (name, '(' :: body))
      (hname : Text.lowerCase (String.ofList name) = "url")
      (hquote : (dropSpace (dropAllButOneSpace body)).head?.any isQuote) :
      Scanned c rest (.function (String.ofList name)) (dropAllButOneSpace body)
  | url (name body address : List Char) (ending : Ending) (after : List Char)
      (hnumber : startsNumber (c :: rest) = false)
      (hclose : ¬(c = '-' ∧ ['-', '>'].isPrefixOf rest)) (hstart : startsName (c :: rest))
      (hread : readName (c :: rest) = (name, '(' :: body))
      (hname : Text.lowerCase (String.ofList name) = "url")
      (hquote : (dropSpace (dropAllButOneSpace body)).head?.any isQuote = false)
      (hurl : readUrl ((dropAllButOneSpace body).dropWhile isSpace) = (address, ending, after)) :
      Scanned c rest (urlKind address ending) after
  | space (hc : isSpace c) :
      Scanned c rest (.space (String.ofList (c :: rest.takeWhile isSpace))) (rest.dropWhile isSpace)
  | punctuation (hcomment : ¬(c = '/' ∧ rest.head? = some '*')) (hquote : isQuote c = false)
      (hhash : ¬(c = '#' ∧ (rest.head?.any isNameChar || startsEscape rest)))
      (hnumber : startsNumber (c :: rest) = false)
      (hclose : ¬(c = '-' ∧ ['-', '>'].isPrefixOf rest))
      (hopen : ¬(c = '<' ∧ ['!', '-', '-'].isPrefixOf rest))
      (hat : ¬(c = '@' ∧ startsName rest)) (hname : startsName (c :: rest) = false)
      (hspace : isSpace c = false) : Scanned c rest (punctuation c) rest

/-- A name token is an identifier, a function or an address. -/
theorem scanned_scanNamed {c : Char} {rest : List Char}
    (hnumber : startsNumber (c :: rest) = false)
    (hclose : ¬(c = '-' ∧ ['-', '>'].isPrefixOf rest)) (hstart : startsName (c :: rest)) :
    Scanned c rest (scanNamed (c :: rest)).1 (scanNamed (c :: rest)).2 := by
  rcases hread : readName (c :: rest) with ⟨name, after⟩
  simp only [scanNamed, hread]
  split
  · rename_i body
    split
    · rename_i hname
      split
      · exact .urlFunction name body hnumber hclose hstart hread hname ‹_›
      · rename_i hquote
        exact .url name body _ _ _ hnumber hclose hstart hread hname (by simpa using hquote) rfl
    · exact .function name body hnumber hclose hstart hread ‹_›
  · rename_i hother
    refine .ident name after hnumber hclose hstart hread ?_
    intro hbracket
    obtain ⟨body, hbody⟩ := List.head?_eq_some_iff.mp hbracket
    exact hother body hbody

/-- A numeric token is a number, a percentage or a dimension. -/
theorem scanned_scanNumeric {c : Char} {rest : List Char} (hstart : startsNumber (c :: rest)) :
    Scanned c rest (scanNumeric (c :: rest)).1 (scanNumeric (c :: rest)).2 := by
  rcases hread : readNumeral (c :: rest) with ⟨value, after⟩
  simp only [scanNumeric, hread]
  split
  · exact .dimension value after _ _ hstart hread ‹_› rfl
  · rename_i hunit
    split
    · exact .percentage value _ hstart hread
    · rename_i hother
      refine .number value after hstart hread (by simpa using hunit) ?_
      intro hsign
      obtain ⟨body, hbody⟩ := List.head?_eq_some_iff.mp hsign
      exact hother body hbody

/-- `scan` takes one of the ways. -/
theorem scanned_scan (c : Char) (rest : List Char) :
    Scanned c rest (scan c rest).1 (scan c rest).2 := by
  simp only [scan]
  split
  · rename_i hcomment
    obtain ⟨body, rfl⟩ := List.head?_eq_some_iff.mp hcomment.2
    exact .comment body _ _ _ hcomment.1 rfl rfl
  rename_i hcomment
  split
  · exact .string _ _ _ ‹_› rfl
  rename_i hquote
  split
  · rename_i hc
    simp only [scanHash]
    split
    · exact .hash _ _ hc ‹_› rfl
    · rename_i hstart
      subst hc
      exact .punctuation hcomment (by decide) (fun h => hstart h.2) rfl (by simp) (by simp)
        (by simp) (by simp [startsName, isNameStart, startsEscape]) (by decide)
  rename_i hhash
  split
  · exact scanned_scanNumeric ‹_›
  rename_i hnumber
  rw [Bool.not_eq_true] at hnumber
  split
  · rename_i hclose
    obtain ⟨after, hafter⟩ := List.isPrefixOf_iff_prefix.mp hclose.2
    subst hafter
    exact .htmlClose after hclose.1 rfl
  rename_i hclose
  split
  · rename_i hopen
    obtain ⟨after, hafter⟩ := List.isPrefixOf_iff_prefix.mp hopen.2
    subst hafter
    exact .htmlOpen after hopen.1 rfl
  rename_i hopen
  split
  · rename_i hat
    exact .atKeyword _ _ hat.1 hat.2 rfl
  rename_i hat
  split
  · exact scanned_scanNamed hnumber hclose ‹_›
  rename_i hname
  split
  · exact .space ‹_›
  · rename_i hspace
    exact .punctuation hcomment (by simpa using hquote) (fun h => hhash h.1) hnumber hclose hopen
      hat (by simpa using hname) (by simpa using hspace)

/-- A text that starts with a name starts with a letter, a hyphen, an underscore, a backslash or a
character above ASCII. -/
theorem ne_of_startsName {c d : Char} {rest : List Char} (h : startsName (c :: rest))
    (hd : isNameStart d = false) (hhyphen : d ≠ '-') (hescape : d ≠ '\\') : c ≠ d := by
  rintro rfl
  simp [startsName, hd, hhyphen, startsEscape, hescape] at h

/-- A text that starts with a number starts with a sign, a point or a digit. -/
theorem ne_of_startsNumber {c d : Char} {rest : List Char} (h : startsNumber (c :: rest))
    (hsign : ¬(d = '+' ∨ d = '-')) (hpoint : d ≠ '.') (hd : isDigit d = false) : c ≠ d := by
  rintro rfl
  simp [startsNumber, hsign, startsUnsigned, hpoint, hd] at h

/-- No character is at once a quotation mark and a start of a name. -/
theorem isQuote_of_startsName {c : Char} {rest : List Char} (h : startsName (c :: rest)) :
    isQuote c = false := by
  have hdouble := ne_of_startsName (d := '"') h rfl (by decide) (by decide)
  have hsingle := ne_of_startsName (d := '\'') h rfl (by decide) (by decide)
  simp [isQuote, hdouble, hsingle]

/-- Where a number starts, a numeric token is read. -/
theorem scan_of_startsNumber {c : Char} {rest : List Char} (h : startsNumber (c :: rest)) :
    scan c rest = scanNumeric (c :: rest) := by
  have hslash := ne_of_startsNumber (d := '/') h (by decide) (by decide) rfl
  have hhash := ne_of_startsNumber (d := '#') h (by decide) (by decide) rfl
  have hdouble := ne_of_startsNumber (d := '"') h (by decide) (by decide) rfl
  have hsingle := ne_of_startsNumber (d := '\'') h (by decide) (by decide) rfl
  simp [scan, hslash, isQuote, hdouble, hsingle, hhash, h]

/-- Where a name starts, which is neither a number nor the end of a hidden text, a token of a name
is read. -/
theorem scan_of_startsName {c : Char} {rest : List Char}
    (hnumber : startsNumber (c :: rest) = false)
    (hclose : ¬(c = '-' ∧ ['-', '>'].isPrefixOf rest)) (h : startsName (c :: rest)) :
    scan c rest = scanNamed (c :: rest) := by
  have hslash := ne_of_startsName (d := '/') h rfl (by decide) (by decide)
  have hhash := ne_of_startsName (d := '#') h rfl (by decide) (by decide)
  have hless := ne_of_startsName (d := '<') h rfl (by decide) (by decide)
  have hat := ne_of_startsName (d := '@') h rfl (by decide) (by decide)
  have hquote := isQuote_of_startsName h
  rw [scan, if_neg (fun hcomment => hslash hcomment.1), if_neg (by simp [hquote]), if_neg hhash,
    if_neg (by simp [hnumber]), if_neg hclose, if_neg (fun hopen => hless hopen.1),
    if_neg (fun hkeyword => hat hkeyword.1), if_pos h]

/-- Each way determines the token and what follows it. -/
theorem Scanned.scan_eq {c : Char} {rest : List Char} {kind : Kind} {after : List Char}
    (h : Scanned c rest kind after) : scan c rest = (kind, after) := by
  cases h with
  | comment body text closed after hc hrest hread =>
      subst hc hrest
      simp [scan, hread]
  | string value ending after hc hread =>
      have hslash : c ≠ '/' := by
        rintro rfl
        cases hc
      simp [scan, hslash, hc, hread]
  | hash name after hc hstart hread =>
      subst hc
      simp [scan, isQuote, scanHash, hstart, hread]
  | number value after hstart hread hunit hsign =>
      rw [scan_of_startsNumber hstart, scanNumeric, hread]
      simp only [hunit, Bool.false_eq_true, if_false]
      split
      · simp at hsign
      · rfl
  | percentage value after hstart hread =>
      rw [scan_of_startsNumber hstart, scanNumeric, hread]
      simp [startsName, isNameStart, startsEscape]
  | dimension value mid unit after hstart hread hunit hname =>
      rw [scan_of_startsNumber hstart, scanNumeric, hread]
      simp [hunit, hname]
  | htmlClose after hc hrest =>
      subst hc hrest
      simp [scan, isQuote, startsNumber, startsUnsigned, isDigit]
  | htmlOpen after hc hrest =>
      subst hc hrest
      simp [scan, isQuote, startsNumber, startsUnsigned, isDigit]
  | atKeyword name after hc hstart hread =>
      subst hc
      simp [scan, isQuote, startsNumber, startsUnsigned, isDigit, hstart, hread]
  | ident name after hnumber hclose hstart hread hbracket =>
      rw [scan_of_startsName hnumber hclose hstart, scanNamed, hread]
      dsimp only
      split
      · simp at hbracket
      · rfl
  | function name after hnumber hclose hstart hread hname =>
      rw [scan_of_startsName hnumber hclose hstart, scanNamed, hread]
      simp [hname]
  | urlFunction name body hnumber hclose hstart hread hname hquote =>
      rw [scan_of_startsName hnumber hclose hstart, scanNamed, hread]
      simp [hname, hquote]
  | url name body address ending after hnumber hclose hstart hread hname hquote hurl =>
      rw [scan_of_startsName hnumber hclose hstart, scanNamed, hread]
      simp [hname, hquote, hurl]
  | space hc =>
      have hcases : c = '\t' ∨ c = '\n' ∨ c = ' ' := by simpa [isSpace] using hc
      rcases hcases with rfl | rfl | rfl <;>
        simp [scan, isQuote, startsNumber, startsUnsigned, isDigit, startsName, isNameStart,
          startsEscape, isSpace]
  | punctuation hcomment hquote hhash hnumber hclose hopen hat hname hspace =>
      by_cases hc : c = '#'
      · have hstart : (rest.head?.any isNameChar || startsEscape rest) = false := by
          simpa [hc] using hhash
        subst hc
        simp [scan, isQuote, scanHash, hstart, Css.punctuation]
      · rw [scan, if_neg hcomment, if_neg (by simp [hquote]), if_neg hc, if_neg (by simp [hnumber]),
          if_neg hclose, if_neg hopen, if_neg hat, if_neg (by simp [hname]),
          if_neg (by simp [hspace])]

/-- Scanning gives a token and what follows it if and only if one of the ways does. -/
theorem scanned_iff {c : Char} {rest : List Char} {kind : Kind} {after : List Char} :
    Scanned c rest kind after ↔ scan c rest = (kind, after) := by
  constructor
  · exact Scanned.scan_eq
  · intro h
    have hscan := scanned_scan c rest
    rwa [h] at hscan

end Css
