import Css.Proofs.Token.ReadBack
import Css.Proofs.Token.Sound

/-!
# What is written is read back

The escapes in the canonical text of names and strings are undone by the readers of names and
strings, and the digits of an integer by the reader of numerals. A name or a numeral has to be
followed by something that does not continue it; a string is read back in front of everything.
-/

namespace Css

open Token (Kind)

/-- What is read back of a character: a null character becomes the replacement character. -/
def readBackChar (c : Char) : Char := if c = '\x00' then replacement else c

/-- A text without null characters is read back as it is. -/
theorem NullFree.map_readBackChar {text : List Char} (h : NullFree text) :
    text.map readBackChar = text := by
  rw [List.map_congr_left (g := id), List.map_id]
  intro c hc
  refine if_neg ?_
  rintro rfl
  exact h hc

/-- The text does not continue a name. -/
structure StopsName (rest : List Char) : Prop where
  nameChar : rest.head?.any isNameChar = false
  escape : startsEscape rest = false

/-- What does not continue a name does not start one. -/
theorem StopsName.startsName {rest : List Char} (h : StopsName rest) :
    startsName rest = false := by
  by_contra hstart
  have hcases := nameChar_or_escape_of_startsName (s := rest) (by simpa using hstart)
  simp [h.nameChar, h.escape] at hcases

/-- The digits of a small number are read as the number. -/
theorem hexDigits_of_lt : ∀ n < 0x80, (∀ d ∈ Nat.toDigits 16 n, isHexDigit d) ∧
    (Nat.toDigits 16 n).length ≤ 6 ∧ hexValue (Nat.toDigits 16 n) = n := by
  have hall : ∀ n < 0x80, (Nat.toDigits 16 n).all isHexDigit ∧
      (Nat.toDigits 16 n).length ≤ 6 ∧ hexValue (Nat.toDigits 16 n) = n := by
    decide +kernel
  exact fun n hn => ⟨List.all_eq_true.mp (hall n hn).1, (hall n hn).2⟩

/-- An escape by code point is a backslash in front of hexadecimal digits, which are read as the
character. -/
theorem hexEscape_eq {c : Char} (hne : c ≠ '\x00') (hc : c.toNat < 0x80) (rest : List Char) :
    ∃ d digits, hexEscape c ++ rest = '\\' :: d :: digits ∧ isHexDigit d ∧
      readEscape (d :: digits) = (c, rest) := by
  obtain ⟨hdigits, hlength, hvalue⟩ := hexDigits_of_lt c.toNat hc
  have htake : ((Nat.toDigits 16 c.toNat ++ ' ' :: rest).take 6).takeWhile isHexDigit =
      Nat.toDigits 16 c.toNat := by
    rw [List.take_append, List.take_of_length_le hlength, List.takeWhile_append_of_pos hdigits]
    cases h : 6 - (Nat.toDigits 16 c.toNat).length <;> simp [show isHexDigit ' ' = false from rfl]
  have hchar : escapedChar c.toNat = c := by
    have hzero : c.toNat ≠ 0 := fun h => hne (Char.toNat_inj.mp h)
    rw [escapedChar, if_pos ⟨c.valid, hzero⟩, Char.ofNat_toNat]
  have htext : hexEscape c ++ rest = '\\' :: (Nat.toDigits 16 c.toNat ++ ' ' :: rest) := by
    simp [hexEscape]
  cases hcons : Nat.toDigits 16 c.toNat with
  | nil => exact absurd hcons Nat.toDigits_ne_nil
  | cons d digits =>
      rw [hcons] at htext htake hvalue hdigits
      have hd : isHexDigit d := hdigits d (List.mem_cons_self ..)
      refine ⟨d, digits ++ ' ' :: rest, htext, hd, ?_⟩
      rw [List.cons_append] at htake
      simp only [readEscape, hd, if_true, htake, hvalue, hchar]
      simp [dropSpace, isSpace]

/-- A hexadecimal digit may stand in a name. -/
theorem isNameChar_of_isHexDigit {c : Char} (h : isHexDigit c) : isNameChar c := by
  simp only [isHexDigit, Bool.or_eq_true, Bool.and_eq_true, decide_eq_true_eq] at h
  simp only [isNameChar, isNameStart, isDigit, Bool.or_eq_true, decide_eq_true_eq]
  rcases h with (h | ⟨h, h'⟩) | ⟨h, h'⟩
  · exact .inl (.inr h)
  · refine .inl (.inl (.inl (.inl ?_)))
    simp only [Char.isAlpha, Char.isLower, Bool.or_eq_true, Bool.and_eq_true, decide_eq_true_eq]
    exact .inr ⟨h, UInt32.le_trans h' (by decide)⟩
  · refine .inl (.inl (.inl (.inl ?_)))
    simp only [Char.isAlpha, Char.isUpper, Bool.or_eq_true, decide_eq_true_eq]
    exact .inl ⟨h, UInt32.le_trans h' (by decide)⟩

/-- A character that is no hexadecimal digit stands for itself behind a backslash. -/
theorem readEscape_self {c : Char} (hc : isHexDigit c = false) (rest : List Char) :
    readEscape (c :: rest) = (c, rest) := by
  simp [readEscape, hc]

/-- A control character has a small code point. -/
theorem lt_of_isControl {c : Char} (h : isControl c) : c.toNat < 0x80 := by
  simp only [isControl, Bool.or_eq_true, decide_eq_true_eq] at h
  omega

/-- A hexadecimal digit behind a backslash makes an escape. -/
theorem startsEscape_of_isHexDigit {d : Char} (h : isHexDigit d) (rest : List Char) :
    startsEscape ('\\' :: d :: rest) = true := by
  have hne : d ≠ '\n' := by
    rintro rfl
    cases h
  simp [startsEscape, hne]

/-- A character of a name is read inside a name. -/
theorem readName_nameChar {c : Char} (hc : isNameChar c) (rest : List Char) :
    readName (c :: rest) = (c :: (readName rest).1, (readName rest).2) := by
  rw [readName, if_pos hc]

/-- An escape by code point is read as its character inside a name. -/
theorem readName_hexEscape {c : Char} (hne : c ≠ '\x00') (hc : c.toNat < 0x80)
    (rest : List Char) :
    readName (hexEscape c ++ rest) = (c :: (readName rest).1, (readName rest).2) := by
  obtain ⟨d, digits, htext, hd, hread⟩ := hexEscape_eq hne hc rest
  rw [htext, readName, if_neg (by decide), if_pos (startsEscape_of_isHexDigit hd digits), hread]

/-- An escaped character is read as the character inside a name. -/
theorem readName_escape {c : Char} (hline : c ≠ '\n') (hc : isHexDigit c = false)
    (rest : List Char) :
    readName ('\\' :: c :: rest) = (c :: (readName rest).1, (readName rest).2) := by
  have hescape : startsEscape ('\\' :: c :: rest) = true := by simp [startsEscape, hline]
  rw [readName, if_neg (by decide), if_pos hescape, readEscape_self hc]

/-- The written form of a character is read as the character inside a name. -/
theorem readName_nameCharText (c : Char) (rest : List Char) :
    readName (nameCharText c ++ rest) =
      (readBackChar c :: (readName rest).1, (readName rest).2) := by
  unfold nameCharText readBackChar
  split
  · exact readName_nameChar (by decide) rest
  rename_i hnull
  split
  · exact readName_nameChar ‹_› rest
  rename_i hc
  split
  · exact readName_hexEscape hnull (lt_of_isControl ‹_›) rest
  · rename_i hcontrol
    refine readName_escape ?_ ?_ rest
    · rintro rfl
      exact hcontrol rfl
    · by_contra hhex
      exact hc (isNameChar_of_isHexDigit (by simpa using hhex))

/-- Written characters are read as the characters of a name that goes on behind them. -/
theorem readName_flatMap (text rest : List Char) :
    readName (text.flatMap nameCharText ++ rest) =
      (text.map readBackChar ++ (readName rest).1, (readName rest).2) := by
  induction text with
  | nil => rfl
  | cons c text ih =>
      rw [List.flatMap_cons, List.append_assoc, readName_nameCharText, ih]
      rfl

/-- A digit is a small character. -/
theorem toNat_of_isDigit {c : Char} (h : isDigit c) : c ≠ '\x00' ∧ c.toNat < 0x80 := by
  have hbounds := Char.isDigit_iff_toNat.mp h
  have hnine : '9'.toNat = 57 := rfl
  refine ⟨?_, by omega⟩
  rintro rfl
  cases h

/-- Written characters at the start of a name are read as the characters of a name. -/
theorem readName_nameStartText (text rest : List Char) :
    readName (nameStartText text ++ rest) =
      (text.map readBackChar ++ (readName rest).1, (readName rest).2) := by
  cases text with
  | nil => rfl
  | cons c text =>
      rw [nameStartText, List.append_assoc]
      split
      · rename_i hc
        obtain ⟨hne, hlt⟩ := toNat_of_isDigit hc
        rw [readName_hexEscape hne hlt, readName_flatMap]
        simp [readBackChar, hne]
      · rw [readName_nameCharText, readName_flatMap]
        rfl

/-- A written name is read as the name. -/
theorem readName_nameText (text rest : List Char) :
    readName (nameText text ++ rest) =
      (text.map readBackChar ++ (readName rest).1, (readName rest).2) := by
  unfold nameText
  split
  · exact readName_escape (by decide) rfl rest
  · rename_i text
    rw [List.cons_append, readName_nameChar rfl, List.cons_append, readName_nameChar rfl,
      readName_flatMap]
    rfl
  · rename_i text _ _
    rw [List.cons_append, readName_nameChar rfl, readName_nameStartText]
    rfl
  · exact readName_nameStartText text rest

/-- A name ends in front of what does not continue it. -/
theorem StopsName.readName {rest : List Char} (h : StopsName rest) :
    readName rest = ([], rest) := by
  cases rest with
  | nil => rw [Css.readName]
  | cons c rest =>
      have hc : isNameChar c = false := by simpa using h.nameChar
      rw [Css.readName, if_neg (by simp [hc]), if_neg (by simp [h.escape])]

/-- The written start of a name starts like a name: not like a number, and not with a hyphen. -/
theorem nameStartText_start {c : Char} (hc : c ≠ '-') (text rest : List Char) :
    ∃ d after, nameStartText (c :: text) ++ rest = d :: after ∧
      (isNameStart d || startsEscape (d :: after)) = true ∧ isDigit d = false ∧
      d ∉ ['-', '+', '.'] := by
  have hescape (d : Char) (after : List Char) (hd : startsEscape ('\\' :: d :: after) = true) :
      (isNameStart '\\' || startsEscape ('\\' :: d :: after)) = true ∧ isDigit '\\' = false ∧
        '\\' ∉ ['-', '+', '.'] := ⟨by simp [hd], rfl, by decide⟩
  have hhex (hne : c ≠ '\x00') (hlt : c.toNat < 0x80) (after : List Char) :
      ∃ d digits, hexEscape c ++ after = '\\' :: d :: digits ∧
        startsEscape ('\\' :: d :: digits) = true := by
    obtain ⟨d, digits, htext, hd, -⟩ := hexEscape_eq hne hlt after
    exact ⟨d, digits, htext, startsEscape_of_isHexDigit hd digits⟩
  rw [nameStartText, List.append_assoc]
  split
  · obtain ⟨hne, hlt⟩ := toNat_of_isDigit ‹_›
    obtain ⟨d, digits, htext, hd⟩ := hhex hne hlt (text.flatMap nameCharText ++ rest)
    exact ⟨_, _, htext, hescape _ _ hd⟩
  · rename_i hdigit
    unfold nameCharText
    split
    · exact ⟨_, _, rfl, rfl, rfl, by decide⟩
    rename_i hnull
    split
    · rename_i hname
      have hstart : isNameStart c = true := by
        simpa [isNameChar, hdigit, hc] using hname
      refine ⟨_, _, rfl, by simp [hstart], by simpa using hdigit, ?_⟩
      simp only [List.mem_cons, List.not_mem_nil, or_false, not_or]
      refine ⟨hc, ?_, ?_⟩
      · rintro rfl
        cases hstart
      · rintro rfl
        cases hstart
    split
    · obtain ⟨d, digits, htext, hd⟩ :=
        hhex hnull (lt_of_isControl ‹_›) (text.flatMap nameCharText ++ rest)
      exact ⟨_, _, htext, hescape _ _ hd⟩
    · rename_i hcontrol
      refine ⟨_, _, rfl, hescape c _ ?_⟩
      have hline : c ≠ '\n' := by
        rintro rfl
        exact hcontrol rfl
      simp [startsEscape, hline]

/-- A written name starts a name and no number. -/
theorem startsName_nameText {text : List Char} (h : text ≠ []) (rest : List Char) :
    startsName (nameText text ++ rest) = true ∧ startsNumber (nameText text ++ rest) = false := by
  unfold nameText
  split
  · exact ⟨rfl, rfl⟩
  · exact ⟨rfl, rfl⟩
  · rename_i text hne hhyphen
    cases text with
    | nil => exact absurd rfl hne
    | cons c text =>
        have hc : c ≠ '-' := by
          rintro rfl
          exact hhyphen text rfl
        obtain ⟨d, after, htext, hstart, hdigit, hd⟩ := nameStartText_start hc text rest
        rw [List.cons_append, htext]
        simp only [List.mem_cons, List.not_mem_nil, or_false, not_or] at hd
        refine ⟨?_, ?_⟩
        · rw [startsName, if_pos rfl]
          simp only [Bool.or_eq_true] at hstart
          rcases hstart with hstart | hstart
          · simp [hstart]
          · simp [hstart]
        · simp [startsNumber, startsUnsigned, hdigit, hd]
  · rename_i hne hhyphen hhyphens
    cases text with
    | nil => exact absurd rfl h
    | cons c text =>
        have hc : c ≠ '-' := by
          rintro rfl
          exact hhyphens text rfl
        obtain ⟨d, after, htext, hstart, hdigit, hd⟩ := nameStartText_start hc text rest
        rw [htext]
        simp only [List.mem_cons, List.not_mem_nil, or_false, not_or] at hd
        exact ⟨by simpa [startsName, hd] using hstart,
          by simp [startsNumber, startsUnsigned, hdigit, hd]⟩

/-- A name is written in some characters. -/
theorem nameText_ne_nil {text : List Char} (h : text ≠ []) : nameText text ≠ [] := by
  intro hnil
  have hstart := (startsName_nameText h []).1
  rw [hnil] at hstart
  cases hstart

/-- A written name starts with a hyphen only if the name does. -/
theorem ne_hyphen_of_nameText {text : List Char} (htext : text ≠ [])
    (hhead : text.head? ≠ some '-') {rest : List Char} {c : Char} {after : List Char}
    (h : nameText text ++ rest = c :: after) : c ≠ '-' := by
  cases text with
  | nil => exact absurd rfl htext
  | cons d text =>
      have hd : d ≠ '-' := fun heq => hhead (congrArg some heq)
      have hname : nameText (d :: text) = nameStartText (d :: text) := by
        unfold nameText
        split <;> simp_all
      obtain ⟨e, after', htext, -, -, he⟩ := nameStartText_start hd text rest
      rw [hname, htext, List.cons.injEq] at h
      rintro rfl
      exact he (by simp [h.1])

/-- A written name does not start like the mark that ends a hidden text, unless the text goes on
like it. -/
theorem not_htmlClose_nameText {text : List Char} (htext : text ≠ []) {rest : List Char}
    (hrest : rest.head? ≠ some '>') {c : Char} {after : List Char}
    (h : nameText text ++ rest = c :: after) : ¬(c = '-' ∧ ['-', '>'].isPrefixOf after) := by
  rintro ⟨rfl, hprefix⟩
  obtain ⟨tail, rfl⟩ := List.isPrefixOf_iff_prefix.mp hprefix
  have hhead (text : List Char) : (text.flatMap nameCharText ++ rest).head? ≠ some '>' := by
    cases text with
    | nil => exact hrest
    | cons d text =>
        simp only [List.flatMap_cons, List.append_assoc, nameCharText]
        split
        · simp [replacement]
        split
        · rename_i hd
          simp only [List.cons_append, List.head?_cons, ne_eq, Option.some.injEq]
          rintro rfl
          cases hd
        split
        · simp [hexEscape]
        · simp
  unfold nameText at h
  split at h
  · cases h
  · simp only [List.cons_append, List.nil_append, List.cons.injEq, true_and] at h
    exact hhead _ (by rw [h]; rfl)
  · rename_i text hne hhyphen
    cases text with
    | nil => exact hne rfl
    | cons d text =>
        have hd : d ≠ '-' := by
          rintro rfl
          exact hhyphen text rfl
        obtain ⟨e, after, htext, -, -, he⟩ := nameStartText_start hd text rest
        rw [List.cons_append, htext] at h
        simp only [List.cons_append, List.nil_append, List.cons.injEq, true_and] at h
        simp [h.1] at he
  · rename_i hne hhyphen hhyphens
    cases text with
    | nil => exact htext rfl
    | cons d text =>
        have hd : d ≠ '-' := by
          rintro rfl
          exact hhyphens text rfl
        obtain ⟨e, after, htext, -, -, he⟩ := nameStartText_start hd text rest
        rw [htext, List.cons.injEq] at h
        simp [h.1] at he

/-- A character that neither ends nor escapes is read inside a string. -/
theorem readString_plain {quote c : Char} (hquote : c ≠ quote) (hline : c ≠ '\n') (hc : c ≠ '\\')
    (rest : List Char) :
    readString quote (c :: rest) = (c :: (readString quote rest).1, (readString quote rest).2) := by
  rw [readString.eq_def]
  simp only [hquote, hline, hc, if_false]

/-- An escape is read as its character inside a string. -/
theorem readString_escape {quote d : Char} (hquote : quote ≠ '\\') (hline : d ≠ '\n')
    (rest : List Char) :
    readString quote ('\\' :: d :: rest) =
      ((readEscape (d :: rest)).1 :: (readString quote (readEscape (d :: rest)).2).1,
        (readString quote (readEscape (d :: rest)).2).2) := by
  rw [readString, if_neg hquote.symm, if_neg (by decide), if_pos rfl]
  exact hline

/-- The written form of a character is read as the character inside a string. -/
theorem readString_stringCharText (c : Char) (rest : List Char) :
    readString '"' (stringCharText c ++ rest) =
      (readBackChar c :: (readString '"' rest).1, (readString '"' rest).2) := by
  unfold stringCharText readBackChar
  split
  · rename_i hc
    have hne : c ≠ '\x00' ∧ c ≠ '\n' ∧ isHexDigit c = false := by
      rcases hc with rfl | rfl <;> decide
    rw [if_neg hne.1, List.cons_append, List.singleton_append,
      readString_escape (by decide) hne.2.1, readEscape_self hne.2.2]
  rename_i hc
  rw [not_or] at hc
  split
  · exact readString_plain (by decide) (by decide) (by decide) rest
  rename_i hnull
  split
  · rename_i hcontrol
    obtain ⟨d, digits, htext, hd, hread⟩ := hexEscape_eq hnull (lt_of_isControl hcontrol) rest
    have hline : d ≠ '\n' := by
      rintro rfl
      cases hd
    rw [htext, readString_escape (by decide) hline, hread]
  · rename_i hcontrol
    have hline : c ≠ '\n' := by
      rintro rfl
      exact hcontrol rfl
    exact readString_plain hc.1 hline hc.2 rest

/-- A written string is read as its value, up to its closing mark. -/
theorem readString_flatMap (value rest : List Char) :
    readString '"' (value.flatMap stringCharText ++ '"' :: rest) =
      (value.map readBackChar, .closed, rest) := by
  induction value with
  | nil =>
      rw [List.flatMap_nil, List.nil_append, readString.eq_def]
      simp
  | cons c value ih =>
      rw [List.flatMap_cons, List.append_assoc, readString_stringCharText, ih]
      rfl

/-- Characters that are part of no name and no number. -/
def delimiters : List Char := [' ', ';', ',', ':', '!', '/', '<', '{', '}', ')', ']']

/-- The text is empty or starts with a delimiter. -/
def Delimited (rest : List Char) : Prop := ∀ c ∈ rest.head?, c ∈ delimiters

/-- What starts with a delimiter is delimited. -/
theorem delimited_cons {c : Char} (hc : c ∈ delimiters) (rest : List Char) :
    Delimited (c :: rest) := by
  rintro _ ⟨⟩
  exact hc

/-- A delimited text stays delimited in front of one. -/
theorem Delimited.append {text rest : List Char} (h : Delimited text) (hrest : Delimited rest) :
    Delimited (text ++ rest) := by
  cases text with
  | nil => exact hrest
  | cons c text => exact delimited_cons (h c rfl) _

/-- What is delimited does not start with any other character. -/
theorem Delimited.head?_ne {rest : List Char} (h : Delimited rest) {c : Char}
    (hc : c ∉ delimiters) : rest.head? ≠ some c :=
  fun hhead => hc (h c hhead)

/-- What is delimited does not continue a name. -/
theorem Delimited.stopsName {rest : List Char} (h : Delimited rest) : StopsName rest := by
  have hname : delimiters.all (!isNameChar ·) := by decide
  cases rest with
  | nil => exact ⟨rfl, rfl⟩
  | cons c rest =>
      have hc := List.all_eq_true.mp hname c (h c rfl)
      rw [Bool.not_eq_true'] at hc
      refine ⟨by simp [hc], ?_⟩
      have hne : c ≠ '\\' := fun heq => h.head?_ne (c := '\\') (by decide) (by simp [heq])
      simp [startsEscape, hne]

namespace Token

/-- A written identifier is read back in front of what neither continues it nor makes it a function,
if the two do not make up the mark that ends a hidden text. -/
theorem readsBefore_ident_of_stops {name : String} (hname : IsName name) {rest : List Char}
    (hstops : StopsName rest) (hbracket : rest.head? ≠ some '(')
    (hclose : rest.head? ≠ some '>' ∨ name.toList.head? ≠ some '-') :
    (written (.ident name)).ReadsBefore rest := by
  obtain ⟨hstart, hnumber⟩ := startsName_nameText hname.ne_nil rest
  have hread := readName_nameText name.toList rest
  rw [hstops.readName, hname.nullFree.map_readBackChar, List.append_nil] at hread
  cases htext : nameText name.toList with
  | nil => exact absurd htext (nameText_ne_nil hname.ne_nil)
  | cons c text =>
      refine ⟨c, text, ?_, scanned_iff.mp ?_⟩
      · simp [written, Kind.css, identifierText, htext]
      · have hopen : nameText name.toList ++ rest = c :: (text ++ rest) := by rw [htext]; rfl
        have hclose : ¬(c = '-' ∧ ['-', '>'].isPrefixOf (text ++ rest)) := by
          rcases hclose with hclose | hclose
          · exact not_htmlClose_nameText hname.ne_nil hclose hopen
          · exact fun h => ne_hyphen_of_nameText hname.ne_nil hclose hopen h.1
        rw [htext, List.cons_append] at hstart hnumber hread
        have hscanned := Scanned.ident name.toList rest hnumber hclose hstart hread hbracket
        rwa [String.ofList_toList] at hscanned

/-- A written identifier is read back in front of what is delimited. -/
theorem readsBefore_ident {name : String} (hname : IsName name) {rest : List Char}
    (hrest : Delimited rest) : (written (.ident name)).ReadsBefore rest :=
  readsBefore_ident_of_stops hname hrest.stopsName (hrest.head?_ne (by decide))
    (.inl (hrest.head?_ne (by decide)))

/-- A written string is read back. -/
theorem readsBefore_string {value : String} (hvalue : NullFree value.toList) (rest : List Char) :
    (written (.string value true)).ReadsBefore rest := by
  refine ⟨'"', value.toList.flatMap stringCharText ++ ['"'], ?_, scanned_iff.mp ?_⟩
  · simp [written, Kind.css, stringText]
  · have hread := readString_flatMap value.toList rest
    rw [hvalue.map_readBackChar] at hread
    have hscanned := Scanned.string _ _ _ (c := '"') rfl hread
    simpa [written, stringKind] using hscanned

end Token

end Css
