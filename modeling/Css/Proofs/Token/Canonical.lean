import Css.Proofs.Token.Integer
import Css.Proofs.Token.Normal

/-!
# Canonical tokens that are read back

Marks of punctuation, a single space and an at-keyword are read back from their canonical text, like
names and strings.
-/

namespace Css.Token

/-- A character that is a token wherever it stands is read as that token. -/
theorem scan_separator {c : Char}
    (hc : c ∈ [';', ',', ':', '!', '{', '}', '(', ')', '[', ']', '=', '>']) (rest : List Char) :
    scan c rest = (punctuation c, rest) := by
  simp only [List.mem_cons, List.not_mem_nil, or_false] at hc
  rcases hc with rfl | rfl | rfl | rfl | rfl | rfl | rfl | rfl | rfl | rfl | rfl | rfl <;>
    simp [scan, isQuote, startsNumber, startsUnsigned, isDigit, startsName, isNameStart,
      startsEscape, isSpace]

/-- A colon is read back. -/
theorem readsBefore_colon (rest : List Char) : (written .colon).ReadsBefore rest :=
  ⟨':', [], rfl, scan_separator (by decide) rest⟩

/-- A semicolon is read back. -/
theorem readsBefore_semicolon (rest : List Char) : (written .semicolon).ReadsBefore rest :=
  ⟨';', [], rfl, scan_separator (by decide) rest⟩

/-- A comma is read back. -/
theorem readsBefore_comma (rest : List Char) : (written .comma).ReadsBefore rest :=
  ⟨',', [], rfl, scan_separator (by decide) rest⟩

/-- An opening bracket is read back. -/
theorem readsBefore_opening (bracket : Bracket) (rest : List Char) :
    (written (.opening bracket)).ReadsBefore rest := by
  cases bracket with
  | round => exact ⟨'(', [], rfl, scan_separator (by decide) rest⟩
  | square => exact ⟨'[', [], rfl, scan_separator (by decide) rest⟩
  | curly => exact ⟨'{', [], rfl, scan_separator (by decide) rest⟩

/-- A closing bracket is read back. -/
theorem readsBefore_closing (bracket : Bracket) (rest : List Char) :
    (written (.closing bracket)).ReadsBefore rest := by
  cases bracket with
  | round => exact ⟨')', [], rfl, scan_separator (by decide) rest⟩
  | square => exact ⟨']', [], rfl, scan_separator (by decide) rest⟩
  | curly => exact ⟨'}', [], rfl, scan_separator (by decide) rest⟩

/-- An equals sign is read back. -/
theorem readsBefore_equals (rest : List Char) : (written (.delim '=')).ReadsBefore rest :=
  ⟨'=', [], rfl, scan_separator (by decide) rest⟩

/-- An exclamation mark is read back. -/
theorem readsBefore_exclamation (rest : List Char) : (written (.delim '!')).ReadsBefore rest :=
  ⟨'!', [], rfl, scan_separator (by decide) rest⟩

/-- A greater-than sign is read back. -/
theorem readsBefore_greater (rest : List Char) : (written (.delim '>')).ReadsBefore rest :=
  ⟨'>', [], rfl, scan_separator (by decide) rest⟩

/-- A less-than sign is read back if it does not start a mark that opens a hidden text. -/
theorem readsBefore_less {rest : List Char} (h : rest.head? ≠ some '!') :
    (written (.delim '<')).ReadsBefore rest := by
  have hopen : ['!', '-', '-'].isPrefixOf rest = false := by
    cases rest with
    | nil => rfl
    | cons c rest =>
        have hc : '!' ≠ c := fun heq => h (congrArg some heq.symm)
        rw [List.isPrefixOf_cons_cons, beq_false_of_ne hc, Bool.false_and]
  refine ⟨'<', [], rfl, ?_⟩
  simp [scan, isQuote, startsNumber, startsUnsigned, isDigit, startsName, isNameStart,
    startsEscape, isSpace, hopen, written, punctuation]

/-- A slash is read back if it does not start a comment. -/
theorem readsBefore_slash {rest : List Char} (h : rest.head? ≠ some '*') :
    (written (.delim '/')).ReadsBefore rest := by
  refine ⟨'/', [], rfl, ?_⟩
  simp [scan, isQuote, startsNumber, startsUnsigned, isDigit, startsName, isNameStart,
    startsEscape, isSpace, h, written, punctuation]

/-- A single space is read back in front of what is no white space. -/
theorem readsBefore_space {rest : List Char} (h : rest.head?.any isSpace = false) :
    (written (.space " ")).ReadsBefore rest := by
  refine ⟨' ', [], rfl, ?_⟩
  have hscan := (show Scanned ' ' rest _ _ from .space rfl).scan_eq
  rw [List.nil_append, hscan]
  cases rest with
  | nil => rfl
  | cons c rest =>
      have hc : isSpace c = false := by simpa using h
      rw [List.takeWhile_cons_of_neg (by simp [hc]), List.dropWhile_cons_of_neg (by simp [hc])]
      rfl

/-- A written at-keyword is read back in front of what is delimited. -/
theorem readsBefore_atKeyword {name : String} (hname : IsName name) {rest : List Char}
    (hrest : Delimited rest) : (written (.atKeyword name)).ReadsBefore rest := by
  have hstart := (startsName_nameText hname.ne_nil rest).1
  have hread := readName_nameText name.toList rest
  rw [hrest.stopsName.readName, hname.nullFree.map_readBackChar, List.append_nil] at hread
  refine ⟨'@', nameText name.toList, ?_, scanned_iff.mp ?_⟩
  · simp [written, Kind.css, identifierText]
  · have hscanned := Scanned.atKeyword name.toList rest (c := '@') rfl hstart hread
    rwa [String.ofList_toList] at hscanned

/-- The name of the address function with its bracket is read back in front of a string. -/
theorem readsBefore_url (rest : List Char) :
    (written (.function "url")).ReadsBefore ('"' :: rest) := by
  have hbracket : StopsName ('(' :: '"' :: rest) := ⟨rfl, rfl⟩
  have hread :
      readName ('u' :: ['r', 'l', '(', '"'] ++ rest) = (['u', 'r', 'l'], '(' :: '"' :: rest) := by
    have hname := readName_nameText ['u', 'r', 'l'] ('(' :: '"' :: rest)
    rw [hbracket.readName] at hname
    exact hname
  have hkeep : dropAllButOneSpace ('"' :: rest) = '"' :: rest := by
    cases rest <;> rfl
  have hquote : (dropSpace (dropAllButOneSpace ('"' :: rest))).head?.any isQuote = true := by
    rw [hkeep]
    rfl
  have hscanned := Scanned.urlFunction _ _ rfl (by simp) rfl hread (by decide) hquote
  rw [hkeep] at hscanned
  exact ⟨'u', ['r', 'l', '('], by decide, scanned_iff.mp hscanned⟩

/-- A token whose text stays as it is when a source is normalized, and which has no more digits
than may be read. -/
structure IsPlain (t : Token) : Prop where
  normal : Normal t.text
  digits : ∀ count, t.HasDigits count → count ≤ digitLimit

/-- A token whose text is seen to be free of control characters, and that is no integer. -/
theorem IsPlain.of_all {t : Token} (h : t.text.all (!Css.isControl ·))
    (hdigits : ∀ count, ¬t.HasDigits count) : t.IsPlain where
  normal := normal_of_isControl fun c hc => by simpa using List.all_eq_true.mp h c hc
  digits count hcount := absurd hcount (hdigits count)

/-- An escape by code point is free of control characters. -/
theorem isControl_of_mem_hexEscape {c d : Char} (hc : c.toNat < 0x80) (hd : d ∈ hexEscape c) :
    isControl d = false := by
  have hall : ∀ n < 0x80, (Nat.toDigits 16 n).all (!isControl ·) := by decide +kernel
  simp only [hexEscape, List.cons_append, List.mem_cons, List.mem_append, List.not_mem_nil,
    or_false] at hd
  rcases hd with rfl | hd | rfl
  · rfl
  · simpa using List.all_eq_true.mp (hall _ hc) d hd
  · rfl

/-- A character of a name is no control character. -/
theorem isControl_of_isNameChar {c : Char} (h : isNameChar c) : isControl c = false := by
  have hall : ∀ n < 0x80, isControl (Char.ofNat n) → isNameChar (Char.ofNat n) = false := by
    decide +kernel
  by_contra hcontrol
  rw [Bool.not_eq_false] at hcontrol
  have hname := hall c.toNat (lt_of_isControl hcontrol)
  rw [Char.ofNat_toNat] at hname
  rw [hname hcontrol] at h
  cases h

/-- A written character of a name is free of control characters. -/
theorem isControl_of_mem_nameCharText {c d : Char} (hd : d ∈ nameCharText c) :
    isControl d = false := by
  unfold nameCharText at hd
  split at hd
  · simp only [List.mem_singleton] at hd
    rw [hd]
    decide
  split at hd
  · rename_i hc
    rw [List.mem_singleton.mp hd]
    exact isControl_of_isNameChar hc
  split at hd
  · exact isControl_of_mem_hexEscape (lt_of_isControl ‹_›) hd
  · rename_i hcontrol
    simp only [List.mem_cons, List.not_mem_nil, or_false] at hd
    rcases hd with rfl | rfl
    · rfl
    · simpa using hcontrol

/-- A written name is free of control characters. -/
theorem isControl_of_mem_nameText {text : List Char} {d : Char} (hd : d ∈ nameText text) :
    isControl d = false := by
  have hflat (text : List Char) (hd : d ∈ text.flatMap nameCharText) : isControl d = false := by
    obtain ⟨c, _, hc⟩ := List.mem_flatMap.mp hd
    exact isControl_of_mem_nameCharText hc
  have hstart (text : List Char) (hd : d ∈ nameStartText text) : isControl d = false := by
    cases text with
    | nil => cases hd
    | cons c text =>
        rw [nameStartText, List.mem_append] at hd
        rcases hd with hd | hd
        · split at hd
          · exact isControl_of_mem_hexEscape (toNat_of_isDigit ‹_›).2 hd
          · exact isControl_of_mem_nameCharText hd
        · exact hflat text hd
  unfold nameText at hd
  split at hd
  · simp only [List.mem_cons, List.not_mem_nil, or_false] at hd
    rcases hd with rfl | rfl <;> rfl
  · simp only [List.mem_cons] at hd
    rcases hd with rfl | rfl | hd
    · rfl
    · rfl
    · exact hflat _ hd
  · rcases List.mem_cons.mp hd with rfl | hd
    · rfl
    · exact hstart _ hd
  · exact hstart _ hd

/-- A written character of a string is free of control characters. -/
theorem isControl_of_mem_stringCharText {c d : Char} (hd : d ∈ stringCharText c) :
    isControl d = false := by
  unfold stringCharText at hd
  split at hd
  · rename_i hc
    simp only [List.mem_cons, List.not_mem_nil, or_false] at hd
    rcases hd with rfl | rfl
    · rfl
    · rcases hc with rfl | rfl <;> rfl
  split at hd
  · simp only [List.mem_singleton] at hd
    rw [hd]
    decide
  split at hd
  · exact isControl_of_mem_hexEscape (lt_of_isControl ‹_›) hd
  · rename_i hcontrol
    simp only [List.mem_singleton] at hd
    simpa [hd] using hcontrol

/-- A written identifier is plain. -/
theorem isPlain_ident (name : String) : (written (.ident name)).IsPlain where
  normal := normal_of_isControl fun c hc =>
    isControl_of_mem_nameText (by simpa [written, Kind.css, identifierText] using hc)
  digits := nofun

/-- A written at-keyword is plain. -/
theorem isPlain_atKeyword (name : String) : (written (.atKeyword name)).IsPlain where
  normal := normal_of_isControl fun c hc => by
    simp only [written, Kind.css, identifierText, String.toList_append, String.toList_ofList,
      List.mem_append] at hc
    rcases hc with hc | hc
    · obtain rfl : c = '@' := by simpa using hc
      rfl
    · exact isControl_of_mem_nameText hc
  digits := nofun

/-- A written string is plain. -/
theorem isPlain_string (value : String) : (written (.string value true)).IsPlain where
  normal := normal_of_isControl fun c hc => by
    simp only [written, Kind.css, stringText, String.toList_ofList, List.cons_append, List.mem_cons,
      List.mem_append, List.mem_flatMap, List.not_mem_nil, or_false] at hc
    rcases hc with rfl | ⟨d, _, hc⟩ | rfl
    · rfl
    · exact isControl_of_mem_stringCharText hc
    · rfl
  digits := nofun

/-- A colon is plain. -/
theorem isPlain_colon : (written .colon).IsPlain :=
  .of_all (by decide) fun _ hcount => by cases hcount

/-- An exclamation mark is plain. -/
theorem isPlain_exclamation : (written (.delim '!')).IsPlain :=
  .of_all (by decide) fun _ hcount => by cases hcount

/-- A closing bracket is plain. -/
theorem isPlain_closing (bracket : Bracket) : (written (.closing bracket)).IsPlain :=
  .of_all (by cases bracket <;> decide) nofun

/-- The name of the address function with its bracket is plain. -/
theorem isPlain_url : (written (.function "url")).IsPlain :=
  .of_all (by decide) nofun

/-- Plain tokens that are read back are those of a source, but for where they start. -/
theorem ReadBack.exists_ofString {tokens : List Token} (h : ReadBack tokens [])
    (hplain : ∀ t ∈ tokens, t.IsPlain) {text : String} (htext : text.toList = textOf tokens) :
    ∃ source, Source.ofString text = .ok source ∧ source.tokens.map bare = tokens.map bare := by
  have hnormal : normalize text.toList = textOf tokens := by
    rw [htext]
    refine Normal.normalize_eq fun c hc => ?_
    obtain ⟨t, ht, hc⟩ := List.mem_flatMap.mp hc
    exact (hplain t ht).normal c hc
  have hbare := map_bare_tokensFrom_textOf h .first
  rw [← hnormal] at hbare
  refine ⟨_, Source.ofString_eq_ok_iff.mpr ⟨fun t ht count hcount => ?_, rfl⟩, hbare⟩
  have hmem := List.mem_map_of_mem (f := bare) ht
  rw [hbare] at hmem
  obtain ⟨u, hu, heq⟩ := List.mem_map.mp hmem
  have hkind : u.kind = t.kind := by simpa [bare] using congrArg kind heq
  refine (hplain u hu).digits count ?_
  rwa [HasDigits, hkind]

end Css.Token
