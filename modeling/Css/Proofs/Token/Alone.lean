import Css.Proofs.Component.Lexed
import Css.Proofs.Token.CutOff
import Css.Proofs.Token.Numeral
import Css.Proofs.Token.Unescaped

/-!
# Tokens that are read alone

The canonical text of a token is meant to say the token. It does for names, strings, numbers and
closed comments of every source. The name of a hash and the unit of a dimension are written without
escapes, so they are read back if and only if they need none, `Source.saysSame_iff`: a name whose
characters are characters of names, and a unit which is written as an identifier as it is and is not
taken for an exponent of the number in front of it.
-/

namespace Css

namespace Token.Kind

/-- The unit of a number. -/
def unit? : Kind → Option String
  | dimension _ unit => some unit
  | _ => none

/-- The second token is of the class of the first and says the same, with the same number and
unit. -/
structure SaysSame (a b : Kind) : Prop where
  label : b.label = a.label
  raw : b.raw = a.raw
  numeral? : b.numeral? = a.numeral?
  unit? : b.unit? = a.unit?

/-- The token says a name, a value, a number or a remark of its own. -/
def saysText : Kind → Bool
  | ident _ | function _ | atKeyword _ | hash _ _ | string _ _ | number _ | percentage _
  | dimension _ _ | comment _ _ => true
  | _ => false

end Token.Kind

/-- The number has no exponent, and takes the beginning of the unit for one. -/
structure Numeral.Takes (n : Numeral) (unit : String) : Prop where
  mark : ∀ c ∈ n.text.toList, ¬(c = 'e' ∨ c = 'E')
  exponent : (readExponent unit.toList).1 ≠ []

/-- The canonical text can be read. A hash and a unit are written without the escapes that they may
need. The name of the address function opens an address, and a comment that the end of the text cut
off gets an end mark that it did not have. -/
def Token.Kind.IsLegible : Kind → Prop
  | .function name => Text.lowerCase name ≠ "url"
  | .hash name _ => ∀ c ∈ name.toList, isNameChar c
  | .dimension value unit => identifierText unit = unit ∧ ¬value.Takes unit
  | .comment _ closed => closed
  | _ => True

/-- What follows a numeral without an exponent does not start with one. -/
theorem readExponent_of_readNumeral {s rest : List Char} {n : Numeral}
    (h : readNumeral s = (n, rest)) (hmark : ∀ c ∈ n.text.toList, ¬(c = 'e' ∨ c = 'E')) :
    readExponent rest = ([], rest) := by
  simp only [readNumeral] at h
  obtain ⟨rfl, hrest⟩ := Prod.mk.inj h
  generalize (readFraction (readDigits (readSign s).2).2).2 = left at hmark hrest
  have hnone : (readExponent left).1 = [] := by
    rcases readExponent_cases left with hnone | ⟨mark, sign, power, hexponent, hcase, -⟩
    · exact hnone
    · exact absurd hcase (hmark mark (by simp [hexponent]))
  have happend := readExponent_append left
  rw [hnone, hrest, List.nil_append] at happend
  subst happend
  exact Prod.ext hnone hrest

/-- A name does not continue a numeral, unless it is taken for its exponent. -/
theorem stopsBehind_of_startsName {unit : List Char} (h : startsName unit) {exponent : List Char}
    (hexponent : exponent = [] → readExponent unit = ([], unit)) : StopsBehind exponent unit := by
  have hunsigned : startsUnsigned unit = false := by
    by_contra hstart
    have hsign : IsSign [] := .inl rfl
    have hnumber := hsign.startsNumber (by simpa using hstart)
    rw [List.nil_append, startsNumber_of_startsName h] at hnumber
    cases hnumber
  have hdigit : startsDigit unit = false := by
    by_contra hstart
    rw [startsUnsigned_of_startsDigit (by simpa using hstart)] at hunsigned
    cases hunsigned
  exact ⟨hdigit, fun hnone =>
    ⟨hdigit, readFraction_eq_nil_iff.mpr fun _ => hunsigned, hexponent hnone⟩⟩

namespace Token

/-- What is found at the beginning of a written name that nothing continues. -/
theorem exists_cons_nameText {name : String} (hname : IsName name) (rest : List Char)
    (hstops : StopsName rest) (hclose : rest.head? ≠ some '>') :
    ∃ c text, nameText name.toList = c :: text ∧ startsNumber (c :: (text ++ rest)) = false ∧
      ¬(c = '-' ∧ ['-', '>'].isPrefixOf (text ++ rest)) ∧ startsName (c :: (text ++ rest)) ∧
      readName (c :: (text ++ rest)) = (name.toList, rest) := by
  obtain ⟨hstart, hnumber⟩ := startsName_nameText hname.ne_nil rest
  have hread := readName_nameText name.toList rest
  rw [hstops.readName, hname.nullFree.map_readBackChar, List.append_nil] at hread
  obtain ⟨c, text, htext⟩ := List.exists_cons_of_ne_nil (nameText_ne_nil hname.ne_nil)
  have hmark : ¬(c = '-' ∧ ['-', '>'].isPrefixOf (text ++ rest)) :=
    not_htmlClose_nameText hname.ne_nil hclose (by rw [htext]; rfl)
  rw [htext, List.cons_append] at hstart hnumber hread
  exact ⟨c, text, htext, hnumber, hmark, hstart, hread⟩

/-- A written function other than the address function is read back. -/
theorem readsBefore_function {name : String} (hname : IsName name)
    (hurl : Text.lowerCase name ≠ "url") (rest : List Char) :
    (written (.function name)).ReadsBefore rest := by
  obtain ⟨c, text, htext, hnumber, hclose, hstart, hread⟩ :=
    exists_cons_nameText hname ('(' :: rest) ⟨rfl, rfl⟩ (by simp)
  refine ⟨c, text ++ ['('], by simp [written, Kind.css, identifierText, htext], scanned_iff.mp ?_⟩
  rw [List.append_assoc, List.singleton_append]
  have hscanned := Scanned.function name.toList rest hnumber hclose hstart hread
    (by rwa [String.ofList_toList])
  rwa [String.ofList_toList] at hscanned

/-- The name of the address function with its bracket at the end of a text is read as an address. -/
theorem readsBefore_url_nil {name : String} (hname : IsName name)
    (hurl : Text.lowerCase name = "url") :
    ReadsBefore ⟨.url "" false, (Kind.function name).css.toList, .first⟩ [] := by
  obtain ⟨c, text, htext, hnumber, hclose, hstart, hread⟩ :=
    exists_cons_nameText hname ['('] ⟨rfl, rfl⟩ (by simp)
  refine ⟨c, text ++ ['('], by simp [Kind.css, identifierText, htext], scanned_iff.mp ?_⟩
  rw [List.append_nil]
  exact Scanned.url name.toList [] [] .unclosed [] hnumber hclose hstart hread
    (by rwa [String.ofList_toList]) rfl (by simp [dropAllButOneSpace, readUrl])

/-- A written hash is read back if it needs no escapes. -/
theorem readsBefore_hash {name : String} (hname : IsName name)
    (hchars : ∀ c ∈ name.toList, isNameChar c) (rest : List Char) (hstops : StopsName rest) :
    (written (.hash name (startsName (name.toList ++ rest)))).ReadsBefore rest := by
  have hread := readName_flatMap name.toList rest
  rw [flatMap_nameCharText hchars, hstops.readName, hname.nullFree.map_readBackChar,
    List.append_nil] at hread
  have hstart : (name.toList ++ rest).head?.any isNameChar := by
    obtain ⟨c, text, htext⟩ := List.exists_cons_of_ne_nil hname.ne_nil
    rw [htext] at hchars ⊢
    exact hchars c (List.mem_cons_self ..)
  refine ⟨'#', name.toList, by simp [written, Kind.css], scanned_iff.mp ?_⟩
  have hscanned := Scanned.hash (c := '#') _ _ rfl (by rw [hstart, Bool.true_or]) hread
  rwa [String.ofList_toList] at hscanned

/-- A closed comment is its text, which is read back whatever follows. -/
theorem ReadsBefore.closed_comment {t : Token} {rest : List Char} (h : t.ReadsBefore rest)
    {text : String} (hkind : t.kind = .comment text true) :
    t.text = text.toList ∧ (written (.comment text true)).ReadsBefore [] := by
  obtain ⟨c, tail, htext, hscan⟩ := h
  have hscanned := scanned_iff.mpr hscan
  rw [hkind] at hscanned
  generalize hkind' : Kind.comment text true = kind at hscanned
  generalize hs : tail ++ rest = s at hscanned
  cases hscanned with
  | comment body found closed after hc hrest hread =>
      obtain ⟨rfl, rfl⟩ := Kind.comment.inj hkind'
      have hbody := readComment_append body
      rw [hread] at hbody
      subst hc hbody
      obtain rfl : tail = '*' :: found :=
        List.append_cancel_right (hs.trans (hrest.trans (List.cons_append ..)))
      refine ⟨by rw [htext, String.toList_ofList], '/', '*' :: found, ?_, scanned_iff.mp ?_⟩
      · simp [written, Kind.css]
      · have hclosed := readComment_of_closed hread []
        rw [List.append_nil] at hclosed ⊢
        exact .comment found found true [] rfl rfl hclosed
  | string value ending => cases ending <;> cases hkind'
  | url name body address ending => cases ending <;> cases hkind'
  | punctuation =>
      unfold punctuation at hkind'
      split at hkind' <;> cases hkind'
  | _ => cases hkind'

/-- A written function is plain. -/
theorem isPlain_function (name : String) : (written (.function name)).IsPlain where
  normal := normal_of_isControl fun c hc => by
    simp only [written, Kind.css, identifierText, String.toList_append, String.toList_ofList,
      List.mem_append] at hc
    rcases hc with hc | hc
    · exact isControl_of_mem_nameText hc
    · obtain rfl : c = '(' := by simpa using hc
      rfl
  digits := nofun

/-- A written hash without escapes is plain. -/
theorem isPlain_hash {name : String} (hchars : ∀ c ∈ name.toList, isNameChar c)
    (isIdentifier : Bool) : (written (.hash name isIdentifier)).IsPlain where
  normal := normal_of_isControl fun c hc => by
    simp only [written, Kind.css, String.toList_append, List.mem_append] at hc
    rcases hc with hc | hc
    · obtain rfl : c = '#' := by simpa using hc
      rfl
    · exact isControl_of_isNameChar (hchars c hc)
  digits := nofun

/-- A plain token that is read back alone is the only one of the source. -/
theorem exists_ofString_of_readsBefore {t : Token} (hplain : t.IsPlain) (hread : t.ReadsBefore [])
    {text : String} (htext : text.toList = t.text) :
    ∃ source u, Source.ofString text = .ok source ∧ source.tokens = [u] ∧ u.kind = t.kind := by
  have hback : ReadBack [t] [] := ⟨hread, trivial⟩
  obtain ⟨source, hsource, hbare⟩ := hback.exists_ofString (by simpa using hplain)
    (htext.trans (List.append_nil _).symm)
  obtain ⟨u, hu, hkind⟩ := List.map_eq_singleton_iff.mp hbare
  exact ⟨source, u, hsource, hu, by simpa [bare] using congrArg Token.kind hkind⟩

end Token

namespace Token.Kind.SaysSame

variable {kind : Kind}

/-- What says the same as a hash is one of the same name. -/
theorem eq_hash {name : String} {isIdentifier : Bool}
    (h : (Kind.hash name isIdentifier).SaysSame kind) : ∃ other, kind = .hash name other := by
  obtain ⟨hlabel, hraw, -, -⟩ := h
  cases kind with
  | hash name' other => exact ⟨other, congrArg (Kind.hash · other) hraw⟩
  | opening bracket | closing bracket => cases bracket <;> simp [Kind.label] at hlabel
  | _ => simp [Kind.label] at hlabel

/-- What says the same as a dimension is the same. -/
theorem eq_dimension {n : Numeral} {unit : String} (h : (Kind.dimension n unit).SaysSame kind) :
    kind = .dimension n unit := by
  obtain ⟨hlabel, -, hnumeral, hunit⟩ := h
  cases kind with
  | dimension n' unit' =>
      obtain rfl : n' = n := Option.some.inj hnumeral
      obtain rfl : unit' = unit := Option.some.inj hunit
      rfl
  | opening bracket | closing bracket => cases bracket <;> simp [Kind.label] at hlabel
  | _ => simp [Kind.label] at hlabel

end Token.Kind.SaysSame

namespace Source

variable {text : String} {source : Source} {t : Token}

/-- Every token of a source is read back in front of what follows it there. -/
theorem exists_readsBefore_of_mem (h : ofString text = .ok source) (ht : t ∈ source.tokens) :
    ∃ rest, t.ReadsBefore rest := by
  obtain ⟨-, rfl⟩ := ofString_eq_ok_iff.mp h
  have hread := Token.readBack_tokensFrom .first (normalize text.toList)
  obtain ⟨front, back, hsplit⟩ := List.append_of_mem ht
  dsimp only at hsplit
  rw [hsplit] at hread
  exact ⟨_, (Token.readBack_append.mp hread).2.1⟩

/-- The numeral of a token is made of its parts. -/
theorem exists_isNumeralText_of_mem (h : ofString text = .ok source) (ht : t ∈ source.tokens)
    {n : Numeral} (hn : t.kind.numeral? = some n) :
    ∃ sign whole fraction exponent, IsNumeralText sign whole fraction exponent ∧
      n = ⟨String.ofList (sign ++ whole ++ fraction ++ exponent),
        numeralValue sign whole fraction exponent⟩ := by
  obtain ⟨-, rfl⟩ := ofString_eq_ok_iff.mp h
  obtain ⟨s, hstart, rfl⟩ := exists_readNumeral_of_mem_tokensFrom ht hn
  exact exists_isNumeralText hstart

/-- The numeral of a token is read back. -/
theorem isCanonical_of_mem (h : ofString text = .ok source) (ht : t ∈ source.tokens)
    {n : Numeral} (hn : t.kind.numeral? = some n) : n.IsCanonical := by
  obtain ⟨sign, whole, fraction, exponent, hparts, rfl⟩ := exists_isNumeralText_of_mem h ht hn
  refine hparts.isCanonical rfl rfl fun count hcount => ?_
  obtain ⟨hdigits, rfl⟩ := ofString_eq_ok_iff.mp h
  exact hdigits t ht count (by rwa [Token.HasDigits, hn])

/-- A dimension of a source with a legible unit is read back alone. -/
theorem readsBefore_dimension_of_mem (h : ofString text = .ok source) (ht : t ∈ source.tokens)
    {n : Numeral} {unit : String} (hkind : t.kind = .dimension n unit)
    (hlegible : (Token.Kind.dimension n unit).IsLegible) :
    (Token.written (.dimension n unit)).ReadsBefore [] := by
  obtain ⟨htext, htakes⟩ := hlegible
  have hsound := sound_of_mem h t ht
  rw [hkind] at hsound
  obtain ⟨-, hname⟩ := hsound
  obtain ⟨sign, whole, fraction, exponent, hparts, hn⟩ :=
    exists_isNumeralText_of_mem h ht (n := n) (by rw [hkind]; rfl)
  have hlist : n.text.toList = sign ++ whole ++ fraction ++ exponent := by
    rw [hn, String.toList_ofList]
  have hstart : startsName unit.toList := by
    have hstart := (startsName_nameText hname.ne_nil []).1
    have hunit := congrArg String.toList htext
    rw [identifierText, String.toList_ofList] at hunit
    rwa [hunit, List.append_nil] at hstart
  have hstops : StopsBehind exponent unit.toList := by
    refine stopsBehind_of_startsName hstart fun hnone => ?_
    have hexponent : (readExponent unit.toList).1 = [] := by
      by_contra hexponent
      refine htakes ⟨?_, hexponent⟩
      rw [hlist]
      exact hparts.exponent_eq_nil_iff.mp hnone
    have happend := readExponent_append unit.toList
    rw [hexponent, List.nil_append] at happend
    exact Prod.ext hexponent happend
  refine Token.readsBefore_dimension_of_stops hname htext ⟨rfl, rfl⟩ ?_ ?_
  · rw [hlist, List.append_assoc, List.append_assoc, List.append_assoc]
    exact hparts.startsNumber _
  · rw [hlist, List.append_nil, List.append_assoc, List.append_assoc, List.append_assoc,
      hparts.readNumeral hstops, hn]

/-- What a legible token says is read back alone, up to what it does not say. -/
theorem exists_written_of_isLegible (h : ofString text = .ok source) (ht : t ∈ source.tokens)
    (htext : t.kind.saysText) (hlegible : t.kind.IsLegible) :
    ∃ kind, t.kind.SaysSame kind ∧ kind.css = t.kind.css ∧ (Token.written kind).IsPlain ∧
      (Token.written kind).ReadsBefore [] := by
  have hsound := sound_of_mem h t ht
  have hplain := Source.isPlain_of_mem h t ht
  have hcanonical {n : Numeral} (hn : t.kind.numeral? = some n) := isCanonical_of_mem h ht hn
  obtain ⟨rest, hread⟩ := exists_readsBefore_of_mem h ht
  cases hkind : t.kind with
  | ident name =>
      rw [hkind] at hsound
      exact ⟨_, ⟨rfl, rfl, rfl, rfl⟩, rfl, Token.isPlain_ident name,
        Token.readsBefore_ident hsound nofun⟩
  | function name =>
      rw [hkind] at hsound hlegible
      exact ⟨_, ⟨rfl, rfl, rfl, rfl⟩, rfl, Token.isPlain_function name,
        Token.readsBefore_function hsound hlegible []⟩
  | atKeyword name =>
      rw [hkind] at hsound
      exact ⟨_, ⟨rfl, rfl, rfl, rfl⟩, rfl, Token.isPlain_atKeyword name,
        Token.readsBefore_atKeyword hsound nofun⟩
  | hash name isIdentifier =>
      rw [hkind] at hsound hlegible
      exact ⟨.hash name (startsName (name.toList ++ [])), ⟨rfl, rfl, rfl, rfl⟩, rfl,
        Token.isPlain_hash hlegible _,
        Token.readsBefore_hash hsound hlegible [] ⟨rfl, rfl⟩⟩
  | string value closed =>
      rw [hkind] at hsound
      exact ⟨.string value true, ⟨rfl, rfl, rfl, rfl⟩, rfl, Token.isPlain_string value,
        Token.readsBefore_string hsound []⟩
  | number n =>
      have hn := hcanonical (by rw [hkind]; rfl)
      exact ⟨_, ⟨rfl, rfl, rfl, rfl⟩, rfl, Token.isPlain_number hn,
        Token.readsBefore_number hn nofun⟩
  | percentage n =>
      have hn := hcanonical (by rw [hkind]; rfl)
      exact ⟨_, ⟨rfl, rfl, rfl, rfl⟩, rfl, Token.isPlain_percentage hn,
        Token.readsBefore_percentage hn []⟩
  | dimension n unit =>
      have hn := hcanonical (by rw [hkind]; rfl)
      rw [hkind] at hlegible
      exact ⟨_, ⟨rfl, rfl, rfl, rfl⟩, rfl, Token.isPlain_dimension hn hlegible.1,
        readsBefore_dimension_of_mem h ht hkind hlegible⟩
  | comment remark closed =>
      rw [hkind] at hlegible
      obtain rfl : closed = true := hlegible
      obtain ⟨hremark, hclosed⟩ := hread.closed_comment hkind
      have hnormal := hplain.normal
      rw [hremark] at hnormal
      exact ⟨_, ⟨rfl, rfl, rfl, rfl⟩, rfl, ⟨hnormal, nofun⟩, hclosed⟩
  | _ =>
      rw [hkind] at htext
      cases htext

/-- The only token of a source is scanned from all of its text. -/
theorem scan_of_tokens_singleton {u : Token} (h : ofString text = .ok source)
    (hu : source.tokens = [u]) :
    ∃ c rest, normalize text.toList = c :: rest ∧ scan c rest = (u.kind, []) := by
  obtain ⟨-, rfl⟩ := ofString_eq_ok_iff.mp h
  dsimp only at hu
  cases hchars : normalize text.toList with
  | nil =>
      rw [hchars, tokensFrom] at hu
      cases hu
  | cons c rest =>
      rw [hchars, tokensFrom] at hu
      obtain ⟨rfl, hrest⟩ := List.cons.inj hu
      refine ⟨c, rest, rfl, Prod.ext rfl ?_⟩
      cases hafter : (scan c rest).2 with
      | nil => rfl
      | cons d after =>
          rw [hafter, tokensFrom] at hrest
          cases hrest

/-- The name of a hash is read behind its sign. -/
theorem readName_of_scan_hash {rest after : List Char} {name : String} {isIdentifier : Bool}
    (h : scan '#' rest = (.hash name isIdentifier, after)) :
    readName rest = (name.toList, after) := by
  have hhash : scan '#' rest = scanHash rest := by simp [scan, isQuote]
  rw [hhash, scanHash] at h
  split at h
  · obtain ⟨hkind, rfl⟩ := Prod.mk.inj h
    obtain ⟨rfl, -⟩ := Token.Kind.hash.inj hkind
    rw [String.toList_ofList]
  · cases (Prod.mk.inj h).1

/-- The unit of a dimension is a name behind its numeral. -/
theorem exists_of_scan_dimension {c : Char} {rest after : List Char} {n : Numeral} {unit : String}
    (hstart : startsNumber (c :: rest)) (h : scan c rest = (.dimension n unit, after)) :
    ∃ mid, readNumeral (c :: rest) = (n, mid) ∧ startsName mid ∧
      readName mid = (unit.toList, after) := by
  rw [scan_of_startsNumber hstart, scanNumeric] at h
  rcases hread : readNumeral (c :: rest) with ⟨value, mid⟩
  simp only [hread] at h
  split at h
  · obtain ⟨hkind, rfl⟩ := Prod.mk.inj h
    obtain ⟨rfl, rfl⟩ := Token.Kind.dimension.inj hkind
    exact ⟨mid, rfl, ‹_›, by rw [String.toList_ofList]⟩
  · split at h <;> cases (Prod.mk.inj h).1

/-- A unit that is read back behind its number is legible. -/
theorem isLegible_of_scan_dimension {n : Numeral} (hn : n.IsCanonical) {unit : String} {c : Char}
    {rest : List Char} (hchars : normalize (n.text ++ unit).toList = c :: rest)
    (hscan : scan c rest = (.dimension n unit, [])) :
    (Token.Kind.dimension n unit).IsLegible := by
  rw [String.toList_append, (normal_of_isControl hn.isControl).normalize_append] at hchars
  have hstart := hn.startsNumber (normalize unit.toList)
  rw [hchars] at hstart
  obtain ⟨mid, hnumeral, hname, hread⟩ := exists_of_scan_dimension hstart hscan
  obtain rfl : mid = normalize unit.toList := by
    have happend := readNumeral_append (c :: rest)
    rw [hnumeral, ← hchars] at happend
    exact List.append_cancel_left happend
  have hunit : ∀ c ∈ unit.toList, isNameChar c := by
    have hplain := isNameChar_of_readName (s := normalize unit.toList)
    rw [hread] at hplain
    exact hplain (length_normalize_le unit.toList)
  have hnormal : normalize unit.toList = unit.toList :=
    (normal_of_isControl fun c hc => Token.isControl_of_isNameChar (hunit c hc)).normalize_eq
  rw [hnormal] at hname hnumeral
  -- the number is read in front of the unit, so it does not take an exponent out of it
  refine ⟨?_, fun htakes => htakes.exponent ?_⟩
  · have hstops : StopsName [] := ⟨rfl, rfl⟩
    have htext := nameText_eq_self hunit
      (by rw [List.append_nil, startsNumber_of_startsName hname])
      (by rwa [List.append_nil]) hstops
    rw [identifierText, htext, String.ofList_toList]
  · rw [readExponent_of_readNumeral hnumeral htakes.mark]

/-- The only token of a source is of the kind of any plain token that is read back from its text. -/
theorem kind_eq_of_readsBefore {u v : Token} (h : ofString text = .ok source)
    (hu : source.tokens = [u]) (hplain : v.IsPlain) (hread : v.ReadsBefore [])
    (htext : text.toList = v.text) : u.kind = v.kind := by
  obtain ⟨other, u', hother, hu', hkind⟩ :=
    Token.exists_ofString_of_readsBefore hplain hread htext
  obtain rfl := Except.ok.inj (h.symm.trans hother)
  obtain rfl := List.singleton_injective (hu.symm.trans hu')
  exact hkind

/-- A comment that the end of the text cut off is read back as a longer one, which has the end mark
that is written behind it. -/
theorem not_saysSame_of_unclosed {remark : String} (h : ofString text = .ok source)
    (ht : t ∈ source.tokens) (hkind : t.kind = .comment remark false) {again : Source}
    (hagain : ofString (Token.Kind.comment remark false).css = .ok again) {u : Token}
    (hu : again.tokens = [u]) : ¬(Token.Kind.comment remark false).SaysSame u.kind := by
  intro hsame
  obtain ⟨after, hread⟩ := exists_readsBefore_of_mem h ht
  have hcut := hread.cutOff (by rw [hkind]; rfl)
  have hnormal := (isPlain_of_mem h t ht).normal
  rw [hkind] at hcut
  generalize t.text = characters at hcut hnormal
  cases hcut with
  | @comment body hbody =>
      have hread := Token.readsBefore_comment hbody []
      generalize hlonger : String.ofList ('/' :: '*' :: body) ++ "*/" = longer at hread
      have htext : (Token.written (.comment longer true)).text =
          '/' :: '*' :: body ++ ['*', '/'] := by
        simp [← hlonger, Token.written, Token.Kind.css]
      have hend : Normal ['*', '/'] := normal_of_isControl (by simp [isControl])
      have hplain : (Token.written (.comment longer true)).IsPlain := by
        refine ⟨?_, fun n hn => by cases hn⟩
        rw [htext]
        exact normal_append.mpr ⟨hnormal, hend⟩
      have hkind : u.kind = .comment longer true :=
        kind_eq_of_readsBefore hagain hu hplain hread (by rw [← hlonger]; rfl)
      -- the remark would have to be as long as with the end mark behind it
      have hlength := congrArg String.length hsame.raw
      rw [hkind, ← hlonger] at hlength
      simp only [Token.Kind.raw, String.length_append] at hlength
      have htwo : "*/".length = 2 := rfl
      omega

/-- A token that says what is read back of its canonical text is legible. -/
theorem isLegible_of_saysSame (h : ofString text = .ok source) (ht : t ∈ source.tokens)
    {again : Source} (hagain : ofString t.kind.css = .ok again) {u : Token}
    (hu : again.tokens = [u]) (hsame : t.kind.SaysSame u.kind) : t.kind.IsLegible := by
  have hsound := sound_of_mem h t ht
  obtain ⟨c, rest, hchars, hscan⟩ := scan_of_tokens_singleton hagain hu
  cases hkind : t.kind with
  | function name =>
      rw [hkind] at hagain hsound hsame
      intro hurl
      have hplain : Token.IsPlain ⟨.url "" false, (Token.Kind.function name).css.toList, .first⟩ :=
        ⟨(Token.isPlain_function name).normal, nofun⟩
      have haddress : u.kind = .url "" false :=
        kind_eq_of_readsBefore hagain hu hplain (Token.readsBefore_url_nil hsound hurl) rfl
      have hlabel := hsame.label
      rw [haddress] at hlabel
      simp [Token.Kind.label] at hlabel
  | hash name isIdentifier =>
      rw [hkind] at hsame hchars
      obtain ⟨other, hother⟩ := hsame.eq_hash
      have hsign : Normal ['#'] := normal_of_isControl (by simp [isControl])
      obtain ⟨rfl, rfl⟩ : '#' = c ∧ normalize name.toList = rest := by
        have hlist : (Token.Kind.hash name isIdentifier).css.toList = ['#'] ++ name.toList :=
          String.toList_append
        rw [hlist, hsign.normalize_append] at hchars
        exact List.cons.inj hchars
      rw [hother] at hscan
      have hread := readName_of_scan_hash hscan
      have hplain := isNameChar_of_readName (s := normalize name.toList)
      rw [hread] at hplain
      exact hplain (length_normalize_le name.toList)
  | dimension n unit =>
      rw [hkind] at hsame hchars
      rw [hsame.eq_dimension] at hscan
      exact isLegible_of_scan_dimension (isCanonical_of_mem h ht (by rw [hkind]; rfl)) hchars hscan
  | comment remark closed =>
      rw [hkind] at hagain hsame
      cases closed with
      | true => rfl
      | false => exact absurd hsame (not_saysSame_of_unclosed h ht hkind hagain hu)
  | _ => trivial

/-- A name, string, number or comment of a source is read back alone from its canonical text, as one
token of its class that says the same, with the same number and unit, if and only if it is
legible. -/
theorem saysSame_iff (h : ofString text = .ok source) (ht : t ∈ source.tokens)
    (htext : t.kind.saysText) :
    (∃ again u, ofString t.kind.css = .ok again ∧ again.tokens = [u] ∧ t.kind.SaysSame u.kind) ↔
      t.kind.IsLegible := by
  constructor
  · rintro ⟨again, u, hagain, hu, hsame⟩
    exact isLegible_of_saysSame h ht hagain hu hsame
  · intro hlegible
    obtain ⟨kind, hsame, hcss, hplain, hread⟩ := exists_written_of_isLegible h ht htext hlegible
    obtain ⟨again, u, hagain, hu, hkind⟩ :=
      Token.exists_ofString_of_readsBefore hplain hread (congrArg String.toList hcss).symm
    exact ⟨again, u, hagain, hu, hkind ▸ hsame⟩

/-- A unit that is written with an escape and needs none is read back. -/
theorem saysSame_iff_pixels :
    ∃ source t, ofString "1\\70 x" = .ok source ∧ t ∈ source.tokens ∧ t.kind.saysText ∧
      t.kind.IsLegible ∧ ∃ again u, ofString t.kind.css = .ok again ∧ again.tokens = [u] ∧
        t.kind.SaysSame u.kind := by
  obtain ⟨source, t, hsource, ht, hkind⟩ : ∃ source t, ofString "1\\70 x" = .ok source ∧
      t ∈ source.tokens ∧ t.kind = .dimension (.ofInt 1) "px" :=
    ⟨_, _, by cbv, List.mem_singleton_self _, rfl⟩
  have htext : t.kind.saysText := by rw [hkind]; rfl
  have hlegible : t.kind.IsLegible := by
    rw [hkind]
    exact ⟨by decide, fun htakes => absurd htakes.exponent (by decide)⟩
  exact ⟨source, t, hsource, ht, htext, hlegible, (saysSame_iff hsource ht htext).mpr hlegible⟩

/-- **Escapes in hashes and units are lost.** The name of this hash holds a semicolon, which ends it
when it is read again. This unit starts with an escaped letter, which is read again as the mark of
an exponent, so that a number with a unit becomes a number. -/
theorem not_saysSame :
    (∃ source t, ofString "#a\\;b" = .ok source ∧ t ∈ source.tokens ∧
      t.kind = .hash "a;b" true ∧ ¬∃ again u, ofString t.kind.css = .ok again ∧
        again.tokens = [u] ∧ t.kind.SaysSame u.kind) ∧
    ∃ source t, ofString "1\\65 5" = .ok source ∧ t ∈ source.tokens ∧
      t.kind = .dimension (.ofInt 1) "e5" ∧ ¬∃ again u, ofString t.kind.css = .ok again ∧
        again.tokens = [u] ∧ t.kind.SaysSame u.kind := by
  refine ⟨⟨_, _, by cbv, List.mem_singleton_self _, rfl, ?_⟩,
    _, _, by cbv, List.mem_singleton_self _, rfl, ?_⟩
  · rintro ⟨again, u, hagain, hu, -⟩
    have hthree : ∃ again, ofString "#a;b" = .ok again ∧ again.tokens.length = 3 :=
      ⟨_, by cbv, rfl⟩
    obtain ⟨again', hagain', hlength⟩ := hthree
    obtain rfl := Except.ok.inj (hagain.symm.trans hagain')
    rw [hu] at hlength
    cases hlength
  · rintro ⟨again, u, hagain, hu, hsame⟩
    have hnumber : (ofString "1e5").toOption.map (fun s => s.tokens.map (·.kind.label)) =
        some ["Number"] := by decide +kernel
    replace hagain : ofString "1e5" = .ok again := hagain
    rw [hagain, Except.toOption, Option.map_some, hu] at hnumber
    have hclass : u.kind.label = "Number" := List.singleton_injective (Option.some.inj hnumber)
    exact absurd (hclass.symm.trans hsame.label) (by decide)

end Source

end Css
