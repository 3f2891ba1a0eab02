import Css.Proofs.Number.Rounding
import Css.Proofs.Token.Scanned
import Css.Proofs.Token.Tiling

/-!
# What tokens can say

A normalized text holds no null character, and an escape never stands for one, so no token says one.
A name that is read where a name starts is not empty, and an integer is as small as the number of
its digits makes it. `Source.sound_of_mem` collects these facts for the tokens of every source.
-/

namespace Css

/-- The text holds no null character. -/
def NullFree (text : List Char) : Prop := '\x00' ∉ text

/-- A name that a token can have: it is not empty and holds no null character. -/
structure IsName (name : String) : Prop where
  ne_nil : name.toList ≠ []
  nullFree : NullFree name.toList

instance (text : List Char) : Decidable (NullFree text) :=
  inferInstanceAs (Decidable ('\x00' ∉ text))

instance (name : String) : Decidable (IsName name) :=
  decidable_of_iff (name.toList ≠ [] ∧ NullFree name.toList)
    ⟨fun h => ⟨h.1, h.2⟩, fun h => ⟨h.ne_nil, h.nullFree⟩⟩

/-- A number that a token can have: an integer within the limit on digits, or a double. -/
def Number.Numeric.IsRead : Numeric → Prop
  | .integer n => n.natAbs < 10 ^ digitLimit
  | .real x => x.IsDouble

/-- What the lexer guarantees about what a token says. -/
def Token.Kind.Sound : Kind → Prop
  | .ident name | .function name | .atKeyword name | .hash name _ => IsName name
  | .string value _ => NullFree value.toList
  | .url address _ => NullFree address.toList
  | .number value | .percentage value => value.value.IsRead
  | .dimension value unit => value.value.IsRead ∧ IsName unit
  | _ => True

/-- The end of a text without null characters has none. -/
theorem NullFree.suffix {s rest : List Char} (h : NullFree s) (hrest : rest <:+ s) :
    NullFree rest :=
  fun hmem => h (hrest.subset hmem)

/-- A normalized text holds no null character. -/
theorem nullFree_normalize (s : List Char) : NullFree (normalize s) := by
  unfold NullFree
  fun_induction normalize s with
  | case1 => simp
  | case2 rest ih => simpa using ih
  | case3 c rest _ ih =>
      simp only [List.mem_cons, not_or]
      refine ⟨?_, ih⟩
      split
      · decide
      · split
        · decide
        · exact fun h => ‹¬c = '\x00'› h.symm

/-- A character other than the first has a code point other than zero. -/
theorem ofNat_ne_null {code : Nat} (hvalid : code.isValidChar) (hne : code ≠ 0) :
    Char.ofNat code ≠ '\x00' := by
  intro h
  have hcode := congrArg Char.toNat h
  rw [Char.ofNat, dif_pos hvalid] at hcode
  exact hne hcode

/-- An escape does not stand for the null character. -/
theorem readEscape_ne_null {s : List Char} (h : NullFree s) : (readEscape s).1 ≠ '\x00' := by
  cases s with
  | nil => decide
  | cons c rest =>
      simp only [readEscape]
      split
      · unfold escapedChar
        split
        · rename_i hcode
          exact ofNat_ne_null hcode.1 hcode.2
        · show replacement ≠ '\x00'
          decide
      · rintro rfl
        exact h (List.mem_cons_self ..)

/-- The names in a text without null characters have none. -/
theorem nullFree_readName {s : List Char} (h : NullFree s) : NullFree (readName s).1 := by
  fun_induction readName s with
  | case1 => simp [NullFree]
  | case2 c rest _ name after hread ih =>
      rw [hread] at ih
      have htail := ih (h.suffix (List.suffix_cons c rest))
      rintro (_ | ⟨_, hmem⟩)
      · exact h (List.mem_cons_self ..)
      · exact htail hmem
  | case3 c rest _ _ name after hread ih =>
      rw [hread] at ih
      have hrest := h.suffix (List.suffix_cons c rest)
      have htail := ih (hrest.suffix (readEscape_suffix rest))
      simp only [NullFree, List.mem_cons, not_or]
      exact ⟨(readEscape_ne_null hrest).symm, htail⟩
  | case4 => simp [NullFree]

/-- The strings in a text without null characters have none. -/
theorem nullFree_readString {quote : Char} {s : List Char} (h : NullFree s) :
    NullFree (readString quote s).1 := by
  fun_induction readString quote s with
  | case1 | case2 | case3 | case4 => simp [NullFree]
  | case5 =>
      rename_i ih
      exact ih (h.suffix ((List.suffix_cons _ _).trans (List.suffix_cons _ _)))
  | case6 =>
      rename_i hread _ _ ih
      rw [hread] at ih
      have hrest := h.suffix (List.suffix_cons _ _)
      simp only [NullFree, List.mem_cons, not_or]
      exact ⟨(readEscape_ne_null hrest).symm, ih (hrest.suffix (readEscape_suffix _))⟩
  | case7 =>
      rename_i hread ih
      rw [hread] at ih
      simp only [NullFree, List.mem_cons, not_or] at h ih ⊢
      exact ⟨h.1, ih h.2⟩

/-- The addresses in a text without null characters have none. -/
theorem nullFree_readUrl {s : List Char} (h : NullFree s) : NullFree (readUrl s).1 := by
  fun_induction readUrl s with
  | case1 | case2 | case3 | case4 | case5 | case6 | case8 => simp [NullFree]
  | case7 =>
      rename_i hread _ _ _ _ ih
      rw [hread] at ih
      have hrest := h.suffix (List.suffix_cons _ _)
      simp only [NullFree, List.mem_cons, not_or]
      exact ⟨(readEscape_ne_null hrest).symm, ih (hrest.suffix (readEscape_suffix _))⟩
  | case9 =>
      rename_i hread ih
      rw [hread] at ih
      simp only [NullFree, List.mem_cons, not_or] at h ih ⊢
      exact ⟨h.1, ih h.2⟩

/-- A name is read where a character of a name or an escape stands. -/
theorem readName_ne_nil {s : List Char} (h : s.head?.any isNameChar ∨ startsEscape s) :
    (readName s).1 ≠ [] := by
  cases s with
  | nil => simp [startsEscape] at h
  | cons c rest =>
      unfold readName
      split
      · simp
      · split
        · simp
        · simp_all

/-- A text that starts with a name starts with a character of a name or an escape. -/
theorem nameChar_or_escape_of_startsName {s : List Char} (h : startsName s) :
    s.head?.any isNameChar ∨ startsEscape s := by
  cases s with
  | nil => simp [startsName] at h
  | cons c rest =>
      by_cases hc : c = '-'
      · simp [hc, isNameChar]
      · simp only [startsName, hc, if_false, Bool.or_eq_true] at h
        rcases h with h | h
        · simp [isNameChar, h]
        · exact .inr h

/-- What is read where a name starts is a name. -/
theorem isName_readName {s : List Char} (h : NullFree s)
    (hstart : s.head?.any isNameChar ∨ startsEscape s) :
    IsName (String.ofList (readName s).1) where
  ne_nil := by
    rw [String.toList_ofList]
    exact readName_ne_nil hstart
  nullFree := by
    rw [String.toList_ofList]
    exact nullFree_readName h

/-- Digits denote a number that is as small as their number makes it. -/
theorem decimalValue_lt (digits : List Char) (h : ∀ c ∈ digits, isDigit c) :
    decimalValue digits < 10 ^ digits.length := by
  induction digits using List.reverseRecOn with
  | nil => simp [decimalValue]
  | append_singleton digits c ih =>
      have hc : c.toNat ≤ 57 := (Char.isDigit_iff_toNat.mp (h c (by simp))).2
      have hdigits := ih fun d hd => h d (by simp [hd])
      simp only [decimalValue, List.foldl_append, List.foldl_cons, List.foldl_nil,
        List.length_append, List.length_singleton, Nat.pow_succ] at hdigits ⊢
      have hzero : '0'.toNat = 48 := rfl
      omega

/-- Digits without a sign denote what they denote as decimal digits. -/
theorem signedValue_of_isDigit {digits : List Char} (h : ∀ c ∈ digits, isDigit c) :
    signedValue digits = decimalValue digits := by
  unfold signedValue
  split
  · exact absurd (h '-' (List.mem_cons_self ..)) (by decide)
  · exact absurd (h '+' (List.mem_cons_self ..)) (by decide)
  · rfl

/-- The sign does not change the magnitude. -/
theorem natAbs_signedValue_readSign (s : List Char) {digits : List Char}
    (h : ∀ c ∈ digits, isDigit c) :
    (signedValue ((readSign s).1 ++ digits)).natAbs = decimalValue digits := by
  have hplain := signedValue_of_isDigit h
  cases s with
  | nil => simp [readSign, hplain]
  | cons c rest =>
      by_cases hsign : c = '+' ∨ c = '-'
      · simp only [readSign, hsign, if_true]
        rcases hsign with rfl | rfl <;> simp [signedValue]
      · simp [readSign, hsign, hplain]

/-- The digits of an integer that was read are the characters of its text but the sign. -/
theorem natAbs_lt_of_readNumeral {s : List Char} {n : Int} {count : Nat}
    (hvalue : (readNumeral s).1.value = .integer n)
    (hdigits : (readNumeral s).1.integerDigits? = some count) : n.natAbs < 10 ^ count := by
  have hwhole : ∀ c ∈ (readDigits (readSign s).2).1, isDigit c :=
    fun c hc => List.all_eq_true.mp List.all_takeWhile c hc
  simp only [Numeral.integerDigits?, hvalue, Number.Numeric.isInteger, if_true,
    Option.some.injEq] at hdigits
  simp only [readNumeral, numeralValue] at hvalue hdigits
  split at hvalue
  · rename_i hplain
    obtain ⟨hfraction, hexponent⟩ := hplain
    cases hvalue
    rw [natAbs_signedValue_readSign s hwhole]
    rw [hfraction, hexponent, String.toList_ofList, List.append_nil, List.append_nil,
      List.filter_append, List.filter_eq_self.mpr hwhole, List.length_append] at hdigits
    refine Nat.lt_of_lt_of_le (decimalValue_lt _ hwhole) (Nat.pow_le_pow_right (by decide) ?_)
    omega
  · cases hvalue

/-- A numeral within the limit on digits denotes a number that a token can have. -/
theorem isRead_readNumeral {s : List Char}
    (h : ∀ count, (readNumeral s).1.integerDigits? = some count → count ≤ digitLimit) :
    (readNumeral s).1.value.IsRead := by
  cases hvalue : (readNumeral s).1.value with
  | integer n =>
      have hdigits : (readNumeral s).1.integerDigits? =
          some ((readNumeral s).1.text.toList.filter isDigit).length := by
        simp [Numeral.integerDigits?, hvalue, Number.Numeric.isInteger]
      exact Nat.lt_of_lt_of_le (natAbs_lt_of_readNumeral hvalue hdigits)
        (Nat.pow_le_pow_right (by decide) (h _ hdigits))
  | real x =>
      simp only [readNumeral, numeralValue] at hvalue
      split at hvalue
      · cases hvalue
      · cases hvalue
        exact Number.Binary64.ofDecimal_isDouble _ _ _

/-- The numeral of a token is one that was read where a number starts. -/
theorem exists_readNumeral_of_scan {c : Char} {rest : List Char} {n : Numeral}
    (h : (scan c rest).1.numeral? = some n) : ∃ s, startsNumber s ∧ n = (readNumeral s).1 := by
  have hscan := scanned_scan c rest
  generalize (scan c rest).1 = kind at h hscan
  generalize (scan c rest).2 = after at hscan
  cases hscan with
  | number value _ hstart hread | percentage value _ hstart hread =>
      exact ⟨c :: rest, hstart, by rw [hread]; exact (Option.some.inj h).symm⟩
  | dimension value mid unit _ hstart hread =>
      exact ⟨c :: rest, hstart, by rw [hread]; exact (Option.some.inj h).symm⟩
  | string value ending => cases ending <;> cases h
  | url name body address ending => cases ending <;> cases h
  | punctuation =>
      unfold punctuation at h
      split at h <;> cases h
  | _ => cases h

/-- What a token says is sound if the text holds no null character and its numeral is one that a
token can have. -/
theorem sound_scan {c : Char} {rest : List Char} (h : NullFree (c :: rest))
    (hnumeral : ∀ n ∈ (scan c rest).1.numeral?, n.value.IsRead) : (scan c rest).1.Sound := by
  have hrest := h.suffix (List.suffix_cons c rest)
  have hname {s name after : List Char} (hs : s <:+ c :: rest)
      (hstart : s.head?.any isNameChar ∨ startsEscape s) (hread : readName s = (name, after)) :
      IsName (String.ofList name) := by
    have := isName_readName (h.suffix hs) hstart
    rwa [hread] at this
  have hself : c :: rest <:+ c :: rest := List.suffix_rfl
  have hscan := scanned_scan c rest
  generalize (scan c rest).1 = kind at hnumeral hscan
  generalize (scan c rest).2 = after at hscan
  cases hscan with
  | string value ending after hc hread =>
      have hvalue : NullFree (readString c rest).1 := nullFree_readString hrest
      rw [hread] at hvalue
      cases ending with
      | broken => trivial
      | closed | unclosed => simpa [stringKind, Token.Kind.Sound] using hvalue
  | hash name after hc hstart hread =>
      exact hname (List.suffix_cons c rest) (by simpa using hstart) hread
  | number value | percentage value => exact hnumeral value rfl
  | dimension value mid unit after hstart hread hunit hunitname =>
      have hmid := readNumeral_suffix hstart
      rw [hread] at hmid
      exact ⟨hnumeral value rfl, hname (hmid.trans (List.suffix_cons c rest))
        (nameChar_or_escape_of_startsName hunit) hunitname⟩
  | atKeyword name after hc hstart hread =>
      exact hname (List.suffix_cons c rest) (nameChar_or_escape_of_startsName hstart) hread
  | ident name after hnumber hclose hstart hread =>
      exact hname hself (nameChar_or_escape_of_startsName hstart) hread
  | function name after hnumber hclose hstart hread =>
      exact hname hself (nameChar_or_escape_of_startsName hstart) hread
  | urlFunction name body hnumber hclose hstart hread =>
      exact hname hself (nameChar_or_escape_of_startsName hstart) hread
  | url name body address ending after hnumber hclose hstart hread hlower hquote hurl =>
      have hbody := readName_suffix (c :: rest)
      rw [hread] at hbody
      have hsuffix := (((List.dropWhile_suffix isSpace).trans
        (dropAllButOneSpace_suffix body)).trans (List.suffix_cons '(' body)).trans hbody
      have haddress := nullFree_readUrl (h.suffix hsuffix)
      rw [hurl] at haddress
      cases ending with
      | broken => trivial
      | closed | unclosed => simpa [urlKind, Token.Kind.Sound] using haddress
  | punctuation =>
      unfold punctuation
      split <;> trivial
  | _ => trivial

/-- The tokens of a text without null characters say sound things if their numerals do. -/
theorem sound_of_mem_tokensFrom {start : Position} {s : List Char} (h : NullFree s)
    (hnumeral : ∀ t ∈ tokensFrom start s, ∀ n ∈ t.kind.numeral?, n.value.IsRead) :
    ∀ t ∈ tokensFrom start s, t.kind.Sound := by
  fun_induction tokensFrom start s with
  | case1 =>
      intro t ht
      cases ht
  | case2 start c rest token ih =>
      intro t ht
      rcases List.mem_cons.mp ht with rfl | ht
      · exact sound_scan h (hnumeral token (List.mem_cons_self ..))
      · have hafter := (h.suffix (List.suffix_cons c rest)).suffix (scan_suffix c rest)
        exact ih hafter (fun t ht => hnumeral t (List.mem_cons_of_mem _ ht)) t ht

/-- The numerals in tokens of a text are ones that were read where numbers start. -/
theorem exists_readNumeral_of_mem_tokensFrom {start : Position} {s : List Char} {t : Token}
    (ht : t ∈ tokensFrom start s) {n : Numeral} (hn : t.kind.numeral? = some n) :
    ∃ s, startsNumber s ∧ n = (readNumeral s).1 := by
  fun_induction tokensFrom start s with
  | case1 => cases ht
  | case2 start c rest token ih =>
      rcases List.mem_cons.mp ht with rfl | ht
      · exact exists_readNumeral_of_scan hn
      · exact ih ht

/-- Every token of a source says sound things. -/
theorem Source.sound_of_mem {text : String} {source : Source}
    (h : Source.ofString text = .ok source) : ∀ t ∈ source.tokens, t.kind.Sound := by
  obtain ⟨hdigits, rfl⟩ := Source.ofString_eq_ok_iff.mp h
  refine sound_of_mem_tokensFrom (nullFree_normalize _) ?_
  intro t ht n hn
  obtain ⟨s, -, rfl⟩ := exists_readNumeral_of_mem_tokensFrom ht hn
  refine isRead_readNumeral fun count hcount => hdigits t ht count ?_
  rw [Token.HasDigits, Option.mem_def.mp hn]
  exact hcount

end Css
