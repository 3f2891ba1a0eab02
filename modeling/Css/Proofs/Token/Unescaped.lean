import Css.Proofs.Token.First
import Css.Proofs.Token.Rows
import Css.Proofs.Token.Tiling

/-!
# Names without escapes

An escape takes more characters than the one that it stands for. So a name that takes no more
characters than it has is written without escapes, and a name is read from its own characters in
front of a colon if and only if it needs none, `Source.ofString_name_iff`.
-/

namespace Css

/-- Normalizing a text does not make it longer. -/
theorem length_normalize_le (s : List Char) : (normalize s).length ≤ s.length := by
  fun_induction normalize s with
  | case1 => exact Nat.le_refl 0
  | case2 rest ih =>
      simp only [List.length_cons]
      omega
  | case3 c rest _ ih =>
      simp only [List.length_cons]
      omega

/-- A name has no more characters than it takes. -/
theorem length_readName_le (s : List Char) :
    (readName s).1.length + (readName s).2.length ≤ s.length := by
  fun_induction readName s with
  | case1 => exact Nat.le_refl 0
  | case2 c rest hc name after hread ih =>
      simp only [hread, List.length_cons] at ih ⊢
      omega
  | case3 c rest _ _ name after hread ih =>
      have hescape := (readEscape_suffix rest).length_le
      simp only [hread, List.length_cons] at ih ⊢
      omega
  | case4 => simp

/-- A name that has no fewer characters than it takes is written without escapes. -/
theorem isNameChar_of_readName {s : List Char}
    (h : s.length ≤ (readName s).1.length + (readName s).2.length) :
    ∀ c ∈ (readName s).1, isNameChar c := by
  fun_induction readName s with
  | case1 => exact List.forall_mem_nil _
  | case2 c rest hc name after hread ih =>
      simp only [hread, List.length_cons] at ih h ⊢
      exact List.forall_mem_cons.mpr ⟨hc, ih (by omega)⟩
  | case3 c rest _ _ name after hread ih =>
      have hlength := length_readName_le (readEscape rest).2
      simp only [hread, List.length_cons] at hlength h
      cases rest with
      | nil =>
          -- a backslash at the end of a text stands for the replacement character
          obtain ⟨rfl, -⟩ : [] = name ∧ [] = after := by simpa [readEscape, readName] using hread
          simp [readEscape, isNameChar, isNameStart, replacement]
      | cons d rest =>
          have hescape := length_readEscape_lt (List.cons_ne_nil d rest)
          omega
  | case4 => exact List.forall_mem_nil _

/-- In front of some text, a name is what it is written as, or takes more characters than it has. -/
theorem readName_eq_or_lt {s : List Char} (h : (readName s).2 ≠ []) :
    ((readName s).1 ++ (readName s).2 = s ∧ ∀ c ∈ (readName s).1, isNameChar c) ∨
      (readName s).1.length + (readName s).2.length < s.length := by
  fun_induction readName s with
  | case1 => exact absurd rfl h
  | case2 c rest hc name after hread ih =>
      simp only [hread] at ih h ⊢
      rcases ih h with ⟨hsplit, hname⟩ | hlength
      · exact .inl ⟨by rw [List.cons_append, hsplit], List.forall_mem_cons.mpr ⟨hc, hname⟩⟩
      · refine .inr ?_
        simp only [List.length_cons]
        omega
  | case3 c rest _ _ name after hread =>
      have hrest : rest ≠ [] := by
        rintro rfl
        simp [readEscape, readName] at hread
        exact h hread.2
      -- the backslash is the character that an escape takes more than the one it stands for
      have hshort := length_readEscape_lt hrest
      have hlength := length_readName_le (readEscape rest).2
      simp only [hread, List.length_cons] at hlength ⊢
      exact .inr (by omega)
  | case4 => exact .inl ⟨rfl, List.forall_mem_nil _⟩

/-- Characters of names are written as they are. -/
theorem flatMap_nameCharText {text : List Char} (h : ∀ c ∈ text, isNameChar c) :
    text.flatMap nameCharText = text := by
  induction text with
  | nil => rfl
  | cons c text ih =>
      obtain ⟨hc, htext⟩ := List.forall_mem_cons.mp h
      have hnull : c ≠ '\x00' := by
        rintro rfl
        cases hc
      rw [List.flatMap_cons, ih htext, nameCharText, if_neg hnull, if_pos hc]
      rfl

/-- A name that does not start with a digit is written as it is if its characters are. -/
theorem nameStartText_eq_self {c : Char} {text : List Char} (hc : isDigit c = false)
    (h : ∀ d ∈ c :: text, isNameChar d) : nameStartText (c :: text) = c :: text := by
  have hflat := flatMap_nameCharText h
  rw [List.flatMap_cons] at hflat
  rwa [nameStartText, if_neg (by simp [hc])]

/-- What does not continue a name does not start one behind a hyphen. -/
theorem startsName_hyphen_of_stops {rest : List Char} (h : StopsName rest) :
    startsName ('-' :: rest) = false := by
  cases rest with
  | nil => rfl
  | cons d rest =>
      have hd : isNameStart d = false ∧ d ≠ '-' := by
        have hname := h.nameChar
        simp only [List.head?_cons, Option.any_some, isNameChar, Bool.or_eq_false_iff,
          decide_eq_false_iff_not] at hname
        exact ⟨hname.1.1, hname.2⟩
      simp [startsName, h.escape, hd]

/-- The characters of a name are written as they are where a name starts and no number. -/
theorem nameText_eq_self {text rest : List Char} (h : ∀ c ∈ text, isNameChar c)
    (hnumber : startsNumber (text ++ rest) = false) (hstart : startsName (text ++ rest))
    (hstops : StopsName rest) : nameText text = text := by
  unfold nameText
  split
  · rw [List.singleton_append, startsName_hyphen_of_stops hstops] at hstart
    cases hstart
  · rename_i text
    rw [flatMap_nameCharText fun c hc => h c (by simp [hc])]
  · rename_i text hlone hhyphens
    cases text with
    | nil => exact absurd rfl hlone
    | cons c text =>
        have hc : isDigit c = false := by
          simp only [List.cons_append, startsNumber, or_true, if_true, startsUnsigned,
            Bool.or_eq_false_iff] at hnumber
          exact hnumber.1
        rw [nameStartText_eq_self hc (List.forall_mem_cons.mp h).2]
  · rename_i hlone hhyphens hhyphen
    cases text with
    | nil => rfl
    | cons c text =>
        refine nameStartText_eq_self ?_ h
        by_contra hdigit
        have hsign : ¬(c = '+' ∨ c = '-') := by
          rintro (rfl | rfl) <;> exact hdigit rfl
        simp [startsNumber, hsign, startsUnsigned, hdigit] at hnumber

/-- An identifier that takes no more characters than it has needs no escapes. -/
theorem Token.ReadsBefore.identifierText_eq {t : Token} {rest : List Char} (h : t.ReadsBefore rest)
    {name : String} (hkind : t.kind = .ident name) (hrest : rest ≠ [])
    (hlength : t.text.length ≤ name.length) : identifierText name = name := by
  obtain ⟨c, text, htext, hscan⟩ := h
  have hscanned := scanned_scan c (text ++ rest)
  rw [hscan, hkind] at hscanned
  generalize hkind' : Kind.ident name = kind at hscanned
  generalize hfollowing : text ++ rest = following at hscanned
  cases hscanned with
  | ident read _ hnumber hclose hstart hread hbracket =>
      obtain rfl : name = String.ofList read := by simpa using hkind'
      have hstops := stopsName_readName (c :: following)
      rcases readName_eq_or_lt (s := c :: following) (by rwa [hread]) with
        ⟨hsplit, hchars⟩ | hshort
      · rw [hread] at hsplit hchars hstops
        rw [← hsplit] at hnumber hstart
        rw [identifierText, String.toList_ofList, nameText_eq_self hchars hnumber hstart hstops]
      · rw [hread, ← hfollowing] at hshort
        rw [htext, ← String.length_toList, String.toList_ofList] at hlength
        simp only [List.length_cons, List.length_append] at hshort hlength
        omega
  | string value ending => cases ending <;> cases hkind'
  | url name body address ending => cases ending <;> cases hkind'
  | punctuation =>
      split at hkind' <;> cases hkind'
  | _ => cases hkind'

/-- A name that needs no escapes is a name. -/
theorem isName_of_identifierText {name : String} (hname : name ≠ "")
    (h : identifierText name = name) : IsName name where
  ne_nil := by simpa using hname
  nullFree hmem := by
    rw [← h, identifierText, String.toList_ofList] at hmem
    cases Token.isControl_of_mem_nameText hmem

/-- A name that is read back in front of a colon needs no escapes. -/
theorem Source.identifierText_eq {name : String} {source : Source}
    (h : Source.ofString (name ++ ":") = .ok source)
    (hkinds : source.tokens.map Token.kind = [.ident name, .colon]) :
    identifierText name = name := by
  obtain ⟨-, rfl⟩ := Source.ofString_eq_ok_iff.mp h
  have hread := Token.readBack_tokensFrom .first (normalize (name ++ ":").toList)
  have hall := flatMap_text_tokensFrom .first (normalize (name ++ ":").toList)
  dsimp only at hkinds
  generalize tokensFrom .first (normalize (name ++ ":").toList) = tokens at hkinds hread hall
  obtain ⟨t, others, rfl, ht, hothers⟩ := List.map_eq_cons_iff.mp hkinds
  obtain ⟨u, _, rfl, hu, hnil⟩ := List.map_eq_cons_iff.mp hothers
  obtain rfl := List.map_eq_nil_iff.mp hnil
  obtain ⟨hfirst, hsecond, -⟩ := hread
  have hcolon := hsecond.text_ne_nil
  refine hfirst.identifierText_eq ht (by simpa [Token.textOf] using hcolon) ?_
  -- the colon takes a character, so no more than the others are left for the name
  have hnormal := length_normalize_le (name ++ ":").toList
  have hone := List.length_pos_of_ne_nil hcolon
  rw [← hall] at hnormal
  simp only [List.flatMap_cons, List.flatMap_nil, List.append_nil, List.length_append,
    String.toList_append, String.length_toList] at hnormal
  have hcolon : ":".length = 1 := rfl
  omega

/-- A name in front of a colon is read as one identifier of this name and a colon if and only if it
needs no escapes. -/
theorem Source.ofString_name_iff {name : String} (hname : name ≠ "") :
    (∃ source, Source.ofString (name ++ ":") = .ok source ∧
      source.tokens.map Token.kind = [.ident name, .colon]) ↔ identifierText name = name := by
  constructor
  · rintro ⟨source, hsource, hkinds⟩
    exact identifierText_eq hsource hkinds
  · intro htext
    have hread : Token.ReadBack [.written (.ident name), .written .colon] [] :=
      ⟨Token.readsBefore_ident (isName_of_identifierText hname htext)
        (delimited_cons (by decide) []), Token.readsBefore_colon [], trivial⟩
    have hplain : ∀ t ∈ [Token.written (.ident name), .written .colon], t.IsPlain := by
      simpa using ⟨Token.isPlain_ident name, Token.isPlain_colon⟩
    have hcss : (identifierText name ++ ":").toList =
        Token.textOf [.written (.ident name), .written .colon] := String.toList_append ..
    obtain ⟨source, hsource, hbare⟩ := hread.exists_ofString hplain hcss
    refine ⟨source, htext ▸ hsource, ?_⟩
    have hkinds := congrArg (List.map Token.kind) hbare
    rw [List.map_map] at hkinds
    exact hkinds

end Css
