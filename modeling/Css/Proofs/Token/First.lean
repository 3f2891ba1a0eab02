import Css.Proofs.Token.Canonical

/-!
# The first token of a text that starts with a written one

The canonical text of an identifier or a string is read as that token at the beginning of every
source in which nothing behind it continues it, and the other tokens are those of the text behind
it. Null characters are written as replacement characters, so they are read back as these.
-/

namespace Css

/-- A text with replacement characters for its null characters. -/
def readBackText (text : String) : String := String.ofList (text.toList.map readBackChar)

/-- A null character is read back as a replacement character, and every other one as itself. -/
theorem readBackChar_cases {motive : Char → Char → Prop} (null : motive '\x00' replacement)
    (other : ∀ c, c ≠ '\x00' → motive c c) (c : Char) : motive c (readBackChar c) := by
  unfold readBackChar
  split
  · rename_i hc
    rw [hc]
    exact null
  · exact other c ‹_›

/-- What is read back of a character is no null character. -/
theorem readBackChar_ne_null (c : Char) : readBackChar c ≠ '\x00' :=
  readBackChar_cases (motive := fun _ back => back ≠ '\x00') (by decide) (fun _ hc => hc) c

/-- What is read back of a text has no null characters. -/
theorem nullFree_readBackText (text : String) : NullFree (readBackText text).toList := by
  rw [readBackText, String.toList_ofList]
  intro hmem
  obtain ⟨c, -, hc⟩ := List.mem_map.mp hmem
  exact readBackChar_ne_null c hc

/-- What is read back of a text that is not empty is a name. -/
theorem isName_readBackText {name : String} (h : name ≠ "") : IsName (readBackText name) where
  ne_nil := by simpa [readBackText, String.toList_eq_nil_iff] using h
  nullFree := nullFree_readBackText name

/-- Inside a name, a null character is written like the character that it is read back as. -/
theorem nameCharText_readBackChar (c : Char) : nameCharText (readBackChar c) = nameCharText c :=
  readBackChar_cases (motive := fun c back => nameCharText back = nameCharText c) (by decide)
    (fun _ _ => rfl) c

/-- The characters of a name are written like those that they are read back as. -/
theorem flatMap_nameCharText_map (text : List Char) :
    (text.map readBackChar).flatMap nameCharText = text.flatMap nameCharText := by
  simp only [List.flatMap_map, nameCharText_readBackChar]

/-- The start of a name is written like the one that it is read back as. -/
theorem nameStartText_map (text : List Char) :
    nameStartText (text.map readBackChar) = nameStartText text := by
  cases text with
  | nil => rfl
  | cons c text =>
      have hdigit : isDigit (readBackChar c) = isDigit c :=
        readBackChar_cases (motive := fun c back => isDigit back = isDigit c) (by decide)
          (fun _ _ => rfl) c
      simp only [List.map_cons, nameStartText, hdigit, nameCharText_readBackChar,
        flatMap_nameCharText_map]
      split
      · rename_i hc
        rw [readBackChar, if_neg (toNat_of_isDigit hc).1]
      · rfl

/-- Only a hyphen is read back as one. -/
theorem readBackChar_eq_hyphen_iff {c : Char} : readBackChar c = '-' ↔ c = '-' :=
  readBackChar_cases (motive := fun c back => back = '-' ↔ c = '-') (by decide)
    (fun _ _ => Iff.rfl) c

/-- A name without a hyphen in front is written like any start of a name. -/
theorem nameText_of_ne_hyphen {c : Char} (hc : c ≠ '-') (text : List Char) :
    nameText (c :: text) = nameStartText (c :: text) := by
  unfold nameText
  split <;> simp_all

/-- What follows one hyphen is written like any start of a name. -/
theorem nameText_hyphen_cons {c : Char} (hc : c ≠ '-') (text : List Char) :
    nameText ('-' :: c :: text) = '-' :: nameStartText (c :: text) := by
  unfold nameText
  split <;> simp_all

/-- A name is written like the one that it is read back as. -/
theorem nameText_map (text : List Char) : nameText (text.map readBackChar) = nameText text := by
  have hne {c : Char} (hc : c ≠ '-') : readBackChar c ≠ '-' :=
    fun h => hc (readBackChar_eq_hyphen_iff.mp h)
  rcases text with _ | ⟨c, text⟩
  · rfl
  by_cases hc : c = '-'
  · subst hc
    rcases text with _ | ⟨d, text⟩
    · rfl
    by_cases hd : d = '-'
    · subst hd
      exact congrArg (fun text => '-' :: '-' :: text) (flatMap_nameCharText_map text)
    · rw [nameText_hyphen_cons hd, ← nameStartText_map]
      exact nameText_hyphen_cons (hne hd) _
  · rw [nameText_of_ne_hyphen hc, ← nameStartText_map]
    exact nameText_of_ne_hyphen (hne hc) _

/-- An identifier is written like the one that it is read back as. -/
theorem identifierText_readBackText (name : String) :
    identifierText (readBackText name) = identifierText name := by
  rw [identifierText, readBackText, String.toList_ofList, nameText_map, identifierText]

/-- Inside a string, a null character is written like the character that it is read back as. -/
theorem stringCharText_readBackChar (c : Char) :
    stringCharText (readBackChar c) = stringCharText c :=
  readBackChar_cases (motive := fun c back => stringCharText back = stringCharText c) (by decide)
    (fun _ _ => rfl) c

/-- A string is written like the one that it is read back as. -/
theorem stringText_readBackText (value : String) :
    stringText (readBackText value) = stringText value := by
  simp only [stringText, readBackText, String.toList_ofList, List.flatMap_map,
    stringCharText_readBackChar]

/-- What is written and read in front of a text is the first token of the two, and the others are
those of the text, behind the token. -/
theorem Token.exists_written {kind : Kind} (hplain : (written kind).IsPlain) {rest : String}
    (hread : (written kind).ReadsBefore (normalize rest.toList)) :
    ∃ t, tokensFrom .first (normalize (kind.css ++ rest).toList) =
        t :: tokensFrom t.stop (normalize rest.toList) ∧
      t.kind = kind ∧ t.start = .first ∧ t.text = kind.css.toList ∧
      t.stop.offset = kind.css.length := by
  obtain ⟨c, text, htext, hscan⟩ := hread
  replace htext : kind.css.toList = c :: text := htext
  have hfront : textBefore (c :: (text ++ normalize rest.toList)) (normalize rest.toList) =
      c :: text := by
    rw [textBefore, ← List.cons_append, List.length_append, Nat.add_sub_cancel, List.take_left]
  have hnormal : normalize (kind.css ++ rest).toList = c :: (text ++ normalize rest.toList) := by
    have hcss : Normal kind.css.toList := hplain.normal
    rw [String.toList_append, hcss.normalize_append, htext, List.cons_append]
  refine ⟨⟨kind, c :: text, .first⟩, ?_, rfl, rfl, htext.symm, ?_⟩
  · rw [hnormal, tokensFrom, hscan, hfront]
    rfl
  · rw [Token.offset_stop, ← htext, String.length_toList]
    exact Nat.zero_add _

/-- Normalizing a text does not make it continue what it did not continue. -/
theorem Delimited.normalize {rest : List Char} (h : Delimited rest) :
    Delimited (normalize rest) := by
  cases rest with
  | nil => nofun
  | cons c rest =>
      have hc := h c rfl
      have hnormal : Normal [c] := by
        have hall : delimiters.all (fun c => c ≠ '\r' ∧ c ≠ '\x0C' ∧ c ≠ '\x00') := by decide
        intro d hd
        rw [List.mem_singleton.mp hd]
        simpa using List.all_eq_true.mp hall c hc
      have happend := hnormal.normalize_append rest
      rw [List.singleton_append] at happend
      rw [happend]
      exact delimited_cons hc _

/-- A written identifier in front of what is delimited is the first token of the source: one
identifier, whose name has replacement characters for null characters. It ends where the other text
begins, whose tokens follow. -/
theorem exists_ident_of_identifierText {name : String} (hname : name ≠ "") {rest : String}
    (hrest : Delimited rest.toList) :
    ∃ t, tokensFrom .first (normalize (identifierText name ++ rest).toList) =
        t :: tokensFrom t.stop (normalize rest.toList) ∧
      t.kind = .ident (readBackText name) ∧ t.start = .first ∧
      t.text = (identifierText name).toList ∧ t.stop.offset = (identifierText name).length := by
  have hread := Token.readsBefore_ident (isName_readBackText hname) hrest.normalize
  have hfirst := Token.exists_written (Token.isPlain_ident _) hread
  simp only [Token.Kind.css, identifierText_readBackText] at hfirst
  exact hfirst

/-- The first token of an escaped name that starts like a number, in front of a bracket. -/
theorem exists_ident_of_identifierText_bracket :
    ∃ t, tokensFrom .first (normalize (identifierText "1\x00" ++ ")").toList) =
        t :: tokensFrom t.stop (normalize ")".toList) ∧
      t.kind = .ident (readBackText "1\x00") ∧ t.start = .first ∧
      t.text = (identifierText "1\x00").toList ∧
      t.stop.offset = (identifierText "1\x00").length :=
  exists_ident_of_identifierText (by decide) (delimited_cons (by decide) [])

/-- A written string in front of any text is the first token of the source: one closed string, whose
value has replacement characters for null characters. It ends where the other text begins, whose
tokens follow. -/
theorem exists_string_of_stringText (value rest : String) :
    ∃ t, tokensFrom .first (normalize (stringText value ++ rest).toList) =
        t :: tokensFrom t.stop (normalize rest.toList) ∧
      t.kind = .string (readBackText value) true ∧ t.start = .first ∧
      t.text = (stringText value).toList ∧ t.stop.offset = (stringText value).length := by
  have hread := Token.readsBefore_string (nullFree_readBackText value) (normalize rest.toList)
  have hfirst := Token.exists_written (Token.isPlain_string _) hread
  simp only [Token.Kind.css, stringText_readBackText] at hfirst
  exact hfirst

end Css
