import Css.Text.LowerCase
import Css.Token.Basic
import Css.Token.Literal

/-!
# Scanning tokens

`scan` reads the token that a character starts. It takes at least that character and leaves an end
of what follows it, `scan_suffix`, so a text falls into finitely many tokens, which `tokensFrom`
lists. Written one after the other they are the text again, `flatMap_text_tokensFrom`.
-/

namespace Css

open Token (Kind)

/-- The token that the end of an address calls for. -/
def urlKind (address : List Char) : Ending → Kind
  | .closed => .url (String.ofList address) true
  | .unclosed => .url (String.ofList address) false
  | .broken => .badUrl (String.ofList address)

/-- The token that the end of a string calls for. -/
def stringKind (value : List Char) : Ending → Kind
  | .closed => .string (String.ofList value) true
  | .unclosed => .string (String.ofList value) false
  | .broken => .badString (String.ofList value)

/-- The token of a name: a function if a bracket follows it, an address if the name is `url` and
no string follows the bracket, an identifier otherwise. -/
def scanNamed (s : List Char) : Kind × List Char :=
  let (name, after) := readName s
  let name := String.ofList name
  match after with
  | '(' :: rest =>
    if Text.lowerCase name = "url" then
      let rest := dropAllButOneSpace rest
      if (dropSpace rest).head?.any isQuote then (.function name, rest)
      else
        let (address, ending, after) := readUrl (rest.dropWhile isSpace)
        (urlKind address ending, after)
    else (.function name, rest)
  | after => (.ident name, after)

/-- The token of a number: with a name behind it a dimension, with a percent sign a percentage. -/
def scanNumeric (s : List Char) : Kind × List Char :=
  let (value, after) := readNumeral s
  if startsName after then
    let (unit, after) := readName after
    (.dimension value (String.ofList unit), after)
  else
    match after with
    | '%' :: rest => (.percentage value, rest)
    | after => (.number value, after)

/-- The token of a hash sign: with a name behind it a hash. -/
def scanHash (rest : List Char) : Kind × List Char :=
  if rest.head?.any isNameChar || startsEscape rest then
    let (name, after) := readName rest
    (.hash (String.ofList name) (startsName rest), after)
  else (.delim '#', rest)

/-- The token of a character that is a token on its own. -/
def punctuation : Char → Kind
  | '(' => .opening .round
  | ')' => .closing .round
  | '[' => .opening .square
  | ']' => .closing .square
  | '{' => .opening .curly
  | '}' => .closing .curly
  | ',' => .comma
  | ':' => .colon
  | ';' => .semicolon
  | c => .delim c

/-- What the token says that starts with `c`, and the text after the token. -/
def scan (c : Char) (rest : List Char) : Kind × List Char :=
  if c = '/' ∧ rest.head? = some '*' then
    let (text, closed, after) := readComment (rest.drop 1)
    (.comment (String.ofList ('/' :: '*' :: text)) closed, after)
  else if isQuote c then
    let (value, ending, after) := readString c rest
    (stringKind value ending, after)
  else if c = '#' then scanHash rest
  else if startsNumber (c :: rest) then scanNumeric (c :: rest)
  else if c = '-' ∧ ['-', '>'].isPrefixOf rest then (.htmlClose, rest.drop 2)
  else if c = '<' ∧ ['!', '-', '-'].isPrefixOf rest then (.htmlOpen, rest.drop 3)
  else if c = '@' ∧ startsName rest then
    let (name, after) := readName rest
    (.atKeyword (String.ofList name), after)
  else if startsName (c :: rest) then scanNamed (c :: rest)
  else if isSpace c then
    (.space (String.ofList (c :: rest.takeWhile isSpace)), rest.dropWhile isSpace)
  else (punctuation c, rest)

/-- A name takes the first character of a text that starts with one. -/
theorem readName_suffix_of_startsName {c : Char} {rest : List Char}
    (h : startsName (c :: rest)) : (readName (c :: rest)).2 <:+ rest := by
  apply readName_suffix_tail
  by_cases hc : c = '-'
  · simp [hc, isNameChar]
  · simp only [startsName, hc, if_false, Bool.or_eq_true] at h
    rcases h with h | h
    · simp [isNameChar, h]
    · exact .inr h

/-- What follows the token of a name is an end of the text after its first character. -/
theorem scanNamed_suffix {c : Char} {rest : List Char} (h : startsName (c :: rest)) :
    (scanNamed (c :: rest)).2 <:+ rest := by
  have hname := readName_suffix_of_startsName h
  simp only [scanNamed]
  split
  · rename_i after hafter
    rw [hafter] at hname
    have htail := (List.suffix_cons '(' after).trans hname
    split
    · have hspace := (dropAllButOneSpace_suffix after).trans htail
      split
      · exact hspace
      · exact ((readUrl_suffix _).trans (List.dropWhile_suffix _)).trans hspace
    · exact htail
  · exact hname

/-- What follows a numeral is an end of the text after its first character. -/
theorem readNumeral_suffix {c : Char} {rest : List Char} (h : startsNumber (c :: rest)) :
    (readNumeral (c :: rest)).2 <:+ rest := by
  have happend := readNumeral_append (c :: rest)
  have hne := readNumeral_text_ne_nil h
  cases htext : (readNumeral (c :: rest)).1.text.toList with
  | nil => exact absurd htext hne
  | cons d text =>
    rw [htext, List.cons_append, List.cons.injEq] at happend
    exact ⟨text, happend.2⟩

/-- What follows the token of a number is an end of the text after its first character. -/
theorem scanNumeric_suffix {c : Char} {rest : List Char} (h : startsNumber (c :: rest)) :
    (scanNumeric (c :: rest)).2 <:+ rest := by
  have hnumeral := readNumeral_suffix h
  simp only [scanNumeric]
  split
  · exact (readName_suffix _).trans hnumeral
  · split
    · rename_i after hafter
      rw [hafter] at hnumeral
      exact (List.suffix_cons _ _).trans hnumeral
    · exact hnumeral

/-- What follows the token of a hash sign is an end of the text after the sign. -/
theorem scanHash_suffix (rest : List Char) : (scanHash rest).2 <:+ rest := by
  simp only [scanHash]
  split
  · exact readName_suffix rest
  · exact List.suffix_rfl

/-- What follows a token is an end of the text after its first character. -/
theorem scan_suffix (c : Char) (rest : List Char) : (scan c rest).2 <:+ rest := by
  simp only [scan]
  split
  · have hcomment : (readComment (rest.drop 1)).2.2 <:+ rest.drop 1 := ⟨_, readComment_append _⟩
    exact hcomment.trans (List.drop_suffix 1 rest)
  split
  · exact readString_suffix c rest
  split
  · exact scanHash_suffix rest
  split
  · exact scanNumeric_suffix ‹_›
  split
  · exact List.drop_suffix 2 rest
  split
  · exact List.drop_suffix 3 rest
  split
  · exact readName_suffix rest
  split
  · exact scanNamed_suffix ‹_›
  split
  · exact List.dropWhile_suffix _
  · exact List.suffix_rfl

/-- The part of a text in front of one of its ends. -/
def textBefore (s rest : List Char) : List Char :=
  s.take (s.length - rest.length)

/-- The part in front of an end of a text and that end make up the text. -/
theorem textBefore_append {s rest : List Char} (h : rest <:+ s) :
    textBefore s rest ++ rest = s := by
  obtain ⟨front, rfl⟩ := h
  simp [textBefore]

/-- The tokens of a text that starts at the given position. -/
def tokensFrom (start : Position) (s : List Char) : List Token :=
  match s with
  | [] => []
  | c :: rest =>
    let token : Token := ⟨(scan c rest).1, textBefore (c :: rest) (scan c rest).2, start⟩
    token :: tokensFrom token.stop (scan c rest).2
termination_by s.length
decreasing_by
  have := (scan_suffix c rest).length_le
  simp only [List.length_cons]
  omega

/-- The tokens of a text, written one after the other, are the text. -/
theorem flatMap_text_tokensFrom (start : Position) (s : List Char) :
    (tokensFrom start s).flatMap Token.text = s := by
  fun_induction tokensFrom start s with
  | case1 => rfl
  | case2 start c rest token ih =>
    rw [List.flatMap_cons, ih]
    exact textBefore_append ((scan_suffix c rest).trans (List.suffix_cons c rest))

end Css
