import Css.Token.Escape

/-!
# Names, strings, addresses and comments

The readers of the tokens that hold free text. Each takes the text in front of it apart into what
the token says and what follows the token, and what follows is always an end of the text.
-/

namespace Css

/-- The longest name that the text starts with, and the text after it. -/
def readName (s : List Char) : List Char × List Char :=
  match s with
  | [] => ([], [])
  | c :: rest =>
    if isNameChar c then
      let (name, after) := readName rest
      (c :: name, after)
    else if startsEscape (c :: rest) then
      let (name, after) := readName (readEscape rest).2
      ((readEscape rest).1 :: name, after)
    else ([], c :: rest)
termination_by s.length
decreasing_by
  · simp only [List.length_cons]
    omega
  · have := (readEscape_suffix rest).length_le
    simp only [List.length_cons]
    omega

/-- How a piece of text ended: by its closing mark, at the end of the source, or broken. -/
inductive Ending where
  | closed
  | unclosed
  | broken
  deriving DecidableEq, Repr

/-- The value of a string that the given quotation mark closes, how the string ended, and the text
after it. A line break that is not escaped breaks the string and follows it. -/
def readString (quote : Char) (s : List Char) : List Char × Ending × List Char :=
  match s with
  | [] => ([], .unclosed, [])
  | c :: rest =>
    if c = quote then ([], .closed, rest)
    else if c = '\n' then ([], .broken, c :: rest)
    else if c = '\\' then
      match rest with
      | [] => ([], .unclosed, [])
      | '\n' :: rest => readString quote rest
      | d :: rest =>
        let (value, ending, after) := readString quote (readEscape (d :: rest)).2
        ((readEscape (d :: rest)).1 :: value, ending, after)
    else
      let (value, ending, after) := readString quote rest
      (c :: value, ending, after)
termination_by s.length
decreasing_by
  · simp only [List.length_cons]
    omega
  · have := (readEscape_suffix (d :: rest)).length_le
    simp only [List.length_cons] at this ⊢
    omega
  · simp only [List.length_cons]
    omega

/-- The text after a broken address, which ends at its closing bracket. -/
def afterBrokenUrl (s : List Char) : List Char :=
  match s with
  | [] => []
  | c :: rest =>
    if c = ')' then rest
    else if startsEscape (c :: rest) then afterBrokenUrl (readEscape rest).2
    else afterBrokenUrl rest
termination_by s.length
decreasing_by
  · have := (readEscape_suffix rest).length_le
    simp only [List.length_cons]
    omega
  · simp only [List.length_cons]
    omega

/-- An address without quotation marks, how it ended, and the text after it. White space may only
stand in front of the closing bracket. -/
def readUrl (s : List Char) : List Char × Ending × List Char :=
  match s with
  | [] => ([], .unclosed, [])
  | c :: rest =>
    if c = ')' then ([], .closed, rest)
    else if isSpace c then
      match rest.dropWhile isSpace with
      | [] => ([], .unclosed, [])
      | d :: after =>
        if d = ')' then ([], .closed, after) else ([], .broken, afterBrokenUrl (d :: after))
    else if isQuote c || c = '(' || isNonPrintable c then ([], .broken, afterBrokenUrl rest)
    else if c = '\\' then
      if startsEscape (c :: rest) then
        let (address, ending, after) := readUrl (readEscape rest).2
        ((readEscape rest).1 :: address, ending, after)
      else ([], .broken, afterBrokenUrl rest)
    else
      let (address, ending, after) := readUrl rest
      (c :: address, ending, after)
termination_by s.length
decreasing_by
  · have := (readEscape_suffix rest).length_le
    simp only [List.length_cons]
    omega
  · simp only [List.length_cons]
    omega

/-- The text after the white space in front of an address, of which the last character is kept. -/
def dropAllButOneSpace : List Char → List Char
  | c :: d :: rest =>
    if isSpace c && isSpace d then dropAllButOneSpace (d :: rest) else c :: d :: rest
  | s => s

/-- The text of a comment from after its opening mark, whether it is closed, and the text after
it. -/
def readComment : List Char → List Char × Bool × List Char
  | [] => ([], false, [])
  | '*' :: '/' :: rest => (['*', '/'], true, rest)
  | c :: rest =>
    let (text, closed, after) := readComment rest
    (c :: text, closed, after)

/-- What follows a name is an end of the text. -/
theorem readName_suffix (s : List Char) : (readName s).2 <:+ s := by
  fun_induction readName s with
  | case1 => exact List.suffix_rfl
  | case2 c rest _ name after h ih => exact (h ▸ ih).trans (List.suffix_cons c rest)
  | case3 c rest _ _ name after h ih =>
    exact ((h ▸ ih).trans (readEscape_suffix rest)).trans (List.suffix_cons c rest)
  | case4 => exact List.suffix_rfl

/-- A name that is there takes at least one character. -/
theorem readName_suffix_tail {c : Char} {rest : List Char}
    (h : isNameChar c ∨ startsEscape (c :: rest)) : (readName (c :: rest)).2 <:+ rest := by
  unfold readName
  split
  · exact readName_suffix rest
  · split
    · exact (readName_suffix _).trans (readEscape_suffix rest)
    · simp_all

/-- What follows a string is an end of the text. -/
theorem readString_suffix (quote : Char) (s : List Char) : (readString quote s).2.2 <:+ s := by
  fun_induction readString quote s with
  | case1 => exact List.suffix_rfl
  | case2 => exact List.suffix_cons _ _
  | case3 => exact List.suffix_rfl
  | case4 => exact List.nil_suffix
  | case5 =>
    rename_i ih
    exact ih.trans ((List.suffix_cons _ _).trans (List.suffix_cons _ _))
  | case6 =>
    rename_i h _ _ ih
    rw [h] at ih
    exact (ih.trans (readEscape_suffix _)).trans (List.suffix_cons _ _)
  | case7 =>
    rename_i h ih
    rw [h] at ih
    exact ih.trans (List.suffix_cons _ _)

/-- What follows a broken address is an end of the text. -/
theorem afterBrokenUrl_suffix (s : List Char) : afterBrokenUrl s <:+ s := by
  fun_induction afterBrokenUrl s with
  | case1 => exact List.suffix_rfl
  | case2 => exact List.suffix_cons _ _
  | case3 c rest _ _ ih => exact (ih.trans (readEscape_suffix rest)).trans (List.suffix_cons c rest)
  | case4 c rest _ _ ih => exact ih.trans (List.suffix_cons c rest)

/-- What follows an address is an end of the text. -/
theorem readUrl_suffix (s : List Char) : (readUrl s).2.2 <:+ s := by
  fun_induction readUrl s with
  | case1 => exact List.suffix_rfl
  | case2 => exact List.suffix_cons _ _
  | case3 => exact List.nil_suffix
  | case4 c rest hc hspace after h =>
    have hrest : ')' :: after <:+ rest := h ▸ List.dropWhile_suffix _
    exact ((List.suffix_cons _ after).trans hrest).trans (List.suffix_cons c rest)
  | case5 c rest hc hspace d after h hd =>
    have hrest : d :: after <:+ rest := h ▸ List.dropWhile_suffix _
    exact ((afterBrokenUrl_suffix _).trans hrest).trans (List.suffix_cons c rest)
  | case6 => exact (afterBrokenUrl_suffix _).trans (List.suffix_cons _ _)
  | case7 =>
    rename_i h _ _ _ _ ih
    rw [h] at ih
    exact (ih.trans (readEscape_suffix _)).trans (List.suffix_cons _ _)
  | case8 => exact (afterBrokenUrl_suffix _).trans (List.suffix_cons _ _)
  | case9 =>
    rename_i h ih
    rw [h] at ih
    exact ih.trans (List.suffix_cons _ _)

/-- What follows white space in front of an address is an end of the text. -/
theorem dropAllButOneSpace_suffix (s : List Char) : dropAllButOneSpace s <:+ s := by
  fun_induction dropAllButOneSpace s with
  | case1 c d rest _ ih => exact ih.trans (List.suffix_cons c _)
  | case2 => exact List.suffix_rfl
  | case3 => exact List.suffix_rfl

/-- A comment and the text after it make up the text. -/
theorem readComment_append (s : List Char) : (readComment s).1 ++ (readComment s).2.2 = s := by
  fun_induction readComment s <;> simp_all

end Css
