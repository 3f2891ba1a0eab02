import Css.Token.Character

/-!
# Escapes

A backslash stands for the character whose hexadecimal code point follows it, or else for the
character that follows it. Names and strings are written with escapes for exactly the characters
that could not be read back as themselves.
-/

namespace Css

/-- The number that hexadecimal digits denote. -/
def hexValue (digits : List Char) : Nat :=
  digits.foldl (fun n c =>
    16 * n + (if c.isDigit then c.toNat - '0'.toNat
      else if c.toNat < 'a'.toNat then c.toNat - 'A'.toNat + 10
      else c.toNat - 'a'.toNat + 10)) 0

/-- The character with this code point, or the replacement character if there is none or it is
the null character. -/
def escapedChar (code : Nat) : Char :=
  if code.isValidChar ∧ code ≠ 0 then Char.ofNat code else replacement

/-- The text after one optional white space character. -/
def dropSpace : List Char → List Char
  | [] => []
  | c :: rest => if isSpace c then rest else c :: rest

/-- The character that an escape denotes, read from the text after its backslash, and the text
after the escape. Up to six hexadecimal digits are taken, and one white space character that ends
them. -/
def readEscape : List Char → Char × List Char
  | [] => (replacement, [])
  | c :: rest =>
    if isHexDigit c then
      let digits := ((c :: rest).take 6).takeWhile isHexDigit
      (escapedChar (hexValue digits), dropSpace ((c :: rest).drop digits.length))
    else (c, rest)

/-- What follows an optional white space character is an end of the text. -/
theorem dropSpace_suffix (s : List Char) : dropSpace s <:+ s := by
  cases s with
  | nil => exact List.suffix_rfl
  | cons c rest =>
    simp only [dropSpace]
    split
    · exact List.suffix_cons c rest
    · exact List.suffix_rfl

/-- What follows an escape is an end of the text after its backslash. -/
theorem readEscape_suffix (s : List Char) : (readEscape s).2 <:+ s := by
  cases s with
  | nil => exact List.suffix_rfl
  | cons c rest =>
    simp only [readEscape]
    split
    · exact (dropSpace_suffix _).trans (List.drop_suffix _ _)
    · exact List.suffix_cons c rest

/-- The escape that writes a character by its code point. The space ends the digits. -/
def hexEscape (c : Char) : List Char :=
  '\\' :: Nat.toDigits 16 c.toNat ++ [' ']

/-- A control character, which is written by its code point. -/
def isControl (c : Char) : Bool := c.toNat < 0x20 || c.toNat = 0x7F

/-- The written form of a character inside a name. -/
def nameCharText (c : Char) : List Char :=
  if c = '\x00' then [replacement]
  else if isNameChar c then [c]
  else if isControl c then hexEscape c
  else ['\\', c]

/-- The written form of characters that start a name: a digit there is written by its code
point. -/
def nameStartText : List Char → List Char
  | [] => []
  | c :: rest =>
    (if isDigit c then hexEscape c else nameCharText c) ++ rest.flatMap nameCharText

/-- The written form of a name. A lone hyphen is escaped, two hyphens may be followed by anything,
and what follows one hyphen starts like a name. -/
def nameText : List Char → List Char
  | ['-'] => ['\\', '-']
  | '-' :: '-' :: rest => '-' :: '-' :: rest.flatMap nameCharText
  | '-' :: rest => '-' :: nameStartText rest
  | name => nameStartText name

/-- The written form of a character inside a string. -/
def stringCharText (c : Char) : List Char :=
  if c = '"' ∨ c = '\\' then ['\\', c]
  else if c = '\x00' then [replacement]
  else if isControl c then hexEscape c
  else [c]

/-- The text that reads back as one identifier with this name. -/
def identifierText (name : String) : String :=
  String.ofList (nameText name.toList)

/-- The text that reads back as one string with this value. -/
def stringText (value : String) : String :=
  String.ofList ('"' :: value.toList.flatMap stringCharText ++ ['"'])

end Css
