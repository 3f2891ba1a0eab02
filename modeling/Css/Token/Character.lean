/-!
# Character classes of the token syntax

The classes that decide where a token starts and ends. Every character above ASCII may stand in a
name; the other classes hold ASCII characters only.
-/

namespace Css

/-- Stands for characters that cannot occur: a null character, an escape without a character. -/
def replacement : Char := '\uFFFD'

/-- White space between tokens. -/
def isSpace (c : Char) : Bool := c = '\t' ∨ c = '\n' ∨ c = ' '

/-- A decimal digit. -/
def isDigit (c : Char) : Bool := c.isDigit

/-- A hexadecimal digit. -/
def isHexDigit (c : Char) : Bool := c.isDigit || ('a' ≤ c && c ≤ 'f') || ('A' ≤ c && c ≤ 'F')

/-- A character that starts a name. -/
def isNameStart (c : Char) : Bool := c.isAlpha || c = '_' || 0x80 ≤ c.toNat

/-- A character that continues a name. -/
def isNameChar (c : Char) : Bool := isNameStart c || isDigit c || c = '-'

/-- A control character that an address may not hold. -/
def isNonPrintable (c : Char) : Bool :=
  let n := c.toNat
  n ≤ 0x08 || n = 0x0B || (0x0E ≤ n && n ≤ 0x1F) || n = 0x7F

/-- A mark that opens and closes a string. -/
def isQuote (c : Char) : Bool := c = '"' ∨ c = '\''

/-- The text starts with a backslash that escapes what follows it. -/
def startsEscape : List Char → Bool
  | '\\' :: '\n' :: _ => false
  | '\\' :: _ => true
  | _ => false

/-- The text starts with a name. -/
def startsName : List Char → Bool
  | [] => false
  | c :: rest =>
    if c = '-' then
      startsEscape rest || rest.head?.any fun d => isNameStart d || d = '-'
    else isNameStart c || startsEscape (c :: rest)

/-- The text starts with a digit. -/
def startsDigit (text : List Char) : Bool := text.head?.any isDigit

/-- The text starts with a digit, or with a point and a digit. -/
def startsUnsigned : List Char → Bool
  | [] => false
  | c :: rest => isDigit c || (c = '.' && startsDigit rest)

/-- The text starts with a number. -/
def startsNumber : List Char → Bool
  | [] => false
  | c :: rest => if c = '+' ∨ c = '-' then startsUnsigned rest else startsUnsigned (c :: rest)

end Css
