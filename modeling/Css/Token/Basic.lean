import Css.Token.Escape
import Css.Token.Numeral
import Css.Token.Position

/-!
# Tokens

A token is what it says, the text that says it, and where that text starts. What a token says is
free of escapes and quotation marks; `Kind.css` writes it with them again.
-/

namespace Css

/-- The three pairs of brackets. -/
inductive Bracket where
  | round
  | square
  | curly
  deriving DecidableEq, Repr

/-- The character that opens a pair of brackets. -/
def Bracket.opener : Bracket → Char
  | .round => '('
  | .square => '['
  | .curly => '{'

/-- The character that closes a pair of brackets. -/
def Bracket.closer : Bracket → Char
  | .round => ')'
  | .square => ']'
  | .curly => '}'

/-- A text in brackets. -/
def Bracket.around (bracket : Bracket) (text : String) : String :=
  bracket.opener.toString ++ text ++ bracket.closer.toString

/-- What a token says. Strings, addresses and comments that the end of the text cut off are not
`closed`. A hash is an identifier if its name is one. -/
inductive Token.Kind where
  | ident (name : String)
  | function (name : String)
  | atKeyword (name : String)
  | hash (name : String) (isIdentifier : Bool)
  | string (value : String) (closed : Bool)
  | badString (value : String)
  | url (address : String) (closed : Bool)
  | badUrl (address : String)
  | delim (c : Char)
  | colon
  | semicolon
  | comma
  | opening (bracket : Bracket)
  | closing (bracket : Bracket)
  | number (value : Numeral)
  | percentage (value : Numeral)
  | dimension (value : Numeral) (unit : String)
  | comment (text : String) (closed : Bool)
  | space (text : String)
  | htmlOpen
  | htmlClose
  deriving Repr, Inhabited

/-- A token of a source text. -/
structure Token where
  kind : Token.Kind
  text : List Char
  start : Position
  deriving Repr, Inhabited

namespace Token

namespace Kind

/-- What the token says, as one text without escapes and quotation marks. A comment and white space
say what they are written as. -/
def raw : Kind → String
  | ident name | function name | atKeyword name | hash name _ => name
  | string value _ | badString value => value
  | url address _ | badUrl address => address
  | delim c => c.toString
  | colon => ":"
  | semicolon => ";"
  | comma => ","
  | opening bracket => bracket.opener.toString
  | closing bracket => bracket.closer.toString
  | number value | percentage value => value.text
  | dimension value unit => value.text ++ unit
  | comment text _ | space text => text
  | htmlOpen => "<!--"
  | htmlClose => "-->"

/-- The canonical text of the token. -/
def css : Kind → String
  | ident name => identifierText name
  | function name => identifierText name ++ "("
  | atKeyword name => "@" ++ identifierText name
  | hash name _ => "#" ++ name
  | string value _ => stringText value
  | url address _ => "url(" ++ stringText address ++ ")"
  | percentage value => value.text ++ "%"
  | comment text closed => if closed then text else text ++ "*/"
  | space _ => " "
  | kind => kind.raw

/-- The token was not cut off by the end of the text. -/
def isClosed : Kind → Bool
  | string _ closed | url _ closed | comment _ closed => closed
  | _ => true

/-- The name of the class that the token belongs to. -/
def label : Kind → String
  | ident _ => "Ident"
  | function _ => "Function"
  | atKeyword _ => "AtKeyword"
  | hash _ _ => "Hash"
  | string _ _ => "String"
  | badString _ => "BadString"
  | url _ _ => "Url"
  | badUrl _ => "BadUrl"
  | delim _ => "Delim"
  | colon => "Colon"
  | semicolon => "Semicolon"
  | comma => "Comma"
  | opening .curly => "LCurlyBracket"
  | opening .square => "LSquareBracket"
  | opening .round => "LParantheses"
  | closing .curly => "RCurlyBracket"
  | closing .square => "RSquareBracket"
  | closing .round => "RParantheses"
  | number _ => "Number"
  | percentage _ => "Percentage"
  | dimension _ _ => "Dimension"
  | comment _ _ => "Comment"
  | space _ => "Whitespace"
  | htmlOpen => "CDO"
  | htmlClose => "CDC"

/-- The numeral that the token starts with. -/
def numeral? : Kind → Option Numeral
  | number value | percentage value | dimension value _ => some value
  | _ => none

/-- The bracket that closes what the token opens. A function is closed by a round bracket. -/
def closer? : Kind → Option Bracket
  | opening bracket => some bracket
  | function _ => some .round
  | _ => none

/-- A token that no value may hold: a broken string or address, or a closing bracket that closes
nothing. -/
def isError : Kind → Bool
  | badString _ | badUrl _ | closing _ => true
  | _ => false

/-- The error tokens are the broken strings, the broken addresses and the closing brackets. -/
theorem isError_iff {kind : Kind} :
    kind.isError = true ↔
      (∃ value, kind = badString value) ∨ (∃ address, kind = badUrl address) ∨
        ∃ bracket, kind = closing bracket := by
  cases kind <;> simp [isError]

/-- White space and comments separate the other tokens and mean nothing. -/
def isFiller : Kind → Bool
  | space _ | comment _ _ => true
  | _ => false

end Kind

/-- Where the token ends. -/
def stop (t : Token) : Position := t.start.advance t.text

/-- Two tokens say the same: they are of one class and have one meaning. How they are written and
where they stand does not matter. -/
instance : BEq Token where
  beq a b := a.kind.label == b.kind.label && a.kind.raw == b.kind.raw

end Token

end Css
