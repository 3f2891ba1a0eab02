import Css.Text.Basic
import Css.Token.Scan

/-!
# Source texts

A source text is normalized before it falls into tokens: every line break becomes a line feed, and
a null character becomes the replacement character. Comments may hold directives that name the
origin of the text.
-/

namespace Css

/-- The text with line feeds for all line breaks and without null characters. -/
def normalize : List Char → List Char
  | [] => []
  | '\r' :: '\n' :: rest => '\n' :: normalize rest
  | c :: rest =>
    (if c = '\r' ∨ c = '\x0C' then '\n' else if c = '\x00' then replacement else c) ::
      normalize rest

/-- A failure to read a text into tokens. -/
inductive LimitError where
  /-- An integer has more digits than may be read. -/
  | tooManyDigits (count : Nat)
  deriving DecidableEq, Repr

/-- The wording of a failure to read a text into tokens. -/
def LimitError.message : LimitError → String
  | .tooManyDigits count =>
    "Exceeds the limit (" ++ toString digitLimit ++
      " digits) for integer string conversion: value has " ++ toString count ++
      " digits; use sys.set_int_max_str_digits() to increase the limit"

/-- A text in tokens, with the place where it ends. -/
structure Source where
  tokens : List Token
  stop : Position
  deriving Repr, Inhabited

namespace Source

/-- The tokens of a text, if it holds no integer with too many digits. -/
def ofString (text : String) : Except LimitError Source :=
  let chars := normalize text.toList
  let tokens := tokensFrom .first chars
  match tokens.findSome? fun t => t.kind.numeral?.bind Numeral.excessDigits? with
  | some count => .error (.tooManyDigits count)
  | none => .ok ⟨tokens, Position.first.advance chars⟩

end Source

/-- What a comment says about the origin of the text: the address of a source map, or of the text
that this one was made from. -/
inductive Directive where
  | sourceMap (address : String)
  | source (address : String)
  deriving DecidableEq, Repr

namespace Directive

/-- The directive that the inside of a comment starts with: a hash or at sign, a space, and one of
two names with an equals sign and an address, which ends at the first blank character. -/
def ofComment? : List Char → Option Directive
  | mark :: ' ' :: rest =>
    let address (text : List Char) := String.ofList (text.takeWhile fun c => !Text.isBlank c)
    if mark = '#' ∨ mark = '@' then
      match Text.after? "sourceMappingURL=".toList rest with
      | some text => some (.sourceMap (address text))
      | none => (Text.after? "sourceURL=".toList rest).map fun text => .source (address text)
    else none
  | _ => none

/-- The directive that a token is. -/
def ofToken? (t : Token) : Option Directive :=
  match t.kind with
  | .comment text closed =>
    let inside := text.toList.drop 2
    ofComment? (if closed then inside.dropLast.dropLast else inside)
  | _ => none

/-- The address in a directive for a source map. -/
def sourceMap? : Directive → Option String
  | .sourceMap address => some address
  | .source _ => none

/-- The address in a directive for the text that this one was made from. -/
def source? : Directive → Option String
  | .sourceMap _ => none
  | .source address => some address

end Directive

namespace Source

/-- The address of the source map, from the last comment that names one. -/
def sourceMapUrl? (s : Source) : Option String :=
  (s.tokens.filterMap fun t => (Directive.ofToken? t).bind Directive.sourceMap?).getLast?

/-- The address of the text that this one was made from, from the last comment that names one. -/
def sourceUrl? (s : Source) : Option String :=
  (s.tokens.filterMap fun t => (Directive.ofToken? t).bind Directive.source?).getLast?

end Source

end Css
