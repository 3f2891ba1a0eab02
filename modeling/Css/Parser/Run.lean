import Css.Parser.Basic
import Css.Token.Source

/-!
# Parsing texts

A text is refused because of its tokens, before any grammar looks at it, or because of a fault that
a grammar finds.
-/

namespace Css

/-- The reason why a text could not be read. -/
inductive ReadError where
  | limit (error : LimitError)
  | parse (error : ParseError)

/-- A cursor in front of a text. -/
def Cursor.ofSource (s : Source) : Cursor := ⟨Component.ofTokens s.tokens, s.stop⟩

/-- A cursor in front of a text, if its tokens can be read. -/
def Cursor.ofText (text : String) : Except ReadError Cursor :=
  match Source.ofString text with
  | .ok source => .ok (.ofSource source)
  | .error e => .error (.limit e)

namespace Parser

variable {α : Type}

/-- What a parser reads at the beginning of a text. -/
def run (p : Parser α) (text : String) : Except ReadError α := do
  match p (← Cursor.ofText text) with
  | .ok a _ => .ok a
  | .error e _ => .error (.parse e)

/-- What a parser reads from a text that has to hold something, and nothing else. -/
def only (p : Parser α) : Parser α := do
  if ← isExhausted then fault .endOfInput (← location)
  entirely p

end Parser

end Css
