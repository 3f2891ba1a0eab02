/-!
# Positions in a source text

Offsets count characters from zero, lines and columns count from one. A position moves along the
text character by character, so the position where a token stops follows from where it starts and
from what it is made of.
-/

namespace Css

/-- A place in the source text. -/
structure Position where
  offset : Nat
  line : Nat
  column : Nat
  deriving DecidableEq, Repr, Inhabited

namespace Position

/-- The place in front of the first character. -/
def first : Position := ⟨0, 1, 1⟩

/-- The place after one more character. -/
def step (p : Position) (c : Char) : Position :=
  if c = '\n' then ⟨p.offset + 1, p.line + 1, 1⟩ else ⟨p.offset + 1, p.line, p.column + 1⟩

/-- The place after a piece of text. -/
def advance (p : Position) (text : List Char) : Position :=
  text.foldl step p

/-- Nothing moves over the empty text. -/
@[simp] theorem advance_nil (p : Position) : p.advance [] = p := rfl

/-- A position moves over the first character and then over the others. -/
@[simp] theorem advance_cons (p : Position) (c : Char) (text : List Char) :
    p.advance (c :: text) = (p.step c).advance text := rfl

/-- A position moves over two texts in turn. -/
theorem advance_append (p : Position) (a b : List Char) :
    p.advance (a ++ b) = (p.advance a).advance b :=
  List.foldl_append

/-- Each character moves the offset by one. -/
theorem offset_advance (p : Position) (text : List Char) :
    (p.advance text).offset = p.offset + text.length := by
  induction text generalizing p with
  | nil => rfl
  | cons c text ih => simp only [advance_cons, ih, step, List.length_cons]; split <;> simp <;> omega

end Position

end Css
