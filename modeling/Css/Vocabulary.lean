/-!
# Closed vocabularies

Many values are one word out of a fixed set. A vocabulary lists its members and writes each of them
as one lower-case word.
-/

namespace Css

/-- A finite set of values, each written as one word. -/
class Vocabulary (α : Type) where
  members : List α
  word : α → String

namespace Vocabulary

/-- The member that is written as the given word. -/
def find? (α : Type) [Vocabulary α] (word : String) : Option α :=
  (members : List α).find? fun member => Vocabulary.word member == word

end Vocabulary

/-- The keywords that every property accepts. -/
inductive WideKeyword where
  | initial
  | inherit
  | unset
  | revert
  deriving DecidableEq, Repr

instance : Vocabulary WideKeyword where
  members := [.initial, .inherit, .unset, .revert]
  word
    | .initial => "initial"
    | .inherit => "inherit"
    | .unset => "unset"
    | .revert => "revert"

end Css
