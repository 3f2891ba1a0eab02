import Css.Declaration.VendorPrefix
import Css.Text.LowerCase

/-!
# Property declarations

A declaration gives a value to a property. Apart from the keywords that every property accepts, the
value is kept as it is written. Declarations are ordered by the texts of their prefix, name, value
and importance. Two declarations with the same texts need not be equal, so the comparisons that
allow equality are not the ones that exclude the opposite order.
-/

namespace Css

/-- A value that has not been interpreted. -/
inductive PropertyValue where
  | wide (keyword : WideKeyword)
  | specified (css : String)
  deriving DecidableEq, Repr

/-- The canonical text of a value. -/
def PropertyValue.css : PropertyValue → String
  | wide keyword => Vocabulary.word keyword
  | specified css => css

/-- The name of a custom property starts with two hyphens. -/
def isCustomName (name : String) : Bool := ['-', '-'].isPrefixOf name.toList

/-- A declaration. Its name does not hold the vendor prefix. -/
structure Declaration where
  vendorPrefix : Option VendorPrefix
  name : String
  value : PropertyValue
  important : Bool
  deriving DecidableEq, Repr

namespace Declaration

/-- The canonical text of the importance of a declaration. -/
def importanceCss (d : Declaration) : String := if d.important then "!important" else ""

/-- The canonical text of a declaration without the semicolon. -/
def css (d : Declaration) : String :=
  (d.vendorPrefix.map VendorPrefix.css).getD "" ++ d.name ++ ":" ++ d.value.css ++ d.importanceCss

/-- The declared property is a custom one. -/
def isCustom (d : Declaration) : Bool := isCustomName d.name

/-- The name looks vendor-prefixed, whether the prefix is recognized or not. -/
def isPrefixed (d : Declaration) : Bool :=
  !d.isCustom && (d.vendorPrefix.isSome || d.name.toList.head? = some '-')

/-- The declared property has the given name, in whatever case. -/
def isNamed (d : Declaration) (name : String) : Bool :=
  Text.lowerCase d.name == Text.lowerCase name

/-- What declarations are ordered by: the vendor prefix, the name, the value and the importance. -/
def sortKey (d : Declaration) : List String :=
  [(d.vendorPrefix.map VendorPrefix.name).getD "", d.name, d.value.css, d.importanceCss]

/-- The first declaration comes before the second in the order of keys. -/
def precedes (a b : Declaration) : Bool := a.sortKey < b.sortKey

/-- The first declaration comes before the second or equals it. -/
def isAtMost (a b : Declaration) : Bool := a.precedes b || a = b

/-- The first declaration neither comes before the second nor equals it. -/
def follows (a b : Declaration) : Bool := !a.precedes b && a ≠ b

/-- The first declaration does not come before the second. -/
def isAtLeast (a b : Declaration) : Bool := !a.precedes b

end Declaration

/-- The declarations of a rule in order. -/
structure Declarations where
  declarations : List Declaration
  deriving DecidableEq, Repr

namespace Declarations

/-- The canonical text of declarations. -/
def css (d : Declarations) : String :=
  String.join (d.declarations.map fun declaration => declaration.css ++ ";")

/-- The declarations by ascending order. Equal ones keep their places. -/
def sorted (d : Declarations) : List Declaration :=
  d.declarations.mergeSort fun a b => !b.precedes a

end Declarations

end Css
