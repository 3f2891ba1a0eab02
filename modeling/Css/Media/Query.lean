import Css.Media.Feature

/-!
# Media queries

A media list matches a device if one of its queries does, and without queries it matches every
device. A query names a media type, or asks for features, or both.
-/

namespace Css

open Number

/-- A word in front of a media type. -/
inductive MediaQualifier where
  | only
  | not
  deriving DecidableEq, Repr

instance : Vocabulary MediaQualifier where
  members := [.only, .not]
  word
    | .only => "only"
    | .not => "not"

/-- A feature in brackets. -/
structure Expression where
  feature : Feature
  deriving BEq, Repr

/-- The canonical text of an expression. -/
def Expression.css (e : Expression) : Except WriteError String := do
  return "(" ++ (← e.feature.css) ++ ")"

/-- A media query. -/
structure MediaQuery where
  qualifier : Option MediaQualifier
  mediaType : Option String
  expressions : List Expression
  deriving BEq, Repr

/-- The canonical text of a media query. -/
def MediaQuery.css (q : MediaQuery) : Except WriteError String := do
  let qualifier := (q.qualifier.map fun word => Vocabulary.word word ++ " ").getD ""
  let mediaType :=
    (q.mediaType.map fun name => if q.expressions.isEmpty then name else name ++ " and ").getD ""
  return qualifier ++ mediaType ++ " and ".intercalate (← q.expressions.mapM Expression.css)

/-- A list of media queries. -/
structure MediaList where
  queries : List MediaQuery
  deriving BEq, Repr

/-- The canonical text of a media list. -/
def MediaList.css (l : MediaList) : Except WriteError String := do
  return ", ".intercalate (← l.queries.mapM MediaQuery.css)

end Css
