import Css.Token.Basic

/-!
# Component values

The grammars read component values: single tokens, and groups that own what stands between an
opening token and the bracket that closes it. `Component.ofTokens` groups a list of tokens. A group
that the end of the text cuts off has no closing token.
-/

namespace Css

/-- A token on its own, or an opening token with what it owns. -/
inductive Component where
  | leaf (token : Token)
  | group (opening : Token) (contents : List Component) (closing : Option Token)
  deriving Inhabited

namespace Component

/-- A group that is not closed yet, with the components in front of it in reverse. -/
structure Frame where
  opening : Token
  before : List Component

/-- Components while they are grouped: those of the innermost open group in reverse, and the open
groups from the inside out. -/
structure Nest where
  current : List Component
  frames : List Frame

namespace Nest

/-- Nothing has been read. -/
def empty : Nest := ⟨[], []⟩

/-- The components around the innermost group, in reverse, when it ends at the given bracket or at
the end of the text. -/
def leave (closing : Option Token) (current : List Component) (frame : Frame) : List Component :=
  .group frame.opening current.reverse closing :: frame.before

/-- The token closes what the opening token of the frame opens. -/
def closes (t : Token) (frame : Frame) : Bool :=
  match t.kind, frame.opening.kind.closer? with
  | .closing bracket, some expected => bracket = expected
  | _, _ => false

/-- The nest with one more token: it ends the innermost group, opens a group, or stands alone. -/
def push (nest : Nest) (t : Token) : Nest :=
  let enter : Nest :=
    if t.kind.closer?.isSome then ⟨[], ⟨t, nest.current⟩ :: nest.frames⟩
    else ⟨.leaf t :: nest.current, nest.frames⟩
  match nest.frames with
  | [] => enter
  | frame :: frames => if closes t frame then ⟨leave (some t) nest.current frame, frames⟩ else enter

/-- The components when no token is left, in order. -/
def finish (nest : Nest) : List Component :=
  (nest.frames.foldl (leave none) nest.current).reverse

end Nest

/-- The component values that tokens make up. -/
def ofTokens (tokens : List Token) : List Component :=
  (tokens.foldl Nest.push Nest.empty).finish

/-- The token itself, or the token that opens the group. -/
def token : Component → Token
  | leaf t => t
  | group opening _ _ => opening

/-- What the token itself, or the token that opens the group, says. -/
def kind (c : Component) : Token.Kind := c.token.kind

/-- Where the component starts. -/
def start (c : Component) : Position := c.token.start

mutual

/-- The tokens of a component in order. -/
def tokens : Component → List Token
  | leaf t => [t]
  | group opening contents closing => opening :: (tokensOf contents ++ closing.toList)

/-- The tokens of components in order. -/
def tokensOf : List Component → List Token
  | [] => []
  | c :: rest => c.tokens ++ tokensOf rest

end

mutual

/-- Where the component ends. -/
def stop : Component → Position
  | leaf t => t.stop
  | group _ _ (some closing) => closing.stop
  | group opening contents none => stopOf opening.stop contents

/-- Where components end, or the given place if there are none. -/
def stopOf (start : Position) : List Component → Position
  | [] => start
  | c :: rest => stopOf c.stop rest

end

mutual

/-- The source text of a component. -/
def text : Component → List Char
  | leaf t => t.text
  | group opening contents closing =>
    opening.text ++ textOf contents ++ (closing.map Token.text).getD []

/-- The source text of components. -/
def textOf : List Component → List Char
  | [] => []
  | c :: rest => c.text ++ textOf rest

end

mutual

/-- The source text of a component, with everything closed that the end of the text cut off. -/
def closedText : Component → List Char
  | leaf t => if t.kind.isClosed then t.text else t.kind.css.toList
  | group opening contents closing =>
    opening.text ++ closedTextOf contents ++
      match closing with
      | some t => t.text
      | none => (opening.kind.closer?.map Bracket.closer).toList

/-- The source text of components, with everything closed that the end of the text cut off. -/
def closedTextOf : List Component → List Char
  | [] => []
  | c :: rest => c.closedText ++ closedTextOf rest

end

mutual

/-- The number of groups around the most deeply nested token. -/
def depth : Component → Nat
  | leaf _ => 0
  | group _ contents _ => depthOf contents + 1

/-- The greatest depth among components. -/
def depthOf : List Component → Nat
  | [] => 0
  | c :: rest => max c.depth (depthOf rest)

end

mutual

/-- The first token in the component, at any depth, that no value may hold. -/
def errorToken? : Component → Option Token
  | leaf t => if t.kind.isError then some t else none
  | group _ contents _ => errorTokenOf? contents

/-- The first token in the components, at any depth, that no value may hold. -/
def errorTokenOf? : List Component → Option Token
  | [] => none
  | c :: rest => c.errorToken?.or (errorTokenOf? rest)

end

/-- White space or a comment. -/
def isFiller : Component → Bool
  | leaf t => t.kind.isFiller
  | group _ _ _ => false

/-- A comment. -/
def isComment : Component → Bool
  | leaf ⟨.comment _ _, _, _⟩ => true
  | _ => false

/-- The character that the component ends a segment at: a single character token is its own, and
a block in curly brackets is its opening bracket. -/
def delimiter? : Component → Option Char
  | leaf t =>
    match t.kind with
    | .delim c => some c
    | .colon => some ':'
    | .semicolon => some ';'
    | .comma => some ','
    | _ => none
  | group opening _ _ => if opening.kind matches .opening .curly then some '{' else none

/-- Where the contents of a group end: at its closing bracket, or with the last of them. -/
def contentsStop (opening : Token) (contents : List Component) : Option Token → Position
  | some closing => closing.start
  | none => stopOf opening.stop contents

end Component

end Css
