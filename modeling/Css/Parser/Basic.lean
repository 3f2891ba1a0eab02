import Css.Error
import Css.Text.Basic

/-!
# Parsers

A parser reads component values from a cursor and answers with a value or a parse error. The
cursor holds what is left to read and the place where it ends, so an error at the end has a place
too. A parser that fails leaves the cursor where it stood; `attempt` puts it back.
-/

namespace Css

/-- What is left to read, and the place where that ends. -/
structure Cursor where
  rest : List Component
  stop : Position
  deriving Inhabited

namespace Cursor

/-- The place of the next component, white space and comments included, or of the end. -/
def location (c : Cursor) : Position :=
  match c.rest with
  | [] => c.stop
  | component :: _ => component.start

/-- Only white space and comments are left. -/
def isExhausted (c : Cursor) : Bool := c.rest.all Component.isFiller

/-- The cursor without its first components of a kind. -/
def skip (skipped : Component → Bool) (c : Cursor) : Cursor :=
  { c with rest := c.rest.dropWhile skipped }

/-- The components that were read to get from one cursor to a later one. -/
def read (before after : Cursor) : List Component :=
  before.rest.take (before.rest.length - after.rest.length)

/-- The source text that was read to get from one cursor to a later one, trimmed. Whatever the end
of the text cut off is closed, so the text means the same wherever it is written. -/
def readText (before after : Cursor) : String :=
  String.ofList (Text.trim (Component.closedTextOf (before.read after)))

end Cursor

/-- A reader of component values. -/
abbrev Parser := EStateM ParseError Cursor

namespace Parser

variable {α : Type}

/-- Refuses the text because of a fault at the given place. -/
def fault (f : Fault) (location : Position) : Parser α :=
  throw ⟨f, location⟩

/-- Refuses a component where it stands. -/
def unexpected (c : Component) : Parser α :=
  fault (.unexpectedToken c.token) c.start

/-- The place of the next component, or of the end. -/
def location : Parser Position := do return (← get).location

/-- Whether only white space and comments are left. -/
def isExhausted : Parser Bool := do return (← get).isExhausted

/-- The next component behind those that are skipped. -/
def nextAfter (skipped : Component → Bool) : Parser Component := do
  let c := (← get).skip skipped
  match c.rest with
  | [] =>
    set c
    fault .endOfInput c.stop
  | component :: rest =>
    set { c with rest }
    return component

/-- The next component that is neither white space nor a comment. -/
def next : Parser Component := nextAfter Component.isFiller

/-- The next component that is not a comment. -/
def nextOrSpace : Parser Component := nextAfter Component.isComment

/-- The result of a parser, or nothing if it fails, which puts the cursor back. -/
def attempt (p : Parser α) : Parser (Option α) := fun c =>
  match p c with
  | .ok a after => .ok (some a) after
  | .error _ _ => .ok none c

/-- Whether a parser succeeds; if it fails, the cursor is put back. -/
def succeeds (p : Parser α) : Parser Bool := do return (← attempt p).isSome

/-- A parser that puts the cursor back if it fails. -/
def rewinding (p : Parser α) : Parser α := fun c =>
  match p c with
  | .ok a after => .ok a after
  | .error e _ => .error e c

/-- Refuses whatever is left except white space and comments. -/
def atEnd : Parser Unit := do
  let c := (← get).skip Component.isFiller
  set c
  match c.rest with
  | [] => return ()
  | component :: _ => unexpected component

/-- A parser after which nothing may be left. -/
def entirely (p : Parser α) : Parser α := do
  let a ← p
  atEnd
  return a

/-- How far a repeated step came: what it read up to the first error, if there was one. -/
structure Outcome (σ α : Type) where
  items : List α
  error? : Option ParseError
  state : σ
  cursor : Cursor

/-- Repeats a step for as long as there is more to read. The step passes a state on, also when it
fails. A step that reads nothing is not repeated. -/
def collect {σ α : Type} (more : Cursor → Bool)
    (step : σ → Cursor → σ × EStateM.Result ParseError Cursor α) (state : σ) (c : Cursor) :
    Outcome σ α :=
  if more c then
    match step state c with
    | (state, .error e after) => ⟨[], some e, state, after⟩
    | (state, .ok a after) =>
      if after.rest.length < c.rest.length then
        let others := collect more step state after
        { others with items := a :: others.items }
      else ⟨[a], none, state, after⟩
  else ⟨[], none, state, c⟩
termination_by c.rest.length

/-- Repeats a parser for as long as there is more to read. -/
def repeatWhile (more : Cursor → Bool) (p : Parser α) : Parser (List α) := fun c =>
  let outcome := collect more (fun _ c => ((), p c)) () c
  match outcome.error? with
  | some e => .error e outcome.cursor
  | none => .ok outcome.items outcome.cursor

/-- Repeats a parser until only white space and comments are left. -/
def many (p : Parser α) : Parser (List α) :=
  repeatWhile (fun c => !c.isExhausted) p

/-- The parser that is `body` of itself, where it reads the contents of groups. It may call itself
only on components that are nested less deeply, as the contents of a group are. -/
def recursive (body : Parser α → Parser α) (c : Cursor) : EStateM.Result ParseError Cursor α :=
  body (fun inner =>
    if Component.depthOf inner.rest < Component.depthOf c.rest then recursive body inner
    else .error ⟨.endOfInput, inner.stop⟩ inner) c
termination_by Component.depthOf c.rest

/-- The source text of what a parser reads, trimmed and closed. -/
def captured (p : Parser Unit) : Parser String := do
  let before ← get
  p
  return before.readText (← get)

end Parser

end Css
