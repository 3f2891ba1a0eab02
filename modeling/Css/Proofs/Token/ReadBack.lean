import Css.Proofs.Token.Scanned

/-!
# Tokens that are read back

`Token.ReadsBefore t rest` says that in front of `rest` the text of `t` is read as one token, which
says what `t` says. Tokens of which each is read in front of the next ones are read back from the
text that they make up, wherever it starts.
-/

namespace Css

namespace Token

/-- The token at the beginning of a text. -/
def bare (t : Token) : Token := { t with start := .first }

/-- The token that says something in its canonical text. -/
def written (kind : Kind) : Token := ⟨kind, kind.css.toList, .first⟩

/-- In front of `rest`, the text of the token is read as what the token says. -/
def ReadsBefore (t : Token) (rest : List Char) : Prop :=
  ∃ c text, t.text = c :: text ∧ scan c (text ++ rest) = (t.kind, rest)

/-- The text that tokens make up. -/
def textOf (tokens : List Token) : List Char := tokens.flatMap Token.text

/-- Each of the tokens is read in front of the texts of the next ones and of `rest`. -/
def ReadBack : List Token → List Char → Prop
  | [], _ => True
  | t :: tokens, rest => t.ReadsBefore (textOf tokens ++ rest) ∧ ReadBack tokens rest

/-- The text of two rows of tokens is their texts one after the other. -/
theorem textOf_append (a b : List Token) : textOf (a ++ b) = textOf a ++ textOf b :=
  List.flatMap_append

/-- Two rows of tokens are read back if the first is in front of the second. -/
theorem readBack_append {a b : List Token} {rest : List Char} :
    ReadBack (a ++ b) rest ↔ ReadBack a (textOf b ++ rest) ∧ ReadBack b rest := by
  induction a with
  | nil => simp [ReadBack]
  | cons t a ih =>
      rw [List.cons_append, ReadBack, ReadBack, ih, textOf_append, List.append_assoc, and_assoc]

/-- The tokens one after another from the given place on. -/
def placed (start : Position) : List Token → List Token
  | [] => []
  | t :: tokens => { t with start := start } :: placed (start.advance t.text) tokens

/-- Tokens that are read back are the first ones of a text that starts with theirs. -/
theorem ReadBack.tokensFrom_textOf {tokens : List Token} {rest : List Char}
    (h : ReadBack tokens rest) (start : Position) :
    tokensFrom start (textOf tokens ++ rest) =
      placed start tokens ++ tokensFrom (start.advance (textOf tokens)) rest := by
  induction tokens generalizing start with
  | nil => rfl
  | cons t tokens ih =>
      obtain ⟨⟨c, text, htext, hscan⟩, htokens⟩ := h
      have hshape : textOf (t :: tokens) = c :: text ++ textOf tokens := by
        rw [← htext]
        rfl
      have hfront : textBefore (c :: (text ++ (textOf tokens ++ rest))) (textOf tokens ++ rest) =
          t.text := by
        rw [htext, textBefore, ← List.cons_append, List.length_append, Nat.add_sub_cancel,
          List.take_left]
      rw [hshape, List.append_assoc, List.cons_append, tokensFrom, hscan, hfront]
      dsimp only
      rw [show (⟨t.kind, t.text, start⟩ : Token).stop = start.advance t.text from rfl, ih htokens,
        ← htext, Position.advance_append]
      rfl

/-- Placing tokens changes nothing but where they start. -/
theorem map_bare_placed (start : Position) (tokens : List Token) :
    (placed start tokens).map bare = tokens.map bare := by
  induction tokens generalizing start with
  | nil => rfl
  | cons t tokens ih => exact congrArg (t.bare :: ·) (ih (start.advance t.text))

/-- Tokens that are read back in front of `rest` are the first tokens of their text and `rest`. -/
theorem map_bare_tokensFrom {tokens : List Token} {rest : List Char} (h : ReadBack tokens rest)
    (start : Position) :
    (tokensFrom start (textOf tokens ++ rest)).map bare =
      tokens.map bare ++ (tokensFrom (start.advance (textOf tokens)) rest).map bare := by
  rw [h.tokensFrom_textOf, List.map_append, map_bare_placed]

/-- Tokens that are read back are the tokens of their text. -/
theorem map_bare_tokensFrom_textOf {tokens : List Token} (h : ReadBack tokens [])
    (start : Position) : (tokensFrom start (textOf tokens)).map bare = tokens.map bare := by
  have hread := map_bare_tokensFrom h start
  rwa [List.append_nil, tokensFrom, List.map_nil, List.append_nil] at hread

end Token

end Css
