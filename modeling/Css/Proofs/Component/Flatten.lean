import Css.Component.Basic
import Mathlib

/-!
# Grouping keeps every token

Components that are written out again, each group as its opening token, its contents and its
closing token, are the tokens that were grouped: `Component.tokensOf_ofTokens`. The state of the
grouping is read the same way, so that one more token is one more token at the end of it.
-/

namespace Css

namespace Component

/-- The tokens of two rows of components follow one another. -/
theorem tokensOf_append (a b : List Component) : tokensOf (a ++ b) = tokensOf a ++ tokensOf b := by
  induction a with
  | nil => rfl
  | cons c a ih => rw [List.cons_append, tokensOf, ih, tokensOf, List.append_assoc]

/-- The first error in two rows of components is that of the first, or that of the second. -/
theorem errorTokenOf?_append (a b : List Component) :
    errorTokenOf? (a ++ b) = (errorTokenOf? a).or (errorTokenOf? b) := by
  induction a with
  | nil => rfl
  | cons c a ih => rw [List.cons_append, errorTokenOf?, ih, errorTokenOf?, Option.or_assoc]

namespace Nest

/-- The tokens of an open group and of what stands in front of it, where `inner` are the tokens
inside the group. -/
def frameTokens (inner : List Token) (frame : Frame) : List Token :=
  tokensOf frame.before.reverse ++ frame.opening :: inner

/-- The tokens that a nest was made of. -/
def tokens (nest : Nest) : List Token :=
  nest.frames.foldl frameTokens (tokensOf nest.current.reverse)

/-- A token inside the innermost open group is the last one of all. -/
theorem foldl_frameTokens_append (frames : List Frame) (inner : List Token) (t : Token) :
    frames.foldl frameTokens (inner ++ [t]) = frames.foldl frameTokens inner ++ [t] := by
  induction frames generalizing inner with
  | nil => rfl
  | cons frame frames ih =>
      rw [List.foldl_cons, List.foldl_cons, ← ih]
      simp [frameTokens]

/-- A group that is left has the tokens of its contents and its closing token. -/
theorem tokensOf_reverse_leave (closing : Option Token) (current : List Component) (frame : Frame) :
    tokensOf (leave closing current frame).reverse =
      frameTokens (tokensOf current.reverse ++ closing.toList) frame := by
  simp [leave, tokensOf_append, tokensOf, Component.tokens, frameTokens]

/-- The nest with one more token that ends no group. -/
def enter (nest : Nest) (t : Token) : Nest :=
  if t.kind.closer?.isSome then ⟨[], ⟨t, nest.current⟩ :: nest.frames⟩
  else ⟨.leaf t :: nest.current, nest.frames⟩

/-- Inside a group, a token ends the group or does not. -/
theorem push_cons (current : List Component) (frame : Frame) (frames : List Frame) (t : Token) :
    push ⟨current, frame :: frames⟩ t =
      if closes t frame then ⟨leave (some t) current frame, frames⟩
      else enter ⟨current, frame :: frames⟩ t := rfl

/-- A token that ends no group is added at the end. -/
theorem tokens_enter (nest : Nest) (t : Token) : (nest.enter t).tokens = nest.tokens ++ [t] := by
  unfold enter
  split
  · exact foldl_frameTokens_append nest.frames _ t
  · simp [tokens, tokensOf_append, tokensOf, Component.tokens, ← foldl_frameTokens_append]

/-- Pushing a token adds it at the end. -/
theorem tokens_push (nest : Nest) (t : Token) : (nest.push t).tokens = nest.tokens ++ [t] := by
  obtain ⟨current, frames⟩ := nest
  cases frames with
  | nil => exact tokens_enter ⟨current, []⟩ t
  | cons frame frames =>
      rw [push_cons]
      split
      · rw [tokens, tokens, tokensOf_reverse_leave, List.foldl_cons, ← foldl_frameTokens_append]
        simp [frameTokens]
      · exact tokens_enter ⟨current, frame :: frames⟩ t

/-- Leaving all open groups keeps the tokens. -/
theorem tokensOf_finish (nest : Nest) : tokensOf nest.finish = nest.tokens := by
  obtain ⟨current, frames⟩ := nest
  unfold finish tokens
  induction frames generalizing current with
  | nil => rfl
  | cons frame frames ih =>
      rw [List.foldl_cons, List.foldl_cons, ih, tokensOf_reverse_leave]
      simp

end Nest

/-- The tokens of the components that tokens make up are these tokens. -/
theorem tokensOf_ofTokens (tokens : List Token) : tokensOf (ofTokens tokens) = tokens := by
  have hfold (nest : Nest) : (tokens.foldl Nest.push nest).tokens = nest.tokens ++ tokens := by
    induction tokens generalizing nest with
    | nil => simp
    | cons t tokens ih => rw [List.foldl_cons, ih, Nest.tokens_push, List.append_assoc]; rfl
  rw [ofTokens, Nest.tokensOf_finish, hfold]
  rfl

end Component

end Css
