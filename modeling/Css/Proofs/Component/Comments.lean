import Css.Proofs.Parser.Significant
import Mathlib

/-!
# Components without comments

`Component.withoutCommentsOf` takes the comments out of a row of components, at every depth, and
leaves everything else where it stands. What a single component shows on the outside stays the same,
so skipping and stopping at components that are no comments commute with it.
-/

namespace Css

open Css.Parser

namespace Component

mutual

/-- The component without the comments in it. -/
def withoutComments : Component → Component
  | leaf t => leaf t
  | group opening contents closing => group opening (withoutCommentsOf contents) closing

/-- The components without the comments among them and in them. -/
def withoutCommentsOf : List Component → List Component
  | [] => []
  | c :: rest =>
    if c.isComment then withoutCommentsOf rest else c.withoutComments :: withoutCommentsOf rest

end

/-- What is no comment stays in its place. -/
theorem withoutCommentsOf_cons {c : Component} (h : c.isComment = false) (rest : List Component) :
    withoutCommentsOf (c :: rest) = c.withoutComments :: withoutCommentsOf rest := by
  rw [withoutCommentsOf, if_neg (by simp [h])]

/-- A comment is taken out. -/
theorem withoutCommentsOf_comment {c : Component} (h : c.isComment = true) (rest : List Component) :
    withoutCommentsOf (c :: rest) = withoutCommentsOf rest := by
  rw [withoutCommentsOf, if_pos h]

section Outside

variable (c : Component)

/-- A component is a filler as without its comments. -/
@[simp] theorem isFiller_withoutComments : c.withoutComments.isFiller = c.isFiller := by
  cases c <;> rfl

/-- A component ends a segment as without its comments. -/
@[simp] theorem delimiter?_withoutComments : c.withoutComments.delimiter? = c.delimiter? := by
  cases c <;> rfl

/-- A component has the name that it has without its comments. -/
@[simp] theorem identName?_withoutComments : identName? c.withoutComments = identName? c := by
  cases c <;> rfl

/-- A component is the keyword that it is without its comments. -/
@[simp] theorem keyword?_withoutComments : keyword? c.withoutComments = keyword? c := by
  rw [keyword?, identName?_withoutComments, keyword?]

/-- A component is a block of the same shape without its comments. -/
@[simp] theorem isBlock_withoutComments (bracket : Bracket) :
    isBlock bracket c.withoutComments = isBlock bracket c := by
  cases c with
  | leaf t => rfl
  | group opening contents closing =>
      obtain ⟨kind, text, start⟩ := opening
      cases kind <;> rfl

/-- A component is the same number without its comments. -/
@[simp] theorem number?_withoutComments : number? c.withoutComments = number? c := by
  cases c <;> rfl

/-- A component is the same integer without its comments. -/
@[simp] theorem integer?_withoutComments : integer? c.withoutComments = integer? c := by
  rw [integer?, number?_withoutComments, integer?]

end Outside

/-- A kind of components to which comments belong, and which is seen from the outside. -/
structure HoldsComments (skipped : Component → Bool) : Prop where
  comment : ∀ c, c.isComment = true → skipped c = true
  outside : ∀ c, skipped c.withoutComments = skipped c

/-- Comments are fillers. -/
theorem holdsComments_isFiller : HoldsComments isFiller :=
  ⟨fun _ => isFiller_of_isComment, isFiller_withoutComments⟩

/-- Comments are comments. -/
theorem holdsComments_isComment : HoldsComments isComment :=
  ⟨fun _ h => h, fun c => by cases c <;> rfl⟩

/-- Comments end no segment. -/
theorem holdsComments_not_isDelimiter (delimiters : List Char) :
    HoldsComments fun c => !isDelimiter delimiters c where
  comment c hc := by
    have hnone : c.delimiter? = none := by
      unfold isComment at hc
      split at hc
      · rfl
      · cases hc
    simp [isDelimiter, hnone]
  outside c := by simp [isDelimiter]

variable {skipped : Component → Bool}

/-- Comments may be taken out before or after the components in front are skipped. -/
theorem HoldsComments.dropWhile (h : HoldsComments skipped) (components : List Component) :
    (withoutCommentsOf components).dropWhile skipped =
      withoutCommentsOf (components.dropWhile skipped) := by
  induction components with
  | nil => rfl
  | cons c rest ih =>
      cases hc : c.isComment with
      | true => rw [withoutCommentsOf_comment hc, ih, List.dropWhile_cons_of_pos (h.comment c hc)]
      | false =>
          rw [withoutCommentsOf_cons hc]
          cases hskipped : skipped c with
          | true =>
              rw [List.dropWhile_cons_of_pos (by rw [h.outside, hskipped]), ih,
                List.dropWhile_cons_of_pos hskipped]
          | false =>
              rw [List.dropWhile_cons_of_neg (by simp [h.outside, hskipped]),
                List.dropWhile_cons_of_neg (by simp [hskipped]), withoutCommentsOf_cons hc]

/-- Comments may be taken out before or after the components in front are taken. -/
theorem HoldsComments.takeWhile (h : HoldsComments skipped) (components : List Component) :
    (withoutCommentsOf components).takeWhile skipped =
      withoutCommentsOf (components.takeWhile skipped) := by
  induction components with
  | nil => rfl
  | cons c rest ih =>
      cases hc : c.isComment with
      | true =>
          rw [withoutCommentsOf_comment hc, ih, List.takeWhile_cons_of_pos (h.comment c hc),
            withoutCommentsOf_comment hc]
      | false =>
          rw [withoutCommentsOf_cons hc]
          cases hskipped : skipped c with
          | true =>
              rw [List.takeWhile_cons_of_pos (by rw [h.outside, hskipped]), ih,
                List.takeWhile_cons_of_pos hskipped, withoutCommentsOf_cons hc]
          | false =>
              rw [List.takeWhile_cons_of_neg (by simp [h.outside, hskipped]),
                List.takeWhile_cons_of_neg (by simp [hskipped])]
              rfl

/-- The first component behind those that are skipped is no comment. -/
theorem HoldsComments.isComment_head (h : HoldsComments skipped) {components rest : List Component}
    {c : Component} (hdrop : components.dropWhile skipped = c :: rest) : c.isComment = false := by
  have hhead := List.head?_dropWhile_not skipped components
  rw [hdrop] at hhead
  by_contra hc
  rw [Bool.not_eq_false] at hc
  simp [h.comment c hc] at hhead

/-- What is found among components, and is no comment, is found among them without comments. -/
theorem find?_withoutCommentsOf {wanted : Component → Bool}
    (h : HoldsComments fun c => !wanted c) (components : List Component) :
    (withoutCommentsOf components).find? wanted =
      (components.find? wanted).map withoutComments := by
  rw [List.find?_eq_head?_dropWhile_not, List.find?_eq_head?_dropWhile_not, h.dropWhile]
  cases hdrop : components.dropWhile fun c => !wanted c with
  | nil => rfl
  | cons c rest => rw [withoutCommentsOf_cons (h.isComment_head hdrop)]; rfl

/-- Nothing but fillers is left if this is so without comments. -/
theorem all_isFiller_withoutCommentsOf (components : List Component) :
    (withoutCommentsOf components).all isFiller = components.all isFiller := by
  induction components with
  | nil => rfl
  | cons c rest ih =>
      cases hc : c.isComment with
      | true => rw [withoutCommentsOf_comment hc, ih, List.all_cons, isFiller_of_isComment hc,
          Bool.true_and]
      | false => rw [withoutCommentsOf_cons hc, List.all_cons, ih, isFiller_withoutComments,
          List.all_cons]

end Component

end Css
