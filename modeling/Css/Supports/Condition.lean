import Css.Declaration.Basic

/-!
# Supports conditions

A condition asks whether a declaration is supported, and combines such questions. What is neither a
condition nor a declaration is kept as it is written, for a syntax that is still to come.
-/

namespace Css

/-- A condition on what is supported. -/
inductive Condition where
  | negation (condition : Condition)
  | conjunction (conditions : List Condition)
  | disjunction (conditions : List Condition)
  | parenthesized (condition : Condition)
  | declaration (declaration : Declaration)
  | future (css : String)
  deriving Inhabited

namespace Condition

mutual

/-- The canonical text of a condition. -/
def css : Condition → String
  | negation c => "not " ++ c.css
  | conjunction cs => " and ".intercalate (cssOf cs)
  | disjunction cs => " or ".intercalate (cssOf cs)
  | parenthesized c => "(" ++ c.css ++ ")"
  | declaration d => "(" ++ d.css ++ ")"
  | future text => text

/-- The canonical texts of conditions. -/
def cssOf : List Condition → List String
  | [] => []
  | c :: rest => c.css :: cssOf rest

end

mutual

/-- Two conditions are equal. -/
def beq : Condition → Condition → Bool
  | negation a, negation b => beq a b
  | conjunction as, conjunction bs => beqOf as bs
  | disjunction as, disjunction bs => beqOf as bs
  | parenthesized a, parenthesized b => beq a b
  | declaration a, declaration b => a = b
  | future a, future b => a = b
  | _, _ => false

/-- Two lists of conditions are equal. -/
def beqOf : List Condition → List Condition → Bool
  | [], [] => true
  | a :: as, b :: bs => beq a b && beqOf as bs
  | _, _ => false

end

instance : BEq Condition := ⟨beq⟩

end Condition

end Css
