import Css.CounterStyle.Rule
import Css.Keyframes.Basic
import Css.Media.Query
import Css.Supports.Condition

/-!
# Rules

A rule gives declarations to what selectors match, defines a counter style or an animation, or
groups other rules under a condition.
-/

namespace Css

open Number

/-- A rule of a stylesheet. -/
inductive Rule where
  | style (selectors : String) (declarations : Declarations)
  | media (queries : MediaList) (rules : List Rule)
  | supports (condition : Condition) (rules : List Rule)
  | counterStyle (style : CounterStyle)
  | keyframes (animation : Keyframes)

instance : Inhabited Rule := ⟨.style "" ⟨[]⟩⟩

namespace Rule

mutual

/-- The canonical text of a rule. -/
def css : Rule → Except WriteError String
  | style selectors declarations => .ok (selectors ++ Bracket.curly.around declarations.css)
  | media queries rules => do
    return "@media " ++ (← queries.css) ++ Bracket.curly.around (← cssOf rules)
  | supports condition rules => do
    return "@supports " ++ condition.css ++ Bracket.curly.around (← cssOf rules)
  | counterStyle s => .ok s.css
  | keyframes k => k.css

/-- The canonical text of rules. -/
def cssOf : List Rule → Except WriteError String
  | [] => .ok ""
  | rule :: rest => do return (← rule.css) ++ (← cssOf rest)

end

mutual

/-- Two rules are equal. -/
def beq : Rule → Rule → Bool
  | style s d, style s' d' => s = s' && d = d'
  | media q rules, media q' rules' => q == q' && beqOf rules rules'
  | supports c rules, supports c' rules' => c == c' && beqOf rules rules'
  | counterStyle s, counterStyle s' => s = s'
  | keyframes k, keyframes k' => k == k'
  | _, _ => false

/-- Two lists of rules are equal. -/
def beqOf : List Rule → List Rule → Bool
  | [], [] => true
  | a :: as, b :: bs => beq a b && beqOf as bs
  | _, _ => false

end

instance : BEq Rule := ⟨beq⟩

/-- The rules that a rule groups, if it is a grouping rule. -/
def nested? : Rule → Option (List Rule)
  | media _ rules | supports _ rules => some rules
  | _ => none

/-- A grouping rule with other rules in it. -/
def withNested (rules : List Rule) : Rule → Rule
  | media queries _ => .media queries rules
  | supports condition _ => .supports condition rules
  | rule => rule

end Rule

end Css
