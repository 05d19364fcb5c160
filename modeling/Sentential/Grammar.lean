import Sentential.Formula

/-!
The grammar of formulas. Each level adds some connectives to the one below, and a formula of a level
may stand wherever one of a higher level may. A connective takes a formula of the level below it on
the left and one of its own level on the right, so that chains group to the right.
-/
namespace Sentential

/-- The highest level, at which a whole text is read. -/
def topLevel : Nat := 5

/-- The connectives that a level adds. The first level has negation alone. -/
def levelConnectives : Nat → List Connective
  | 2 => [.and, .nand, .xor]
  | 3 => [.or, .nor]
  | 4 => [.implies, .impliedBy]
  | 5 => [.iff]
  | _ => []

/-- The tokens are a formula of the given level, and the formula is what they say. -/
inductive Derives : Nat → List Token → Formula → Prop
  | var (name : Char) : Derives 1 [.var name] (.var name)
  | not {tokens : List Token} {operand : Formula} :
    Derives 1 tokens operand → Derives 1 (.operator .not :: tokens) (.not operand)
  | parens {tokens : List Token} {e : Formula} :
    Derives topLevel tokens e → Derives 1 (.leftParen :: tokens ++ [.rightParen]) e
  | lift {level : Nat} {tokens : List Token} {e : Formula} :
    level < topLevel → Derives level tokens e → Derives (level + 1) tokens e
  | binary {level : Nat} {op : Connective} {before after : List Token} {left right : Formula} :
    op ∈ levelConnectives (level + 1) → Derives level before left →
      Derives (level + 1) after right →
      Derives (level + 1) (before ++ .operator (.binary op) :: after) (.binary op left right)

end Sentential
