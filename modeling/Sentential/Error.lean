import Sentential.Token

/-!
What can go wrong. An `Error` is the fault of a text, or of a formula and an assignment that do
not fit. A `Misuse` is the fault of the caller: an argument that the operation was never meant
for.
-/
namespace Sentential

inductive Error
  | invalidFormula
  | mismatchedParenthesis (position : Nat)
  | unknownVariable (name : Char)
  deriving DecidableEq

def Error.message : Error → String
  | .invalidFormula =>
    "Invalid expression: a connective is missing an operand or an operand is misplaced."
  | .mismatchedParenthesis position =>
    "Mismatched parenthesis at token " ++ toString position ++ "."
  | .unknownVariable name =>
    "Variable `" ++ name.toString ++ "` has no value in the assignment."

inductive Misuse
  | notOneCharacter (name : String)
  | loneParenthesis (token : Token)
  | repeatedVariable (name : Char)
  deriving DecidableEq

def Misuse.message : Misuse → String
  | .notOneCharacter name =>
    "Variable name `" ++ name ++ "` is not a single character."
  | .loneParenthesis token =>
    "Token `" ++ token.symbol.toString ++ "` should have been consumed by grouping."
  | .repeatedVariable name =>
    "Variable " ++ name.toString ++ " appears multiple times."

end Sentential
