import Sentential.Connective
import Sentential.WhiteSpace

/-!
Tokens of the written form. Each token is written as one character, and white space between tokens
means nothing: what stays of a text is a token for each of its other characters.
-/
namespace Sentential

inductive Token
  | var (name : Char)
  | operator (op : Operator)
  | leftParen
  | rightParen
  deriving DecidableEq

namespace Token

def symbol : Token → Char
  | .var name => name
  | .operator op => op.symbol
  | .leftParen => '('
  | .rightParen => ')'

/-- Only operators have a precedence. -/
def precedence? : Token → Option Nat
  | .operator op => some op.precedence
  | _ => none

def isParen : Token → Bool
  | .leftParen | .rightParen => true
  | _ => false

/-- Every symbol has a token of its own, and a character that is no symbol names a variable. -/
def ofSymbol : Char → Token
  | '¬' => .operator .not
  | '∧' => .operator (.binary .and)
  | '∨' => .operator (.binary .or)
  | '⊕' => .operator (.binary .xor)
  | '↓' => .operator (.binary .nor)
  | '↑' => .operator (.binary .nand)
  | '→' => .operator (.binary .implies)
  | '←' => .operator (.binary .impliedBy)
  | '↔' => .operator (.binary .iff)
  | '(' => .leftParen
  | ')' => .rightParen
  | c => .var c

/-- White space makes no token, also where it would name a variable. -/
def ofChar? (c : Char) : Option Token :=
  if isWhiteSpace c then none else some (ofSymbol c)

/-- The symbols that tokens are read from are the ones that tokens are written as. -/
theorem symbol_ofSymbol (c : Char) : (ofSymbol c).symbol = c := by
  fun_cases ofSymbol c <;> rfl

theorem ofSymbol_operator (op : Operator) : ofSymbol op.symbol = .operator op := by
  cases op with
  | not => rfl
  | binary op => cases op <;> rfl

/-- A character that can name a variable: neither white space, nor a parenthesis, nor the symbol of
an operator. -/
def Plain (c : Char) : Prop :=
  isWhiteSpace c = false ∧ c ≠ '(' ∧ c ≠ ')' ∧ ∀ op : Operator, op.symbol ≠ c

theorem ofSymbol_eq_var_iff {c name : Char} : ofSymbol c = .var name ↔
    (c ≠ '(' ∧ c ≠ ')' ∧ ∀ op : Operator, op.symbol ≠ c) ∧ c = name := by
  constructor
  · intro read
    have same : c = name := by rw [← symbol_ofSymbol c, read, symbol]
    refine ⟨⟨?_, ?_, ?_⟩, same⟩
    · rintro rfl
      contradiction
    · rintro rfl
      contradiction
    · rintro op rfl
      simp [ofSymbol_operator] at read
  · rintro ⟨⟨notLeft, notRight, notOperator⟩, rfl⟩
    have written := symbol_ofSymbol c
    generalize ofSymbol c = t at written ⊢
    cases t with
    | var name => exact congrArg Token.var written
    | operator op => exact absurd written (notOperator op)
    | leftParen => exact absurd written.symm notLeft
    | rightParen => exact absurd written.symm notRight

theorem ofChar?_operator (op : Operator) : ofChar? op.symbol = some (.operator op) := by
  have solid : isWhiteSpace op.symbol = false := by
    cases op with
    | not => decide
    | binary op => cases op <;> decide
  rw [ofChar?, solid, ofSymbol_operator]
  rfl

theorem ofChar?_eq_var_iff {c name : Char} : ofChar? c = some (.var name) ↔ Plain c ∧ c = name := by
  cases blank : isWhiteSpace c <;> simp [ofChar?, Plain, blank, ofSymbol_eq_var_iff]

instance (c : Char) : Decidable (Plain c) :=
  decidable_of_iff (ofChar? c = some (.var c)) (by simp [ofChar?_eq_var_iff])

/-- The tokens of a text, in the order of its characters. -/
def ofText (text : String) : List Token :=
  text.toList.filterMap ofChar?

/-- Where a text has a variable, a plain character names it. -/
theorem plain_of_mem_ofText {text : String} {name : Char} (member : .var name ∈ ofText text) :
    Plain name := by
  obtain ⟨c, -, read⟩ := List.mem_filterMap.mp member
  obtain ⟨plain, rfl⟩ := ofChar?_eq_var_iff.mp read
  exact plain

/-- The tokens written one after the other, with nothing between them. -/
def text (tokens : List Token) : String :=
  String.ofList (tokens.map symbol)

end Token

end Sentential
