import Sentential.Item

/-!
Matching parentheses, said by counting. The depth of a token sequence is how many of its
parentheses are still open at its end, and it is negative where more have been closed than opened.
-/
namespace Sentential

def Token.step : Token → Int
  | .leftParen => 1
  | .rightParen => -1
  | _ => 0

def depth : List Token → Int
  | [] => 0
  | t :: tokens => t.step + depth tokens

/-- No parenthesis closes before one opens, and all that open are closed. -/
def Balanced (tokens : List Token) : Prop :=
  (∀ n, 0 ≤ depth (tokens.take n)) ∧ depth tokens = 0

/-- The parenthesis at `position` closes one that was never opened. -/
def Unopened (tokens : List Token) (position : Nat) : Prop :=
  tokens[position]? = some .rightParen ∧ depth (tokens.take (position + 1)) < 0

/-- The parenthesis at `position` opens, and all of the rest stays inside it. -/
def Unclosed (tokens : List Token) (position : Nat) : Prop :=
  tokens[position]? = some .leftParen ∧
    ∀ n, position < n → n ≤ tokens.length → depth (tokens.take position) < depth (tokens.take n)

mutual

/-- No parenthesis is left as a token, at any depth. -/
def Item.ParenFreeOne : Item → Prop
  | .token t => t.isParen = false
  | .group items => Item.ParenFree items

def Item.ParenFree : List Item → Prop
  | [] => True
  | item :: items => item.ParenFreeOne ∧ Item.ParenFree items

end

@[simp] theorem depth_nil : depth [] = 0 :=
  rfl

@[simp] theorem depth_cons (t : Token) (tokens : List Token) :
    depth (t :: tokens) = t.step + depth tokens :=
  rfl

@[simp] theorem depth_append (tokens more : List Token) :
    depth (tokens ++ more) = depth tokens + depth more := by
  induction tokens with
  | nil => simp
  | cons t tokens ih => simp [ih, Int.add_assoc]

end Sentential
