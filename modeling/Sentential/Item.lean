import Sentential.Error

/-!
Tokens nested by their parentheses. A sequence of items stands for a sequence of tokens
(`Item.flatten`), and `Item.ofTokens` finds the items of any token sequence whose parentheses match.
-/
namespace Sentential

/-- A token, or what stood between an opening parenthesis and the one that closes it. -/
inductive Item
  | token (t : Token)
  | group (items : List Item)

namespace Item

/-- Induction on a sequence of items that goes into the groups, too. -/
theorem induction {motive : List Item → Prop} (nil : motive [])
    (token : ∀ t items, motive items → motive (.token t :: items))
    (group : ∀ content items, motive content → motive items → motive (.group content :: items))
    (items : List Item) : motive items :=
  @Item.rec_1 (fun item => ∀ items, motive items → motive (item :: items)) motive token
    (fun content inside items others => group content items inside others) nil
    (fun _ items first others => first items others) items

mutual

/-- The tokens that an item stands for. A group has its parentheses around it. -/
def flattenOne : Item → List Token
  | .token t => [t]
  | .group items => .leftParen :: (flatten items ++ [.rightParen])

def flatten : List Item → List Token
  | [] => []
  | item :: items => item.flattenOne ++ flatten items

end

@[simp] theorem flatten_append (items more : List Item) :
    flatten (items ++ more) = flatten items ++ flatten more := by
  induction items with
  | nil => simp [flatten]
  | cons item items ih => simp [flatten, ih]

theorem flatten_group (content : List Item) :
    flatten [.group content] = .leftParen :: (flatten content ++ [.rightParen]) := by
  simp only [flatten, flattenOne, List.append_nil]

theorem length_flatten_lt_group (content : List Item) :
    (flatten content).length < (flatten [.group content]).length := by
  rw [flatten_group, List.length_cons, List.length_append]
  omega

/-- A parenthesis that has been opened and not yet closed: where it stands, and the items before
it in the sequence that it interrupts, last first. -/
structure Opening where
  position : Nat
  before : List Item

/-- Reads tokens from `position` on, with `items` the current sequence so far, last first, and
`openings` the parentheses around it, innermost first. -/
def nest (position : Nat) (openings : List Opening) (items : List Item) :
    List Token → Except Error (List Item)
  | [] =>
    match openings with
    | [] => .ok items.reverse
    | opening :: _ => .error (.mismatchedParenthesis opening.position)
  | .leftParen :: tokens => nest (position + 1) (⟨position, items⟩ :: openings) [] tokens
  | .rightParen :: tokens =>
    match openings with
    | [] => .error (.mismatchedParenthesis position)
    | opening :: openings =>
      nest (position + 1) openings (.group items.reverse :: opening.before) tokens
  | t :: tokens => nest (position + 1) openings (.token t :: items) tokens

/-- The items of a token sequence. The first parenthesis that closes nothing is an error at once.
Of those that are never closed the innermost is the error, once all tokens have been read. -/
def ofTokens (tokens : List Token) : Except Error (List Item) :=
  nest 0 [] [] tokens

end Item

end Sentential
