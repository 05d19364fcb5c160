import Sentential.Item

/-!
The main connective of a sequence of items: the leftmost of those operators that hold their
operands loosest. Only the operators of the sequence itself take part, and what stands inside a
group never does. Since the leftmost wins, a chain of connectives of one precedence groups to the
right.
-/
namespace Sentential

/-- Only operators have a precedence. -/
def Item.precedence? : Item → Option Nat
  | .token t => t.precedence?
  | .group _ => none

/-- The precedence of an operator. All else has rank zero, which is less than any operator has. -/
def Item.rank (item : Item) : Nat :=
  item.precedence?.getD 0

@[simp] theorem Item.rank_operator (op : Operator) : (token (.operator op)).rank = op.precedence :=
  rfl

@[simp] theorem Item.rank_var (name : Char) : (token (.var name)).rank = 0 :=
  rfl

@[simp] theorem Item.rank_group (content : List Item) : (group content).rank = 0 :=
  rfl

/-- An operator that has been met, by where it stands and its precedence. -/
structure Candidate where
  index : Nat
  precedence : Nat

namespace Candidate

/-- The candidate after one more item: an operator takes over if it is the first one, or if it holds
its operands looser than the candidate so far. -/
def next? (main? : Option Candidate) (index : Nat) (item : Item) : Option Candidate :=
  match item.precedence? with
  | some precedence =>
    match main? with
    | some main => if main.precedence < precedence then some ⟨index, precedence⟩ else some main
    | none => some ⟨index, precedence⟩
  | none => main?

/-- Goes through items from `index` on. -/
def search? (main? : Option Candidate) (index : Nat) : List Item → Option Candidate
  | [] => main?
  | item :: items => search? (next? main? index item) (index + 1) items

end Candidate

/-- Where the main connective of a sequence stands. -/
def mainConnective? (items : List Item) : Option Nat :=
  (Candidate.search? none 0 items).map (·.index)

/-- A sequence of items, taken apart at an operator. -/
structure Split where
  before : List Item
  operator : Operator
  after : List Item

namespace Split

/-- The sequence as it was before. -/
def items (split : Split) : List Item :=
  split.before ++ .token (.operator split.operator) :: split.after

/-- All operators before hold their operands tighter, and none after holds them looser. -/
structure IsMain (split : Split) : Prop where
  before : ∀ item ∈ split.before, item.rank < split.operator.precedence
  after : ∀ item ∈ split.after, item.rank ≤ split.operator.precedence

/-- Takes a sequence apart at its main connective. The search for it settles on operators only
(`ofItems?_of_mainConnective?`), so the case of any other item never arises. -/
def ofItems? (items : List Item) : Option Split :=
  match mainConnective? items with
  | some index =>
    match items.drop index with
    | .token (.operator op) :: after => some ⟨items.take index, op, after⟩
    | _ => none
  | none => none

variable {items : List Item} {split : Split}

theorem items_of_ofItems? (found : ofItems? items = some split) : split.items = items := by
  simp only [ofItems?] at found
  split at found
  next index main =>
    split at found
    next op after rest =>
      obtain rfl := Option.some.inj found
      rw [Split.items, ← rest, List.take_append_drop]
    next => contradiction
  next => contradiction

theorem flatten_items (split : Split) : Item.flatten split.items =
    Item.flatten split.before ++ .operator split.operator :: Item.flatten split.after := by
  rw [Split.items, Item.flatten_append, Item.flatten, Item.flattenOne, List.singleton_append]

theorem flatten_before_lt (found : ofItems? items = some split) :
    (Item.flatten split.before).length < (Item.flatten items).length := by
  rw [← items_of_ofItems? found, flatten_items, List.length_append, List.length_cons]
  omega

theorem flatten_after_lt (found : ofItems? items = some split) :
    (Item.flatten split.after).length < (Item.flatten items).length := by
  rw [← items_of_ofItems? found, flatten_items, List.length_append, List.length_cons]
  omega

end Split

end Sentential
