import Sentential.MainConnective

/-!
The parts of a sequence of items that a reading comes to: the sequence itself, what its main
connective takes as operands, and the content of a group that stands by itself. What stands before
a main negation is no part.
-/
namespace Sentential.Item

/-- The parts in reading order, each before its own parts. -/
def parts (items : List Item) : List (List Item) :=
  items ::
    match _ : Split.ofItems? items with
    | some split =>
      match split.operator with
      | .not => parts split.after
      | .binary _ => parts split.before ++ parts split.after
    | none =>
      match items with
      | [.group content] => parts content
      | _ => []
termination_by (Item.flatten items).length
decreasing_by
  · exact Split.flatten_after_lt ‹_›
  · exact Split.flatten_before_lt ‹_›
  · exact Split.flatten_after_lt ‹_›
  · exact Item.length_flatten_lt_group _

variable {items : List Item} {split : Split}

theorem parts_of_not (found : Split.ofItems? items = some split)
    (negation : split.operator = .not) : parts items = items :: parts split.after := by
  rw [parts]
  split
  next other same =>
    obtain rfl := Option.some.inj (found.symm.trans same)
    simp only [negation]
  next unsplit => simp [found] at unsplit

theorem parts_of_binary {op : Connective} (found : Split.ofItems? items = some split)
    (connective : split.operator = .binary op) :
    parts items = items :: (parts split.before ++ parts split.after) := by
  rw [parts]
  split
  next other same =>
    obtain rfl := Option.some.inj (found.symm.trans same)
    simp only [connective]
  next unsplit => simp [found] at unsplit

theorem parts_group (content : List Item) :
    parts [.group content] = [.group content] :: parts content := by
  rw [parts]
  rfl

theorem parts_of_unsplit (unsplit : Split.ofItems? items = none)
    (notGroup : ∀ content, items ≠ [.group content]) : parts items = [items] := by
  rw [parts]
  split
  next split found => simp [unsplit] at found
  next =>
    split
    next => exact False.elim (notGroup _ rfl)
    next => rfl

/-- The parts as a relation, in which nothing is computed. -/
inductive IsPart : List Item → List Item → Prop
  | whole (items : List Item) : IsPart items items
  | before {items part : List Item} {split : Split} {op : Connective} :
    split.items = items → split.IsMain → split.operator = .binary op → IsPart split.before part →
      IsPart items part
  | after {items part : List Item} {split : Split} :
    split.items = items → split.IsMain → IsPart split.after part → IsPart items part
  | content {content part : List Item} : IsPart content part → IsPart [.group content] part

/-- The parts with the places where they start, as numbers of tokens that come before. -/
inductive PartAt : List Item → Nat → List Item → Prop
  | whole (items : List Item) : PartAt items 0 items
  | before {items part : List Item} {split : Split} {op : Connective} {place : Nat} :
    split.items = items → split.IsMain → split.operator = .binary op →
      PartAt split.before place part → PartAt items place part
  | after {items part : List Item} {split : Split} {place : Nat} :
    split.items = items → split.IsMain → PartAt split.after place part →
      PartAt items ((flatten split.before).length + 1 + place) part
  | content {content part : List Item} {place : Nat} :
    PartAt content place part → PartAt [.group content] (1 + place) part

/-- A parenthesis token is a part, with nothing beside it. -/
def LoneAt (items : List Item) (place : Nat) : Prop :=
  ∃ t : Token, t.isParen = true ∧ PartAt items place [.token t]

/-- The main connective is a negation that something stands before. -/
def HasSkipped (items : List Item) : Prop :=
  ∃ split : Split, split.items = items ∧ split.IsMain ∧ split.operator = .not ∧ split.before ≠ []

end Sentential.Item
