import Sentential.Formula.Reading

/-!
The outline of a sequence of items says how it falls apart: at its main connective, then each part
at its own, down to single tokens and to parts that nothing can be made of. What a reading comes to
is a walk over this one structure, by recursion on its parts.
-/
namespace Sentential

inductive Outline
  /-- Nothing at all, or operands side by side with no connective between them. -/
  | vacant
  | var (name : Char)
  /-- A single parenthesis token, which matching parentheses leave nowhere. -/
  | lone (token : Token)
  | group (content : Outline)
  /-- A negation takes what follows it. What stands before it has no part in the formula. -/
  | not (skipped : List Item) (operand : Outline)
  | binary (op : Connective) (left right : Outline)

namespace Outline

def ofItems (items : List Item) : Outline :=
  match _ : Split.ofItems? items with
  | some split =>
    match split.operator with
    | .not => .not split.before (ofItems split.after)
    | .binary op => .binary op (ofItems split.before) (ofItems split.after)
  | none =>
    match items with
    | [.token (.var name)] => .var name
    | [.token t] => .lone t
    | [.group content] => .group (ofItems content)
    | _ => .vacant
termination_by (Item.flatten items).length
decreasing_by
  · exact Split.flatten_after_lt ‹_›
  · exact Split.flatten_before_lt ‹_›
  · exact Split.flatten_after_lt ‹_›
  · exact Item.length_flatten_lt_group _

variable {items : List Item} {split : Split}

theorem ofItems_of_not (found : Split.ofItems? items = some split)
    (negation : split.operator = .not) :
    ofItems items = .not split.before (ofItems split.after) := by
  rw [ofItems]
  split
  next other same =>
    obtain rfl := Option.some.inj (found.symm.trans same)
    simp only [negation]
  next none => simp [found] at none

theorem ofItems_of_binary {op : Connective} (found : Split.ofItems? items = some split)
    (connective : split.operator = .binary op) :
    ofItems items = .binary op (ofItems split.before) (ofItems split.after) := by
  rw [ofItems]
  split
  next other same =>
    obtain rfl := Option.some.inj (found.symm.trans same)
    simp only [connective]
  next none => simp [found] at none

theorem ofItems_nil : ofItems [] = .vacant := by
  rw [ofItems]
  rfl

theorem ofItems_var (name : Char) : ofItems [.token (.var name)] = .var name := by
  rw [ofItems]
  rfl

theorem ofItems_group (content : List Item) :
    ofItems [.group content] = .group (ofItems content) := by
  rw [ofItems]
  rfl

theorem ofItems_paren {t : Token} (paren : t.isParen = true) : ofItems [.token t] = .lone t := by
  rw [ofItems]
  cases t with
  | var | operator => contradiction
  | leftParen | rightParen => rfl

theorem ofItems_vacant (unsplit : Split.ofItems? items = none) (several : ∀ item, items ≠ [item]) :
    ofItems items = .vacant := by
  rw [ofItems]
  split
  next split found => simp [unsplit] at found
  next =>
    split
    next name => exact False.elim (several _ rfl)
    next t => exact False.elim (several _ rfl)
    next content => exact False.elim (several _ rfl)
    next => rfl

/-- Induction on a sequence of items along its outline. -/
@[elab_as_elim]
theorem induction {motive : List Item → Prop}
    (not : ∀ items split, Split.ofItems? items = some split → split.operator = .not →
      motive split.after → motive items)
    (binary : ∀ items split op, Split.ofItems? items = some split →
      split.operator = .binary op → motive split.before → motive split.after → motive items)
    (group : ∀ content, motive content → motive [.group content])
    (var : ∀ name, motive [.token (.var name)])
    (paren : ∀ t, t.isParen = true → motive [.token t])
    (vacant : ∀ items, Split.ofItems? items = none → (∀ item, items ≠ [item]) → motive items)
    (items : List Item) : motive items := by
  fun_induction ofItems items with
  | case1 items split found negation ih => exact not items split found negation ih
  | case2 items split found op connective ihl ihr =>
    exact binary items split op found connective ihl ihr
  | case3 name => exact var name
  | case4 t unsplit notVar =>
    cases t with
    | var name => exact var name
    | operator op =>
      have found : Split.ofItems? [.token (.operator op)] = some ⟨[], op, []⟩ := rfl
      simp [found] at unsplit
    | leftParen | rightParen => exact paren _ rfl
  | case5 content _ ih => exact group content ih
  | case6 items unsplit _ notToken notGroup =>
    refine vacant items unsplit ?_
    rintro (t | content) rfl
    · exact notToken t unsplit rfl HEq.rfl
    · exact notGroup content unsplit rfl HEq.rfl

/-- What the lenient reading makes of an outline. -/
def formula : Outline → Formula
  | .vacant | .lone _ => .missing
  | .var name => .var name
  | .group content => content.formula
  | .not _ operand => .not operand.formula
  | .binary op left right => .binary op left.formula right.formula

/-- What a manner of reading makes of an outline, or what stops it. -/
def read {ε : Type} (manner : Manner ε) : Outline → Except ε Formula
  | .vacant => do
    manner.gap
    return .missing
  | .lone t => do
    manner.lone t
    manner.gap
    return .missing
  | .var name => return .var name
  | .group content => content.read manner
  | .not skipped operand => do
    manner.skip skipped
    return .not (← operand.read manner)
  | .binary op left right => return .binary op (← left.read manner) (← right.read manner)

end Outline

end Sentential
