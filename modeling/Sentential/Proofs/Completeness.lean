import Sentential.Formula.Substitution
import Sentential.Proofs.Names

/-!
Three ways through a formula that tell the same story: the check for absent operands, the list of
the names and the evaluation. The check passes just where no connective, at whatever place, lacks an
operand. What an evaluation gives is then a matter of the names alone: the first one on the list
that has no value is at fault, and where all have values nothing is, unless the check fails.
-/
namespace Sentential.Formula

variable {e part : Formula} {place : Context} {s : Assignment}

/-- A connective that has not all of its operands. -/
def LacksOperand : Formula → Prop
  | .missing | .var _ => False
  | .not operand => operand = .missing
  | .binary _ left right => left = .missing ∨ right = .missing

theorem isComplete_of_lacksOperand (lacking : e.LacksOperand) : e.isComplete = false := by
  cases e with
  | missing | var => contradiction
  | not operand =>
    obtain rfl : operand = .missing := lacking
    simp
  | binary op left right => rcases lacking with rfl | rfl <;> simp

/-- Every part of a complete formula is complete. -/
theorem isComplete_of_fill (complete : (place.fill part).isComplete = true) :
    part.isComplete = true := by
  induction place with
  | here => exact complete
  | not hole ih =>
    rw [Context.fill, isComplete_not] at complete
    exact ih complete
  | left op hole operand ih =>
    rw [Context.fill, isComplete_binary, Bool.and_eq_true] at complete
    exact ih complete.1
  | right op operand hole ih =>
    rw [Context.fill, isComplete_binary, Bool.and_eq_true] at complete
    exact ih complete.2

/-- A place in an operand is a place in the whole formula, one connective deeper. -/
theorem isComplete_of_parts (present : e ≠ .missing)
    (parts : ∀ (place : Context) (part : Formula), place.fill part = e → ¬ part.LacksOperand) :
    e.isComplete = true := by
  induction e with
  | missing => contradiction
  | var name => exact isComplete_var name
  | not operand ih =>
    have presentOperand : operand ≠ .missing := parts .here _ rfl
    rw [isComplete_not]
    exact ih presentOperand fun place part whole => parts (.not place) part (congrArg not whole)
  | binary op left right ihl ihr =>
    obtain ⟨presentLeft, presentRight⟩ := not_or.mp (parts .here _ rfl)
    rw [isComplete_binary, Bool.and_eq_true]
    constructor
    · apply ihl presentLeft
      rintro place part rfl
      exact parts (.left op place right) part rfl
    · apply ihr presentRight
      rintro place part rfl
      exact parts (.right op left place) part rfl

theorem isComplete_iff (present : e ≠ .missing) : e.isComplete = true ↔
    ∀ (place : Context) (part : Formula), place.fill part = e → ¬ part.LacksOperand := by
  constructor
  · rintro complete place part rfl lacking
    have incomplete := isComplete_of_lacksOperand lacking
    simp [isComplete_of_fill complete] at incomplete
  · exact isComplete_of_parts present

theorem known_of_find?_eq_none (found : e.names.find? (!s.contains ·) = none) :
    ∀ name ∈ e.occurrences, s.contains name = true := by
  rw [find?_names] at found
  simpa using List.find?_eq_none.mp found

section Complete

variable (complete : e.isComplete = true)
include complete

/-- The evaluation of a complete formula, told from the list of its names. -/
theorem eval_of_complete : e.eval s =
    match e.names.find? (!s.contains ·) with
    | some name => .error (.unknownVariable name)
    | none => .ok (e.value s.truth) := by
  cases first : e.names.find? (!s.contains ·) with
  | some name => exact eval_of_unknown complete (find?_names e _ ▸ first)
  | none => exact eval_of_known complete (known_of_find?_eq_none first)

theorem eval_ne_invalid : e.eval s ≠ .error .invalidFormula := by
  rw [eval_of_complete complete]
  cases e.names.find? (!s.contains ·) <;> simp

theorem eval_eq_unknown_iff {name : Char} : e.eval s = .error (.unknownVariable name) ↔
    e.names.find? (!s.contains ·) = some name := by
  rw [eval_of_complete complete]
  cases e.names.find? (!s.contains ·) <;> simp

end Complete

/-- A formula is complete just where no connective at any place in it lacks an operand. With values
for all of its names it has a value if it is complete and is invalid if it is not. A complete
formula is never invalid, and an unknown variable that is reported for it is the first of its names
without a value. -/
theorem completeness_and_names_tell_faults (present : e ≠ .missing) (s : Assignment) :
    (e.isComplete = true ↔
      ∀ (place : Context) (part : Formula), place.fill part = e → ¬ part.LacksOperand) ∧
    ((∀ name ∈ e.names, s.contains name = true) →
      (e.isComplete = true → ∃ value, e.eval s = .ok value) ∧
      (e.isComplete = false → e.eval s = .error .invalidFormula)) ∧
    (e.isComplete = true →
      e.eval s ≠ .error .invalidFormula ∧
      ∀ name, e.eval s = .error (.unknownVariable name) ↔
        e.names.find? (!s.contains ·) = some name) := by
  refine ⟨isComplete_iff present, ?_, ?_⟩
  · intro listed
    have known := known_names_iff.mp listed
    exact ⟨fun complete => ⟨_, eval_of_known complete known⟩,
      fun incomplete => eval_of_incomplete incomplete known⟩
  · intro complete
    exact ⟨eval_ne_invalid complete, fun name => eval_eq_unknown_iff complete⟩

/-- The second name on the list is the first one without a value. In the other formula a gap stands
below a connective that has its operands. -/
theorem second_name_unknown_and_gap_within :
    Formula.binary .or (.var 'q') (.not (.var 'p')) ≠ .missing ∧
    isComplete (.binary .or (.var 'q') (.not (.var 'p'))) = true ∧
    eval (.ofList [('q', true)]) (.binary .or (.var 'q') (.not (.var 'p'))) =
      .error (.unknownVariable 'p') ∧
    Formula.binary .or (.var 'q') (.not .missing) ≠ .missing ∧
    isComplete (.binary .or (.var 'q') (.not .missing)) ≠ true ∧
    (∀ name ∈ names (.binary .or (.var 'q') (.not .missing)),
      (Assignment.ofList [('q', true)]).contains name = true) ∧
    eval (.ofList [('q', true)]) (.binary .or (.var 'q') (.not .missing)) =
      .error .invalidFormula := by
  have present : Formula.binary .or (.var 'q') (.not (.var 'p')) ≠ .missing := by simp
  have presentGap : Formula.binary .or (.var 'q') (.not .missing) ≠ .missing := by simp
  obtain ⟨-, -, unknown⟩ := completeness_and_names_tell_faults present (.ofList [('q', true)])
  obtain ⟨check, invalid, -⟩ :=
    completeness_and_names_tell_faults presentGap (.ofList [('q', true)])
  have complete : isComplete (.binary .or (.var 'q') (.not (.var 'p'))) = true := by simp
  have first : (names (.binary .or (.var 'q') (.not (.var 'p')))).find?
      (!(Assignment.ofList [('q', true)]).contains ·) = some 'p' := by
    rw [find?_names]
    rfl
  have gap : isComplete (.binary .or (.var 'q') (.not .missing)) ≠ true := by
    intro passed
    exact check.mp passed (.right .or (.var 'q') .here) (.not .missing) rfl rfl
  have known : ∀ name ∈ names (.binary .or (.var 'q') (.not .missing)),
      (Assignment.ofList [('q', true)]).contains name = true := by
    simp [mem_names_iff, occurrences, Assignment.contains_ofList_iff]
  exact ⟨present, complete, ((unknown complete).2 'p').mpr first, presentGap, gap, known,
    (invalid known).2 (Bool.eq_false_iff.mpr gap)⟩

end Sentential.Formula
