import Mathlib.Order.Bounds.Defs
import Sentential.Proofs.Checks

/-!
Lists with a variable that comes twice. They are just the lists that a checked enumeration or table
refuses, and it refuses them before there is an assignment or a row, so no fault of the formula is
met first. Of several such variables the first in the list is named. On any other list the check
changes nothing.
-/
namespace Sentential

variable {names : List Char} {first name : Char} {i : Nat} {misuse : Misuse}

/-- What the list has at `i` it has again at a later place. -/
def RepeatedAt (names : List Char) (i : Nat) : Prop :=
  ∃ name j, i < j ∧ names[i]? = some name ∧ names[j]? = some name

/-- The list has `name` again after its first place, and nothing before that place comes again. -/
def FirstRepeated (names : List Char) (name : Char) : Prop :=
  ∃ i, IsLeast {i | RepeatedAt names i} i ∧ names[i]? = some name

theorem repeatedAt_cons_zero_iff : RepeatedAt (first :: names) 0 ↔ first ∈ names := by
  constructor
  · rintro ⟨name, j, later, here, again⟩
    obtain rfl := Option.some.inj here
    cases j with
    | zero => contradiction
    | succ j => exact List.mem_of_getElem? again
  · intro member
    obtain ⟨j, again⟩ := List.mem_iff_getElem?.mp member
    exact ⟨first, j + 1, Nat.succ_pos j, rfl, again⟩

theorem repeatedAt_cons_succ_iff : RepeatedAt (first :: names) (i + 1) ↔ RepeatedAt names i := by
  constructor
  · rintro ⟨name, j, later, here, again⟩
    cases j with
    | zero => contradiction
    | succ j => exact ⟨name, j, Nat.lt_of_succ_lt_succ later, here, again⟩
  · rintro ⟨name, j, later, here, again⟩
    exact ⟨name, j + 1, Nat.succ_lt_succ later, here, again⟩

theorem not_repeatedAt_of_nodup (distinct : names.Nodup) : ¬ RepeatedAt names i := by
  rintro ⟨name, j, later, here, again⟩
  exact (lastAt_of_nodup distinct here).2 j later again

namespace FirstRepeated

theorem cons_of_mem (again : first ∈ names) :
    FirstRepeated (first :: names) name ↔ first = name := by
  constructor
  · rintro ⟨i, ⟨-, least⟩, here⟩
    obtain rfl := Nat.le_zero.mp (least (repeatedAt_cons_zero_iff.mpr again))
    exact Option.some.inj here
  · rintro rfl
    exact ⟨0, ⟨repeatedAt_cons_zero_iff.mpr again, fun j _ => Nat.zero_le j⟩, rfl⟩

theorem cons_of_not_mem (once : first ∉ names) :
    FirstRepeated (first :: names) name ↔ FirstRepeated names name := by
  constructor
  · rintro ⟨i, ⟨repeated, least⟩, here⟩
    cases i with
    | zero => exact absurd (repeatedAt_cons_zero_iff.mp repeated) once
    | succ i =>
      refine ⟨i, ⟨repeatedAt_cons_succ_iff.mp repeated, fun j other => ?_⟩, here⟩
      exact Nat.le_of_succ_le_succ (least (repeatedAt_cons_succ_iff.mpr other))
  · rintro ⟨i, ⟨repeated, least⟩, here⟩
    refine ⟨i + 1, ⟨repeatedAt_cons_succ_iff.mpr repeated, fun j other => ?_⟩, here⟩
    cases j with
    | zero => exact absurd (repeatedAt_cons_zero_iff.mp other) once
    | succ j => exact Nat.succ_le_succ (least (repeatedAt_cons_succ_iff.mp other))

end FirstRepeated

namespace Checked

theorem firstRepeated?_eq_some_iff :
    firstRepeated? names = some name ↔ FirstRepeated names name := by
  induction names with
  | nil => simp [firstRepeated?, FirstRepeated]
  | cons first names ih =>
    by_cases again : first ∈ names
    · simp only [firstRepeated?, List.contains_iff_mem, again, if_true, Option.some.injEq,
        FirstRepeated.cons_of_mem again]
    · simp only [firstRepeated?, List.contains_iff_mem, again, if_false, ih,
        FirstRepeated.cons_of_not_mem again]

theorem exists_firstRepeated_iff :
    (∃ name, FirstRepeated names name) ↔ ∃ i, RepeatedAt names i := by
  constructor
  · rintro ⟨name, i, ⟨repeated, -⟩, -⟩
    exact ⟨i, repeated⟩
  · rintro ⟨i, repeated⟩
    cases found : firstRepeated? names with
    | none => exact absurd repeated (not_repeatedAt_of_nodup (firstRepeated?_eq_none_iff.mp found))
    | some name => exact ⟨name, firstRepeated?_eq_some_iff.mp found⟩

/-- Whatever is to be answered, it is asked first whether a variable comes twice. -/
theorem refuseRepeats_bind_eq_error_iff {α : Type} (answer : α) :
    (refuseRepeats names >>= fun _ => pure answer) = .error misuse ↔
      ∃ name, FirstRepeated names name ∧ misuse = .repeatedVariable name := by
  simp only [← firstRepeated?_eq_some_iff, refuseRepeats]
  cases firstRepeated? names with
  | none => simp [bind, Except.bind, pure, Except.pure]
  | some name => simp [bind, Except.bind, eq_comm]

theorem enumeration_eq_error_iff : enumeration names = .error misuse ↔
    ∃ name, FirstRepeated names name ∧ misuse = .repeatedVariable name :=
  refuseRepeats_bind_eq_error_iff (Enumeration.ofNames names)

theorem tableOver_eq_error_iff (e : Formula) : tableOver e names = .error misuse ↔
    ∃ name, FirstRepeated names name ∧ misuse = .repeatedVariable name :=
  refuseRepeats_bind_eq_error_iff (TruthTable.ofFormula e names)

/-- A checked enumeration is refused just where the list has a variable at two places, and the one
named is the first in the list that comes again. A table is refused alike, whatever is the matter
with its formula. Over a list without repetitions the enumeration is the same as without the check,
with every assignment that it has to come, and so is the table, or the fault in place of one. -/
theorem repetition_refused_first (names : List Char) :
    ((∃ misuse, enumeration names = .error misuse) ↔ ∃ i, RepeatedAt names i) ∧
    (∀ misuse, enumeration names = .error misuse ↔
      ∃ name, FirstRepeated names name ∧ misuse = .repeatedVariable name) ∧
    (∀ e misuse, tableOver e names = .error misuse ↔ enumeration names = .error misuse) ∧
    (names.Nodup → enumeration names = .ok (.ofNames names) ∧
      ∀ e, tableOver e names = .ok (TruthTable.ofFormula e names)) := by
  refine ⟨?_, fun misuse => enumeration_eq_error_iff, fun e misuse => ?_, fun distinct =>
    ⟨enumeration_of_nodup distinct, tableOver_of_nodup distinct⟩⟩
  · rw [← exists_firstRepeated_iff]
    constructor
    · rintro ⟨misuse, refused⟩
      obtain ⟨name, repeated, -⟩ := enumeration_eq_error_iff.mp refused
      exact ⟨name, repeated⟩
    · rintro ⟨name, repeated⟩
      exact ⟨_, enumeration_eq_error_iff.mpr ⟨name, repeated, rfl⟩⟩
  · exact (tableOver_eq_error_iff e).trans enumeration_eq_error_iff.symm

/-- Of two variables that come twice the first is named, also where the other comes again sooner,
and before the gap in the formula is found. -/
theorem first_of_two_repetitions_named :
    FirstRepeated ['r', 'p', 'q', 'q', 'p'] 'p' ∧
    TruthTable.ofFormula (.not .missing) ['r', 'p', 'q', 'q', 'p'] = .error .invalidFormula ∧
    tableOver (.not .missing) ['r', 'p', 'q', 'q', 'p'] = .error (.repeatedVariable 'p') ∧
    ['q', 'p'].Nodup ∧ enumeration ['q', 'p'] = .ok (.ofNames ['q', 'p']) ∧
    tableOver (.not .missing) ['q', 'p'] =
      .ok (TruthTable.ofFormula (.not .missing) ['q', 'p']) := by
  have repeated : FirstRepeated ['r', 'p', 'q', 'q', 'p'] 'p' :=
    firstRepeated?_eq_some_iff.mp rfl
  have failed : TruthTable.ofFormula (.not .missing) ['r', 'p', 'q', 'q', 'p'] =
      .error .invalidFormula := TruthTable.ofFormula_eq_error (Formula.eval_of_faulty (by simp) rfl)
  have distinct : ['q', 'p'].Nodup := by decide
  obtain ⟨_, named, tables, _⟩ := repetition_refused_first ['r', 'p', 'q', 'q', 'p']
  obtain ⟨_, _, _, unchanged⟩ := repetition_refused_first ['q', 'p']
  exact ⟨repeated, failed, (tables _ _).mpr ((named _).mpr ⟨'p', repeated, rfl⟩), distinct,
    (unchanged distinct).1, (unchanged distinct).2 _⟩

end Checked

end Sentential
