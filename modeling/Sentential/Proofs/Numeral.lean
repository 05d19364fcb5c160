import Mathlib.Algebra.Group.Nat.Defs
import Mathlib.Data.List.Nodup
import Sentential.Numeral

/-!
Numerals of a width stand for the numbers below a power of two: each of them for one number, and
each number for one of them. The successor of a numeral stands for the next number, up to the
greatest number of the width, whose numeral has no successor.
-/
namespace Sentential.Numeral

variable {width number place : Nat} {digits others : Numeral}

theorem count_eq_two_pow (width : Nat) : count width = 2 ^ width := by
  induction width with
  | zero => rfl
  | succ width ih => rw [count, ih, Nat.pow_succ, Nat.mul_comm]

theorem value_ofNat (width number : Nat) : (ofNat width number).value = number % count width := by
  induction width with
  | zero => rw [ofNat, value, count, Nat.mod_one]
  | succ width ih =>
    rw [ofNat, value, length_ofNat, ih, Nat.toNat_testBit, count_eq_two_pow, count_eq_two_pow,
      Nat.mod_pow_succ, Nat.mul_comm, Nat.add_comm]

theorem getElem?_ofNat (within : place < width) :
    (ofNat width number)[place]? = some (number.testBit (width - 1 - place)) := by
  induction width generalizing place with
  | zero => contradiction
  | succ width ih =>
    cases place with
    | zero => rfl
    | succ place =>
      have weight : width + 1 - 1 - (place + 1) = width - 1 - place := by omega
      simp only [ofNat, List.getElem?_cons_succ, ih (Nat.lt_of_succ_lt_succ within), weight]

/-- The digits after the first never come to as much as the first one counts for. -/
theorem eq_of_value_eq (width : digits.length = others.length)
    (equal : digits.value = others.value) : digits = others := by
  induction digits generalizing others with
  | nil => exact (List.length_eq_zero_iff.mp width.symm).symm
  | cons digit digits ih =>
    cases others with
    | nil => contradiction
    | cons other others =>
      have rest : digits.length = others.length := Nat.succ.inj width
      have bound := value_lt digits
      have otherBound := value_lt others
      rw [value, value, rest] at equal
      rw [rest] at bound
      have first : digit = other := by
        cases digit <;> cases other <;> simp only [Bool.toNat_false, Bool.toNat_true] at equal
        · rfl
        · omega
        · omega
        · rfl
      subst first
      rw [ih rest (Nat.add_left_cancel equal)]

theorem ofNat_value (digits : Numeral) : ofNat digits.length digits.value = digits := by
  apply eq_of_value_eq (length_ofNat _ _)
  rw [value_ofNat, Nat.mod_eq_of_lt digits.value_lt]

theorem mem_all_iff : digits ∈ all width ↔ digits.length = width := by
  rw [all, List.mem_map]
  constructor
  · rintro ⟨number, -, rfl⟩
    exact length_ofNat width number
  · rintro rfl
    exact ⟨digits.value, List.mem_range.mpr digits.value_lt, digits.ofNat_value⟩

theorem length_all (width : Nat) : (all width).length = 2 ^ width := by
  rw [all, List.length_map, List.length_range, count_eq_two_pow]

theorem nodup_all (width : Nat) : (all width).Nodup := by
  apply List.Nodup.map_on _ List.nodup_range
  intro number member other otherMember same
  have value := congrArg Numeral.value same
  rw [List.mem_range] at member otherMember
  simpa only [value_ofNat, Nat.mod_eq_of_lt member, Nat.mod_eq_of_lt otherMember] using value

theorem getElem?_all (within : number < 2 ^ width) :
    (all width)[number]? = some (ofNat width number) := by
  rw [← count_eq_two_pow] at within
  rw [all, List.getElem?_map, List.getElem?_range within, Option.map_some]

theorem successor?_eq_none_iff :
    digits.successor? = none ↔ digits.value = 2 ^ digits.length - 1 := by
  have positive : 0 < 2 ^ digits.length := Nat.two_pow_pos _
  constructor
  · intro last
    have greatest := value_of_no_successor last
    rw [count_eq_two_pow] at greatest
    omega
  · intro greatest
    cases follows : digits.successor? with
    | none => rfl
    | some next =>
      have bound := next.value_lt
      have value := value_of_successor? follows
      rw [count_eq_two_pow, length_of_successor? follows] at bound
      omega

/-- To go to the next numeral is to add one. There is none after the numeral that stands for the
greatest number of its width, which for the empty one is zero. From any other one the next has the
same width and stands for the number that comes next. -/
theorem successor_adds_one (digits : Numeral) :
    (digits.successor? = none ↔ digits.value = 2 ^ digits.length - 1) ∧
    (digits.value ≠ 2 ^ digits.length - 1 → ∃ next, digits.successor? = some next ∧
      next.length = digits.length ∧ next.value = digits.value + 1) := by
  refine ⟨successor?_eq_none_iff, fun notGreatest => ?_⟩
  have notLast := successor?_eq_none_iff.not.mpr notGreatest
  obtain ⟨next, follows⟩ := Option.ne_none_iff_exists'.mp notLast
  exact ⟨next, follows, length_of_successor? follows, value_of_successor? follows⟩

/-- Eleven, with a carry through two of its four digits, and the numeral without digits. -/
theorem eleven_and_empty_numeral :
    value [true, false, true, true] ≠ 2 ^ 4 - 1 ∧
    (∃ next, successor? [true, false, true, true] = some next ∧ next.length = 4 ∧
      next.value = 12) ∧
    successor? [] = none := by
  have notGreatest : value [true, false, true, true] ≠ 2 ^ 4 - 1 := by decide
  exact ⟨notGreatest, (successor_adds_one [true, false, true, true]).2 notGreatest,
    (successor_adds_one []).1.mpr rfl⟩

end Sentential.Numeral
