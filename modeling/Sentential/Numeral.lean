/-!
Binary numerals of a fixed width, the most significant digit first. The next numeral is found by
adding one from the last digit on, and there is none after the numeral whose digits are all set.
-/
namespace Sentential

abbrev Numeral := List Bool

namespace Numeral

def zero (width : Nat) : Numeral :=
  List.replicate width false

/-- How many numerals of a width there are. -/
def count : Nat → Nat
  | 0 => 1
  | width + 1 => 2 * count width

def value : Numeral → Nat
  | [] => 0
  | digit :: digits => digit.toNat * count digits.length + value digits

/-- The last `width` binary digits of a number. -/
def ofNat : Nat → Nat → Numeral
  | 0, _ => []
  | width + 1, number => number.testBit width :: ofNat width number

/-- All numerals of a width, in the order in which they count. -/
def all (width : Nat) : List Numeral :=
  (List.range (count width)).map (ofNat width)

/-- Adds a carry to digits that come least significant first, and gives the carry that is left over.
Where a digit passes no carry on, the digits after it stay as they are. -/
def addCarry (carry : Bool) : List Bool → List Bool × Bool
  | [] => ([], carry)
  | digit :: digits =>
    if digit && carry then
      let (sum, left) := addCarry (digit && carry) digits
      ((digit != carry) :: sum, left)
    else ((digit != carry) :: digits, digit && carry)

/-- The next numeral of the same width, unless every digit is set. -/
def successor? (digits : Numeral) : Option Numeral :=
  match addCarry true digits.reverse with
  | (sum, false) => some sum.reverse
  | (_, true) => none

@[simp] theorem length_zero (width : Nat) : (zero width).length = width :=
  List.length_replicate

@[simp] theorem length_ofNat (width number : Nat) : (ofNat width number).length = width := by
  induction width with
  | zero => rfl
  | succ width ih => rw [ofNat, List.length_cons, ih]

theorem value_lt (digits : Numeral) : digits.value < count digits.length := by
  induction digits with
  | nil => exact Nat.one_pos
  | cons digit digits ih =>
    rw [value, List.length_cons, count]
    cases digit
    · simp only [Bool.toNat_false]
      omega
    · simp only [Bool.toNat_true]
      omega

theorem value_zero (width : Nat) : (zero width).value = 0 := by
  induction width with
  | zero => rfl
  | succ width ih =>
    rw [zero, List.replicate_succ, value, ← zero, ih, Bool.toNat_false, Nat.zero_mul]

theorem value_concat (digits : Numeral) (digit : Bool) :
    value (digits ++ [digit]) = 2 * digits.value + digit.toNat := by
  induction digits with
  | nil => simp [value, count]
  | cons first digits ih =>
    rw [List.cons_append, value, ih, value, List.length_append, List.length_singleton, count,
      Nat.mul_add, Nat.mul_left_comm, Nat.add_assoc]

theorem length_addCarry (carry : Bool) (digits : List Bool) :
    (addCarry carry digits).1.length = digits.length := by
  induction digits generalizing carry with
  | nil => rfl
  | cons digit digits ih =>
    unfold addCarry
    split
    · simp [ih]
    · rfl

/-- Nothing is lost: the digits and the carry into them come to as much as the digits afterwards and
the carry that is left over. -/
theorem value_addCarry (carry : Bool) (digits : List Bool) :
    value (addCarry carry digits).1.reverse +
        (addCarry carry digits).2.toNat * count digits.length =
      value digits.reverse + carry.toNat := by
  induction digits generalizing carry with
  | nil => simp [addCarry, count]
  | cons digit digits ih =>
    unfold addCarry
    split
    next both =>
      obtain ⟨rfl, rfl⟩ := Bool.and_eq_true_iff.mp both
      have rest := ih true
      simp only [Bool.and_self, bne_self_eq_false, List.reverse_cons, value_concat,
        List.length_cons, count, Nat.mul_left_comm, Bool.toNat_true, Bool.toNat_false] at rest ⊢
      omega
    next notBoth =>
      simp only [List.reverse_cons, value_concat]
      cases digit <;> cases carry <;> simp_all

/-- A successor is what comes of adding one when no carry is left over. -/
theorem addCarry_of_successor? {digits next : Numeral} (follows : digits.successor? = some next) :
    addCarry true digits.reverse = (next.reverse, false) := by
  unfold successor? at follows
  split at follows
  next sum added =>
    obtain rfl := Option.some.inj follows
    simpa using added
  next => contradiction

theorem length_of_successor? {digits next : Numeral} (follows : digits.successor? = some next) :
    next.length = digits.length := by
  have length := length_addCarry true digits.reverse
  simpa [addCarry_of_successor? follows] using length

theorem value_of_successor? {digits next : Numeral} (follows : digits.successor? = some next) :
    next.value = digits.value + 1 := by
  have total := value_addCarry true digits.reverse
  simpa [addCarry_of_successor? follows] using total

/-- Only the greatest numeral of a width has no successor. -/
theorem value_of_no_successor {digits : Numeral} (last : digits.successor? = none) :
    digits.value + 1 = count digits.length := by
  have total := value_addCarry true digits.reverse
  have bound := value_lt digits
  unfold successor? at last
  split at last
  next => contradiction
  next sum added =>
    simp only [added, List.reverse_reverse, List.length_reverse, Bool.toNat_true] at total
    omega

end Numeral

end Sentential
