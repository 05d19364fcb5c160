import Mathlib.Data.List.Sort
import Sentential.Formula.Semantics
import Sentential.Numeral

/-!
Assignments known by their values. Two assignments that give the same values are the same, whatever
their history, and an assignment of a list of variables is put together from the list and a digit
for each of its places. A variable that is listed more than once has the digit of its last place.
-/
namespace Sentential

variable {names : List Char} {digits others : Numeral} {s t : Assignment} {name first : Char}
  {value : Bool} {j : Nat}

/-- The list has `name` at the place `j` and nowhere after it. -/
def LastAt (names : List Char) (name : Char) (j : Nat) : Prop :=
  names[j]? = some name ∧ ∀ i, j < i → names[i]? ≠ some name

theorem lastAt_cons_zero_iff : LastAt (first :: names) name 0 ↔ first = name ∧ name ∉ names := by
  constructor
  · rintro ⟨here, later⟩
    refine ⟨Option.some.inj here, fun member => ?_⟩
    obtain ⟨i, found⟩ := List.mem_iff_getElem?.mp member
    exact later (i + 1) (Nat.succ_pos i) found
  · rintro ⟨rfl, absent⟩
    refine ⟨rfl, fun i after found => ?_⟩
    cases i with
    | zero => contradiction
    | succ i => exact absent (List.mem_of_getElem? found)

theorem lastAt_cons_succ_iff : LastAt (first :: names) name (j + 1) ↔ LastAt names name j := by
  constructor
  · rintro ⟨here, later⟩
    exact ⟨here, fun i after => later (i + 1) (Nat.succ_lt_succ after)⟩
  · rintro ⟨here, later⟩
    refine ⟨here, fun i after => ?_⟩
    cases i with
    | zero => contradiction
    | succ i => exact later i (Nat.lt_of_succ_lt_succ after)

/-- In a list without repetitions every place is a last one. -/
theorem lastAt_of_nodup (distinct : names.Nodup) (here : names[j]? = some name) :
    LastAt names name j := by
  refine ⟨here, fun i after found => ?_⟩
  have within : j < names.length := (List.getElem?_eq_some_iff.mp here).1
  have same : j = i := (List.getElem?_inj within distinct).mp (here.trans found.symm)
  omega

namespace Assignment

theorem get?_eq_some_truth (known : s.contains name = true) :
    s.get? name = some (s.truth name) := by
  obtain ⟨value, found⟩ := Option.isSome_iff_exists.mp known
  cases value <;> simp [truth, found]

theorem get?_eq_none (unknown : ¬ s.contains name = true) : s.get? name = none := by
  simpa [contains] using unknown

theorem mem_entries_iff : (name, value) ∈ s.entries ↔ s.get? name = some value := by
  obtain ⟨entries, ascending⟩ := s
  simp only [get?]
  induction entries with
  | nil => simp
  | cons entry entries ih =>
    obtain ⟨first, rest⟩ := List.pairwise_cons.mp ascending
    have later := ih rest
    grind

theorem eq_of_entries_eq (same : s.entries = t.entries) : s = t := by
  cases s
  cases t
  congr

/-- An assignment is determined by the values that it gives. -/
theorem eq_of_get?_eq (same : ∀ name, s.get? name = t.get? name) : s = t := by
  have members : ∀ entry : Char × Bool, entry ∈ s.entries ↔ entry ∈ t.entries := by
    rintro ⟨name, value⟩
    simp only [mem_entries_iff, same name]
  have irreflexive : Std.Irrefl fun entry other : Char × Bool => entry.1 < other.1 :=
    ⟨fun entry => Char.lt_irrefl entry.1⟩
  have antisymmetric : Std.Antisymm fun entry other : Char × Bool => entry.1 < other.1 :=
    ⟨fun entry other lower upper => absurd (Char.lt_trans lower upper) (Char.lt_irrefl _)⟩
  exact eq_of_entries_eq (s.ascending.eq_of_mem_iff t.ascending members)

theorem contains_zip_iff (width : digits.length = names.length) :
    (ofList (names.zip digits)).contains name = true ↔ name ∈ names := by
  rw [contains_ofList_iff, List.map_fst_zip (Nat.le_of_eq width.symm)]

theorem known_zip_iff {needed : List Char} (width : digits.length = names.length) :
    (∀ name ∈ needed, (ofList (names.zip digits)).contains name = true) ↔
      ∀ name ∈ needed, name ∈ names := by
  simp only [contains_zip_iff width]

theorem map_truth_eq (known : ∀ name ∈ names, s.contains name = true) :
    (names.map s.truth).map some = names.map s.get? := by
  rw [List.map_map]
  apply List.map_congr_left
  intro name member
  exact (get?_eq_some_truth (known name member)).symm

/-- The values of listed variables, put together again, are the values from which they were
taken, also where a variable is listed twice. -/
theorem truth_zip_map (truth : Char → Bool) (member : name ∈ names) :
    (ofList (names.zip (names.map truth))).truth name = truth name := by
  have found : (ofList (names.zip (names.map truth))).get? name = some (truth name) := by
    rw [get?_ofList, ← List.map_prod_left_eq_zip, ← List.map_reverse]
    exact List.lookup_graph truth (List.mem_reverse.mpr member)
  cases value : truth name <;> simp [Assignment.truth, found, value]

/-- An assignment of the listed variables and no others is what the list makes of its values. -/
theorem ofList_zip_truth (domain : ∀ name, s.contains name = true ↔ name ∈ names) :
    ofList (names.zip (names.map s.truth)) = s := by
  have width : (names.map s.truth).length = names.length := List.length_map _
  apply eq_of_get?_eq
  intro name
  by_cases listed : name ∈ names
  · have known := (domain name).mpr listed
    have knownAgain := (contains_zip_iff width).mpr listed
    rw [get?_eq_some_truth known, get?_eq_some_truth knownAgain, truth_zip_map s.truth listed]
  · have unknown : ¬ s.contains name = true := fun known => listed ((domain name).mp known)
    have unknownAgain := fun known => listed ((contains_zip_iff width).mp known)
    rw [get?_eq_none unknown, get?_eq_none unknownAgain]

theorem get?_zip_of_lastAt (width : digits.length = names.length) (last : LastAt names name j) :
    (ofList (names.zip digits)).get? name = digits[j]? := by
  rw [get?_ofList]
  induction names generalizing digits j with
  | nil => simp [LastAt] at last
  | cons first names ih =>
    cases digits with
    | nil => contradiction
    | cons digit digits =>
      have rest : digits.length = names.length := Nat.succ.inj width
      simp only [List.zip_cons_cons, List.reverse_cons, List.lookup_append]
      cases j with
      | zero =>
        obtain ⟨rfl, absent⟩ := lastAt_cons_zero_iff.mp last
        have later : (names.zip digits).reverse.lookup first = none := by
          rw [← get?_ofList]
          exact get?_eq_none fun known => absent ((contains_zip_iff rest).mp known)
        simp [later]
      | succ j =>
        have last := lastAt_cons_succ_iff.mp last
        have within : j < digits.length := rest ▸ (List.getElem?_eq_some_iff.mp last.1).1
        simp only [ih rest last, List.getElem?_cons_succ, List.getElem?_eq_getElem within,
          Option.some_or]

/-- Over a list without repetitions, different digits make different assignments. -/
theorem eq_of_ofList_zip_eq (distinct : names.Nodup) (width : digits.length = names.length)
    (otherWidth : others.length = names.length)
    (same : ofList (names.zip digits) = ofList (names.zip others)) : digits = others := by
  apply List.ext_getElem?
  intro j
  by_cases within : j < names.length
  · have last := lastAt_of_nodup distinct (List.getElem?_eq_getElem within)
    rw [← get?_zip_of_lastAt width last, same, get?_zip_of_lastAt otherWidth last]
  · rw [List.getElem?_eq_none (by omega), List.getElem?_eq_none (by omega)]

end Assignment

end Sentential
