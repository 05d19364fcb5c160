import Sentential.Proofs.Assignment
import Sentential.Proofs.Enumeration

/-!
An enumeration counts. Its items come as the binary numbers of its width do, from zero to the
greatest, and then there are no more. Each item assigns the listed variables and no others, a
variable has the digit of its last place in the list, and without repetitions in the list every
assignment of its variables comes once.
-/
namespace Sentential.Enumeration

variable {names : List Char} {k : Nat} {name : Char} {j : Nat}

/-- The `k`-th assignment of a list of variables. -/
def item (names : List Char) (k : Nat) : Assignment :=
  .ofList (names.zip (Numeral.ofNat names.length k))

theorem contains_item_iff : (item names k).contains name = true ↔ name ∈ names :=
  Assignment.contains_zip_iff (Numeral.length_ofNat _ _)

theorem get?_item (last : LastAt names name j) :
    (item names k).get? name = some (k.testBit (names.length - 1 - j)) := by
  have within : j < names.length := (List.getElem?_eq_some_iff.mp last.1).1
  rw [item, Assignment.get?_zip_of_lastAt (Numeral.length_ofNat _ _) last,
    Numeral.getElem?_ofNat within]

theorem next_drop_ofNames (within : k < 2 ^ names.length) :
    ((ofNames names).drop k).next = (some (item names k), (ofNames names).drop (k + 1)) := by
  rw [next_drop, values_ofNames, Numeral.getElem?_all within]
  rfl

/-- An enumeration that is through stays so, however often a next assignment is asked for. -/
theorem next_drop_of_done (done : 2 ^ names.length ≤ k) :
    ((ofNames names).drop k).next = (none, (ofNames names).drop k) := by
  apply next_of_values_eq_nil
  rw [values_drop, values_ofNames]
  exact List.drop_eq_nil_of_le (Numeral.length_all _ ▸ done)

theorem length_take_drop (names : List Char) (k count : Nat) :
    (((ofNames names).drop k).take count).length = min count (2 ^ names.length - k) := by
  simp only [length_take, values_drop, values_ofNames, List.length_drop, Numeral.length_all]

theorem nodup_take_ofNames {count : Nat} (distinct : names.Nodup) :
    ((ofNames names).take count).Nodup := by
  simp only [take_eq, values_ofNames]
  apply List.Nodup.map_on _ ((Numeral.nodup_all _).sublist (List.take_sublist _ _))
  intro digits member others otherMember same
  have width := Numeral.mem_all_iff.mp (List.mem_of_mem_take member)
  have otherWidth := Numeral.mem_all_iff.mp (List.mem_of_mem_take otherMember)
  exact Assignment.eq_of_ofList_zip_eq distinct width otherWidth same

theorem mem_take_ofNames {s : Assignment}
    (domain : ∀ name, s.contains name = true ↔ name ∈ names) :
    s ∈ (ofNames names).take (2 ^ names.length) := by
  rw [take_ofNames, List.mem_map]
  have width : (names.map s.truth).length = names.length := List.length_map _
  exact ⟨_, Numeral.mem_all_iff.mpr width, Assignment.ofList_zip_truth domain⟩

/-- An enumeration of `n` variables gives `2 ^ n` assignments and nothing after them: from then on
every step leaves it as it is. The `k`-th assigns just these variables, each with the binary digit
of `k` that its last place in the list stands for. After `k` of them, `2 ^ n - k` are left. Where no
variable is listed twice, no assignment comes twice, and every assignment of just these variables
comes. -/
theorem counts_through_assignments (names : List Char) :
    (∀ k < 2 ^ names.length, ∃ s,
      ((ofNames names).drop k).next = (some s, (ofNames names).drop (k + 1)) ∧
      (∀ name, s.contains name = true ↔ name ∈ names) ∧
      ∀ name j, LastAt names name j → s.get? name = some (k.testBit (names.length - 1 - j))) ∧
    (∀ k, 2 ^ names.length ≤ k →
      ((ofNames names).drop k).next = (none, (ofNames names).drop k)) ∧
    (∀ k ≤ 2 ^ names.length, ∀ count,
      (((ofNames names).drop k).take count).length = min count (2 ^ names.length - k)) ∧
    (names.Nodup → ((ofNames names).take (2 ^ names.length)).Nodup ∧
      ∀ s : Assignment, (∀ name, s.contains name = true ↔ name ∈ names) →
        s ∈ (ofNames names).take (2 ^ names.length)) := by
  refine ⟨fun k within => ?_, fun k done => next_drop_of_done done,
    fun k _ count => length_take_drop names k count, fun distinct => ?_⟩
  · exact ⟨item names k, next_drop_ofNames within, fun name => contains_item_iff,
      fun name j last => get?_item last⟩
  · exact ⟨nodup_take_ofNames distinct, fun s domain => mem_take_ofNames domain⟩

/-- The seventh of eight items has the digits 1, 1 and 0, and the last is the value of `p`. -/
theorem seventh_item_of_repeating_list :
    LastAt ['p', 'q', 'p'] 'p' 2 ∧
    (∃ s, ((ofNames ['p', 'q', 'p']).drop 6).next =
        (some s, (ofNames ['p', 'q', 'p']).drop 7) ∧
      s.get? 'p' = some false) ∧
    ((ofNames ['p', 'q', 'p']).drop 8).next = (none, (ofNames ['p', 'q', 'p']).drop 8) ∧
    (((ofNames ['p', 'q', 'p']).drop 6).take 5).length = 2 ∧
    Assignment.ofList [('q', true), ('p', false)] ∈ (ofNames ['p', 'q']).take 4 := by
  have last : LastAt ['p', 'q', 'p'] 'p' 2 := by
    refine ⟨rfl, fun i after => ?_⟩
    have beyond : ['p', 'q', 'p'].length ≤ i := after
    simp [List.getElem?_eq_none beyond]
  obtain ⟨items, done, remaining, _⟩ := counts_through_assignments ['p', 'q', 'p']
  obtain ⟨s, next, _, values⟩ := items 6 (by decide)
  obtain ⟨_, _, _, once⟩ := counts_through_assignments ['p', 'q']
  have domain : ∀ name, (Assignment.ofList [('q', true), ('p', false)]).contains name = true ↔
      name ∈ ['p', 'q'] := by
    intro name
    simp [Assignment.contains_ofList_iff, or_comm]
  exact ⟨last, ⟨s, next, values 'p' 2 last⟩, done 8 (by decide), remaining 6 (by decide) 5,
    (once (by decide)).2 _ domain⟩

end Sentential.Enumeration
