import Sentential.Proofs.Counting
import Sentential.Proofs.History

/-!
The written form of an assignment. Names are written as they are, and a name may be any character,
those that stand around it among them. But every entry takes four characters and every separator
two, so the entries are found again by counting, and texts are equal just where the assignments are.
-/
namespace Sentential.Assignment

section Blocks

variable {α β : Type} {write : α → List β}

/-- What is written in blocks of one width is found again by counting, whatever the blocks hold. -/
theorem flatMap_injective (nonempty : ∀ a, write a ≠ [])
    (width : ∀ a b, (write a).length = (write b).length) (injective : Function.Injective write) :
    Function.Injective fun blocks : List α => blocks.flatMap write := by
  intro blocks
  induction blocks with
  | nil =>
    intro others same
    cases others with
    | nil => rfl
    | cons other others =>
      have empty := List.flatMap_eq_nil_iff.mp same.symm other List.mem_cons_self
      exact absurd empty (nonempty other)
  | cons block blocks ih =>
    intro others same
    cases others with
    | nil =>
      have empty := List.flatMap_eq_nil_iff.mp same block List.mem_cons_self
      exact absurd empty (nonempty block)
    | cons other others =>
      simp only [List.flatMap_cons] at same
      obtain ⟨first, rest⟩ := List.append_inj same (width block other)
      obtain rfl := injective first
      obtain rfl := ih rest
      rfl

theorem intercalate_cons (separator first : List β) (blocks : List (List β)) :
    separator.intercalate (first :: blocks) = first ++ blocks.flatMap (separator ++ ·) := by
  induction blocks generalizing first with
  | nil => simp
  | cons second blocks ih =>
    simp only [List.intercalate_cons_cons, ih, List.flatMap_cons, List.append_assoc]

end Blocks

theorem writeEntry_injective : Function.Injective writeEntry := by
  rintro ⟨name, value⟩ ⟨other, otherValue⟩ same
  cases value <;> cases otherValue <;> simp_all [writeEntry]

theorem separated_injective : Function.Injective fun entries : List (Char × Bool) =>
    entries.flatMap fun entry => [',', ' '] ++ writeEntry entry := by
  apply flatMap_injective
  · intro entry
    exact List.cons_ne_nil _ _
  · intro entry other
    rfl
  · exact (List.append_right_injective _).comp writeEntry_injective

/-- The first entry has no separator before it, and every other has one. -/
theorem listing_injective : Function.Injective fun entries : List (Char × Bool) =>
    [',', ' '].intercalate (entries.map writeEntry) := by
  intro entries others same
  cases entries with
  | nil =>
    cases others with
    | nil => rfl
    | cons other others => simp [intercalate_cons, writeEntry] at same
  | cons entry entries =>
    cases others with
    | nil => simp [intercalate_cons, writeEntry] at same
    | cons other others =>
      simp only [List.map_cons, intercalate_cons, List.flatMap_map] at same
      obtain ⟨first, rest⟩ := List.append_inj same rfl
      obtain rfl := writeEntry_injective first
      obtain rfl := separated_injective rest
      rfl

theorem text_injective : Function.Injective text := by
  intro s t same
  have written := List.append_cancel_right (String.ofList_injective same)
  have listed : s.toList = t.toList := listing_injective (List.cons.inj written).2
  rw [toList_eq_entries, toList_eq_entries] at listed
  exact eq_of_entries_eq listed

/-- Texts of assignments are equal just where the assignments are, so they tell what each name is
left with and nothing else of the history. Values of different names may be listed in any order, and
changes of different names may be made in any order. No two assignments in the enumeration of
different variables have the same text. -/
theorem text_identifies_assignment :
    (∀ s t : Assignment, s.text = t.text ↔ s = t) ∧
    (∀ values changes others otherChanges,
      (evolve values changes).text = (evolve others otherChanges).text ↔
        ∀ name, latest? (history values changes) name =
          latest? (history others otherChanges) name) ∧
    (∀ (values others : List (Char × Bool)) (changes otherChanges : List Change),
      values.Perm others → (values.map (·.1)).Nodup →
        changes.Perm otherChanges → (changes.map (·.name)).Nodup →
          (evolve values changes).text = (evolve others otherChanges).text) ∧
    ∀ names count, names.Nodup → (((Enumeration.ofNames names).take count).map text).Nodup := by
  refine ⟨fun s t => text_injective.eq_iff, fun values changes others otherChanges => ?_,
    fun values others changes otherChanges same distinct sameChanges distinctChanges => ?_,
    fun names count distinct => ?_⟩
  · simp only [text_injective.eq_iff, ← get?_evolve]
    constructor
    · intro equal name
      exact congrArg (·.get? name) equal
    · exact eq_of_get?_eq
  · simp only [evolve, ofList_perm same distinct, foldl_apply_perm sameChanges distinctChanges]
  · exact (Enumeration.nodup_take_ofNames distinct).map text_injective

/-- Variables that are named by what separates entries, or by a digit. -/
theorem punctuation_named_apart :
    [(':', true), (',', false)].Perm [(',', false), (':', true)] ∧
    [Change.set '1' true, .unset ','].Perm [.unset ',', .set '1' true] ∧
    (evolve [(':', true), (',', false)] [.set '1' true, .unset ',']).text =
      (evolve [(',', false), (':', true)] [.unset ',', .set '1' true]).text ∧
    (ofList [(':', true), ('1', true)]).text ≠ (ofList [(',', true), ('1', true)]).text ∧
    (((Enumeration.ofNames [',', ' ', '1']).take 8).map text).Nodup := by
  have values : [(':', true), (',', false)].Perm [(',', false), (':', true)] := .swap _ _ _
  have changes : [Change.set '1' true, .unset ','].Perm [.unset ',', .set '1' true] := .swap _ _ _
  obtain ⟨texts, _, orders, items⟩ := text_identifies_assignment
  exact ⟨values, changes, orders _ _ _ _ values (by decide) changes (by decide),
    (texts _ _).not.mpr (by decide), items _ 8 (by decide)⟩

end Sentential.Assignment
