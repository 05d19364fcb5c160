import Sentential.Outline
import Sentential.Proofs.MainConnective

/-!
What a reading comes to, said by recursion on the outline of its input: whatever the manner, reading
on with the connectives kept for later gives the formula of the outline, put under those
connectives. From this the lenient reading never fails, and the strict one fails in one way only and
succeeds exactly where the lenient one loses nothing.
-/
namespace Sentential

variable {ε : Type}

theorem bind_eq_ok_iff {α β : Type} {x : Except ε α} {next : α → Except ε β} {b : β} :
    x >>= next = .ok b ↔ ∃ a, x = .ok a ∧ next a = .ok b := by
  cases x with
  | error fault => simp [bind, Except.bind]
  | ok a => simp [bind, Except.bind]

theorem bind_eq_error_iff {α β : Type} {x : Except ε α} {next : α → Except ε β} {fault : ε} :
    x >>= next = .error fault ↔ x = .error fault ∨ ∃ a, x = .ok a ∧ next a = .error fault := by
  cases x with
  | error fault => simp [bind, Except.bind]
  | ok a => simp [bind, Except.bind]

theorem Manner.read_eq (manner : Manner ε) (pending : List Pending) (items : List Item) :
    manner.read pending items =
      ((Outline.ofItems items).read manner).map (Pending.applyAll pending) := by
  fun_induction manner.read pending items with
  | case1 pending items split found negation ih =>
    rw [Outline.ofItems_of_not found negation, Outline.read, ih]
    cases manner.skip split.before with
    | error => rfl
    | ok => cases (Outline.ofItems split.after).read manner <;> rfl
  | case2 pending items split found op connective ihl ihr =>
    rw [Outline.ofItems_of_binary found connective, Outline.read, ihl]
    simp only [ihr]
    cases (Outline.ofItems split.before).read manner with
    | error => rfl
    | ok left => cases (Outline.ofItems split.after).read manner <;> rfl
  | case3 pending content _ ih => rw [Outline.ofItems_group, Outline.read, ih]
  | case4 pending name =>
    rw [Outline.ofItems_var]
    rfl
  | case5 pending t unsplit notVar =>
    have paren : t.isParen = true := by
      cases t with
      | var name => exact False.elim (notVar name unsplit HEq.rfl rfl)
      | operator op => simp [Split.ofItems?_operator] at unsplit
      | leftParen | rightParen => rfl
    rw [Outline.ofItems_paren paren, Outline.read]
    cases manner.lone t with
    | error => rfl
    | ok => cases manner.gap <;> rfl
  | case6 pending items unsplit notGroup notVar notToken =>
    have several : ∀ item, items ≠ [item] := by
      rintro (t | content) rfl
      · exact notToken t unsplit rfl HEq.rfl
      · exact notGroup content unsplit rfl HEq.rfl
    rw [Outline.ofItems_vacant unsplit several, Outline.read]
    cases manner.gap <;> rfl

theorem Manner.read_nil (manner : Manner ε) (items : List Item) :
    manner.read [] items = (Outline.ofItems items).read manner := by
  rw [manner.read_eq]
  cases (Outline.ofItems items).read manner <;> rfl

namespace Outline

theorem ofItems_not {items : List Item} (bounded : ∀ item ∈ items, item.rank ≤ 1) :
    ofItems (.token (.operator .not) :: items) = .not [] (ofItems items) := by
  have found : Split.ofItems? (.token (.operator .not) :: items) = some ⟨[], .not, items⟩ :=
    Split.ofItems?_eq_some_iff.mpr ⟨rfl, by simp, bounded⟩
  exact ofItems_of_not found rfl

theorem ofItems_binary {before after : List Item} {op : Connective}
    (lower : ∀ item ∈ before, item.rank < op.precedence)
    (upper : ∀ item ∈ after, item.rank ≤ op.precedence) :
    ofItems (before ++ .token (.operator (.binary op)) :: after) =
      .binary op (ofItems before) (ofItems after) := by
  have found : Split.ofItems? (before ++ .token (.operator (.binary op)) :: after) =
      some ⟨before, .binary op, after⟩ :=
    Split.ofItems?_eq_some_iff.mpr ⟨rfl, lower, upper⟩
  exact ofItems_of_binary found rfl

theorem read_lenient (outline : Outline) : outline.read .lenient = .ok outline.formula := by
  induction outline with
  | vacant | lone | var => rfl
  | group content ih => exact ih
  | not skipped operand ih =>
    rw [read, ih]
    rfl
  | binary op left right ihl ihr =>
    rw [read, ihl, ihr]
    rfl

/-- Nothing stands before a negation. -/
def Lossless : Outline → Prop
  | .vacant | .var _ | .lone _ => True
  | .group content => content.Lossless
  | .not skipped operand => skipped = [] ∧ operand.Lossless
  | .binary _ left right => left.Lossless ∧ right.Lossless

variable {outline operand left right : Outline} {skipped : List Item} {op : Connective}
  {e : Formula}

theorem read_strict_not_eq_ok_iff : (not skipped operand).read .strict = .ok e ↔
    skipped = [] ∧ ∃ f, operand.read .strict = .ok f ∧ .not f = e := by
  cases skipped with
  | nil => simp [read, Manner.strict, bind_eq_ok_iff, pure, Except.pure]
  | cons => simp [read, Manner.strict, bind_eq_ok_iff]

theorem read_strict_binary_eq_ok_iff : (binary op left right).read .strict = .ok e ↔
    ∃ l r, left.read .strict = .ok l ∧ right.read .strict = .ok r ∧ .binary op l r = e := by
  simp [read, bind_eq_ok_iff, pure, Except.pure]

/-- A strict reading that succeeds agrees with the lenient one. -/
theorem read_strict_eq_ok_iff : outline.read .strict = .ok e ↔
    outline.formula = e ∧ e.isComplete = true ∧ outline.Lossless := by
  induction outline generalizing e with
  | vacant | lone =>
    constructor
    · intro read
      contradiction
    · rintro ⟨rfl, complete, _⟩
      simp [formula] at complete
  | var name =>
    constructor
    · intro read
      obtain rfl := Except.ok.inj read
      exact ⟨rfl, Formula.isComplete_var name, trivial⟩
    · rintro ⟨rfl, _, _⟩
      rfl
  | group content ih => exact ih
  | not skipped operand ih =>
    rw [read_strict_not_eq_ok_iff]
    constructor
    · rintro ⟨rfl, f, read, rfl⟩
      obtain ⟨rfl, complete, lossless⟩ := ih.mp read
      exact ⟨rfl, by simp [complete], rfl, lossless⟩
    · rintro ⟨rfl, complete, rfl, lossless⟩
      rw [formula, Formula.isComplete_not] at complete
      exact ⟨rfl, _, ih.mpr ⟨rfl, complete, lossless⟩, rfl⟩
  | binary op left right ihl ihr =>
    rw [read_strict_binary_eq_ok_iff]
    constructor
    · rintro ⟨l, r, readLeft, readRight, rfl⟩
      obtain ⟨rfl, completeLeft, losslessLeft⟩ := ihl.mp readLeft
      obtain ⟨rfl, completeRight, losslessRight⟩ := ihr.mp readRight
      exact ⟨rfl, by simp [completeLeft, completeRight], losslessLeft, losslessRight⟩
    · rintro ⟨rfl, complete, losslessLeft, losslessRight⟩
      simp only [formula, Formula.isComplete_binary, Bool.and_eq_true] at complete
      exact ⟨_, _, ihl.mpr ⟨rfl, complete.1, losslessLeft⟩,
        ihr.mpr ⟨rfl, complete.2, losslessRight⟩, rfl⟩

theorem invalid_of_read_strict {fault : Error} (failed : outline.read .strict = .error fault) :
    fault = .invalidFormula := by
  induction outline with
  | vacant | lone => exact (Except.error.inj failed).symm
  | var => contradiction
  | group content ih => exact ih failed
  | not skipped operand ih =>
    rcases bind_eq_error_iff.mp failed with failed | ⟨_, _, failed⟩
    · cases skipped with
      | nil => contradiction
      | cons => exact (Except.error.inj failed).symm
    rcases bind_eq_error_iff.mp failed with failed | ⟨f, _, failed⟩
    · exact ih failed
    · contradiction
  | binary op left right ihl ihr =>
    rcases bind_eq_error_iff.mp failed with failed | ⟨l, _, failed⟩
    · exact ihl failed
    rcases bind_eq_error_iff.mp failed with failed | ⟨r, _, failed⟩
    · exact ihr failed
    · contradiction

end Outline

namespace Formula

variable {text : String} {tokens : List Token} {items : List Item} {mismatch : Error}

theorem ofItems_eq (items : List Item) : ofItems items = (Outline.ofItems items).formula := by
  rw [ofItems, Manner.read_nil, Outline.read_lenient]
  rfl

theorem ofTokens_eq (nested : Item.ofTokens tokens = .ok items) :
    ofTokens tokens = .ok (Outline.ofItems items).formula := by
  rw [ofTokens, nested, ← ofItems_eq]
  rfl

theorem ofTokens_eq_error (mismatched : Item.ofTokens tokens = .error mismatch) :
    ofTokens tokens = .error mismatch := by
  rw [ofTokens, mismatched]
  rfl

theorem read_eq (nested : Item.ofTokens (Token.ofText text) = .ok items) :
    read text = (Outline.ofItems items).read .strict := by
  rw [read, nested, ← Manner.read_nil]
  rfl

theorem read_eq_error (mismatched : Item.ofTokens (Token.ofText text) = .error mismatch) :
    read text = .error mismatch := by
  rw [read, mismatched]
  rfl

theorem exists_items_of_ofTokens {e : Formula} (read : ofTokens tokens = .ok e) :
    ∃ items, Item.ofTokens tokens = .ok items ∧ (Outline.ofItems items).formula = e := by
  cases nested : Item.ofTokens tokens with
  | error mismatch => simp [ofTokens_eq_error nested] at read
  | ok items =>
    rw [ofTokens_eq nested] at read
    exact ⟨items, rfl, Except.ok.inj read⟩

theorem exists_items_of_read {e : Formula} (accepted : read text = .ok e) :
    ∃ items, Item.ofTokens (Token.ofText text) = .ok items ∧
      (Outline.ofItems items).read .strict = .ok e := by
  cases nested : Item.ofTokens (Token.ofText text) with
  | error mismatch => simp [read_eq_error nested] at accepted
  | ok items =>
    rw [read_eq nested] at accepted
    exact ⟨items, rfl, accepted⟩

theorem isComplete_of_read {e : Formula} (accepted : read text = .ok e) :
    e.isComplete = true := by
  obtain ⟨items, _, strict⟩ := exists_items_of_read accepted
  obtain ⟨_, complete, _⟩ := Outline.read_strict_eq_ok_iff.mp strict
  exact complete

end Formula

end Sentential
