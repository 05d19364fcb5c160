import Sentential.Grammar
import Sentential.Proofs.Nesting
import Sentential.Proofs.Reading

/-!
Strict reading against the grammar. Taking a sequence apart at its main connective, over and over,
finds the formula that the grammar of levels derives, and finds one wherever the grammar derives
one: the main connective is the one production that a derivation can end with. So the grammar is
unambiguous, and a text is refused only where the grammar derives nothing.
-/
namespace Sentential

variable {level bound : Nat} {tokens : List Token} {items : List Item} {e : Formula}

/-- The levels of the grammar are the precedences of the connectives. -/
theorem mem_levelConnectives_iff {op : Connective} :
    op ∈ levelConnectives level ↔ op.precedence = level := by
  constructor
  · intro member
    unfold levelConnectives at member
    split at member <;> cases op <;> simp_all [Connective.precedence]
  · rintro rfl
    cases op <;> decide

theorem Operator.precedence_le_topLevel (op : Operator) : op.precedence ≤ topLevel := by
  cases op with
  | not => decide
  | binary op => cases op <;> decide

theorem Item.rank_le_topLevel (item : Item) : item.rank ≤ topLevel := by
  cases item with
  | group => exact Nat.zero_le _
  | token t =>
    cases t with
    | operator op => exact op.precedence_le_topLevel
    | var | leftParen | rightParen => exact Nat.zero_le _

theorem Derives.weaken (derivation : Derives level tokens e) (le : level ≤ bound)
    (top : bound ≤ topLevel) : Derives bound tokens e := by
  induction le with
  | refl => exact derivation
  | step le ih => exact .lift (by omega) (ih (by omega))

/-- The level of a derivation follows the loosest operator outside all groups: what stands before it
is of a lower level, and what stands after it of the same. -/
theorem derives_of_read (bounded : ∀ item ∈ items, item.rank ≤ level) (low : 1 ≤ level)
    (top : level ≤ topLevel) (read : (Outline.ofItems items).read .strict = .ok e) :
    Derives level (Item.flatten items) e := by
  induction items using Outline.induction generalizing level e with
  | not items split found negation ih =>
    rw [Outline.ofItems_of_not found negation] at read
    obtain ⟨nothing, f, readOperand, rfl⟩ := Outline.read_strict_not_eq_ok_iff.mp read
    obtain ⟨rfl, -, after⟩ := Split.ofItems?_eq_some_iff.mp found
    have after : ∀ item ∈ split.after, item.rank ≤ 1 := by
      simpa only [negation, Operator.precedence] using after
    have operand := ih after (Nat.le_refl 1) (by decide) readOperand
    rw [Split.flatten_items, nothing, negation]
    exact (Derives.not operand).weaken low top
  | binary items split op found connective ihl ihr =>
    rw [Outline.ofItems_of_binary found connective] at read
    obtain ⟨l, r, readLeft, readRight, rfl⟩ := Outline.read_strict_binary_eq_ok_iff.mp read
    obtain ⟨rfl, before, after⟩ := Split.ofItems?_eq_some_iff.mp found
    simp only [connective, Operator.precedence] at before after
    have within : op.precedence ≤ level := by
      refine bounded (.token (.operator (.binary op))) ?_
      simp [Split.items, connective]
    have loose := op.one_lt_precedence
    obtain ⟨below, same⟩ : ∃ below, op.precedence = below + 1 := ⟨op.precedence - 1, by omega⟩
    have before : ∀ item ∈ split.before, item.rank ≤ below := by
      intro item member
      have lower := before item member
      omega
    have left := ihl before (by omega) (by omega) readLeft
    have right := ihr after (by omega) (by omega) readRight
    rw [Split.flatten_items, connective]
    rw [same] at right
    exact (Derives.binary (mem_levelConnectives_iff.mpr same) left right).weaken (by omega) top
  | group content ih =>
    rw [Outline.ofItems_group] at read
    have inside := ih (fun item _ => item.rank_le_topLevel) (by decide) (Nat.le_refl _) read
    rw [Item.flatten_group]
    exact (Derives.parens inside).weaken low top
  | var name =>
    rw [Outline.ofItems_var] at read
    obtain rfl := Except.ok.inj read
    exact (Derives.var name).weaken low top
  | paren t paren =>
    rw [Outline.ofItems_paren paren] at read
    contradiction
  | vacant items unsplit several =>
    rw [Outline.ofItems_vacant unsplit several] at read
    contradiction

/-- A derivation determines the items of its tokens, and the last connective that it puts in is
their main connective. -/
theorem read_of_derives (derivation : Derives level tokens e) :
    ∃ items, Item.ParenFree items ∧ Item.flatten items = tokens ∧
      (∀ item ∈ items, item.rank ≤ level) ∧ (Outline.ofItems items).read .strict = .ok e := by
  induction derivation with
  | var name =>
    have read : (Outline.ofItems [.token (.var name)]).read .strict = .ok (.var name) := by
      rw [Outline.ofItems_var]
      rfl
    exact ⟨[.token (.var name)], ⟨rfl, trivial⟩, rfl, by simp, read⟩
  | @not tokens operand _ ih =>
    obtain ⟨items, clean, rfl, bounded, read⟩ := ih
    have readNot : (Outline.ofItems (.token (.operator .not) :: items)).read .strict =
        .ok (.not operand) := by
      rw [Outline.ofItems_not bounded]
      exact Outline.read_strict_not_eq_ok_iff.mpr ⟨rfl, operand, read, rfl⟩
    refine ⟨.token (.operator .not) :: items, ⟨rfl, clean⟩, rfl, ?_, readNot⟩
    simpa [Operator.precedence] using bounded
  | @parens tokens e _ ih =>
    obtain ⟨items, clean, rfl, bounded, read⟩ := ih
    have readGroup : (Outline.ofItems [.group items]).read .strict = .ok e := by
      rw [Outline.ofItems_group]
      exact read
    exact ⟨[.group items], ⟨clean, trivial⟩, Item.flatten_group items, by simp, readGroup⟩
  | @lift level _ _ _ _ ih =>
    obtain ⟨items, clean, same, bounded, read⟩ := ih
    have raised : ∀ item ∈ items, item.rank ≤ level + 1 := by
      intro item member
      exact Nat.le_succ_of_le (bounded item member)
    exact ⟨items, clean, same, raised, read⟩
  | @binary level op _ _ left right member _ _ ihl ihr =>
    have same := mem_levelConnectives_iff.mp member
    obtain ⟨before, cleanBefore, rfl, boundedBefore, readLeft⟩ := ihl
    obtain ⟨after, cleanAfter, rfl, boundedAfter, readRight⟩ := ihr
    have clean : Item.ParenFree (before ++ .token (.operator (.binary op)) :: after) :=
      Item.parenFree_append.mpr ⟨cleanBefore, rfl, cleanAfter⟩
    have flat := Split.flatten_items ⟨before, .binary op, after⟩
    have lower : ∀ item ∈ before, item.rank < op.precedence := by
      intro item member
      have le := boundedBefore item member
      omega
    refine ⟨before ++ .token (.operator (.binary op)) :: after, clean, flat, ?_, ?_⟩
    · intro item member
      rcases List.mem_append.mp member with member | member
      · exact Nat.le_succ_of_le (boundedBefore item member)
      rcases List.mem_cons.mp member with rfl | member
      · exact Nat.le_of_eq same
      · exact boundedAfter item member
    · rw [Outline.ofItems_binary lower (same ▸ boundedAfter)]
      exact Outline.read_strict_binary_eq_ok_iff.mpr ⟨left, right, readLeft, readRight, rfl⟩

theorem derives_iff_read : Derives topLevel tokens e ↔
    ∃ items, Item.ofTokens tokens = .ok items ∧ (Outline.ofItems items).read .strict = .ok e := by
  constructor
  · intro derivation
    obtain ⟨items, clean, rfl, _, read⟩ := read_of_derives derivation
    exact ⟨items, Item.ofTokens_flatten clean, read⟩
  · rintro ⟨items, nested, read⟩
    rw [← Item.flatten_of_ofTokens nested]
    exact derives_of_read (fun item _ => item.rank_le_topLevel) (by decide) (Nat.le_refl _) read

theorem Derives.unique {f : Formula} (first : Derives level tokens e)
    (second : Derives level tokens f) : e = f := by
  obtain ⟨items, clean, rfl, _, read⟩ := read_of_derives first
  obtain ⟨others, cleanOthers, same, _, readOthers⟩ := read_of_derives second
  have nested := Item.ofTokens_flatten cleanOthers
  rw [same, Item.ofTokens_flatten clean] at nested
  obtain rfl := Except.ok.inj nested
  exact Except.ok.inj (read.symm.trans readOthers)

/-- A strict reading gives the formula that the grammar derives, of which there is one at most. It
fails where there is none: for a parenthesis that matches no other, or else as no formula. -/
theorem read_exactly_as_derived (text : String) :
    (∀ e, Formula.read text = .ok e ↔ Derives topLevel (Token.ofText text) e) ∧
    (∀ level tokens e f, Derives level tokens e → Derives level tokens f → e = f) ∧
    ((¬ ∃ e, Derives topLevel (Token.ofText text) e) →
      (∃ position, Item.ofTokens (Token.ofText text) = .error (.mismatchedParenthesis position) ∧
        Formula.read text = .error (.mismatchedParenthesis position)) ∨
      (∃ items, Item.ofTokens (Token.ofText text) = .ok items) ∧
        Formula.read text = .error .invalidFormula) := by
  refine ⟨?_, fun _ _ _ _ first second => first.unique second, ?_⟩
  · intro e
    rw [derives_iff_read]
    cases nested : Item.ofTokens (Token.ofText text) with
    | error mismatch => simp [Formula.read_eq_error nested]
    | ok items => simp [Formula.read_eq nested]
  · intro underivable
    cases nested : Item.ofTokens (Token.ofText text) with
    | error mismatch =>
      obtain ⟨position, rfl⟩ := Item.mismatch_of_nest nested
      exact .inl ⟨position, rfl, Formula.read_eq_error nested⟩
    | ok items =>
      refine .inr ⟨⟨items, rfl⟩, ?_⟩
      rw [Formula.read_eq nested]
      cases result : (Outline.ofItems items).read .strict with
      | ok e => exact False.elim (underivable ⟨e, derives_iff_read.mpr ⟨items, nested, result⟩⟩)
      | error fault => rw [Outline.invalid_of_read_strict result]

theorem stranded_parenthesis_mismatched : (¬ ∃ e, Derives topLevel (Token.ofText "p)") e) ∧
    Formula.read "p)" = .error (.mismatchedParenthesis 1) := by
  have nested : Item.ofTokens (Token.ofText "p)") = .error (.mismatchedParenthesis 1) := by rfl
  obtain ⟨accepted, _, refused⟩ := read_exactly_as_derived "p)"
  have underivable : ¬ ∃ e, Derives topLevel (Token.ofText "p)") e := by
    rintro ⟨e, derivation⟩
    have read := (accepted e).mpr derivation
    simp [Formula.read_eq_error nested] at read
  refine ⟨underivable, ?_⟩
  rcases refused underivable with ⟨position, mismatched, read⟩ | ⟨⟨items, matched⟩, _⟩
  · obtain rfl : position = 1 := by simpa using mismatched.symm.trans nested
    exact read
  · simp [nested] at matched

end Sentential
