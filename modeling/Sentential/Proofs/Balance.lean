import Sentential.Proofs.Nesting

/-!
Where parentheses match. While tokens are read, the parentheses around the current sequence are
those that the depth counts as open, so reading fails just where the depth falls below zero or does
not come back to it. What is read has no parenthesis left as a token.
-/
namespace Sentential

variable {opened : Int} {t : Token} {tokens : List Token}

/-- The tokens never close more parentheses than are open, with `opened` of them open at the start,
and they leave none open. -/
def BalancedWithin (opened : Int) (tokens : List Token) : Prop :=
  (∀ n, 0 ≤ opened + depth (tokens.take n)) ∧ opened + depth tokens = 0

theorem balancedWithin_zero_iff : BalancedWithin 0 tokens ↔ Balanced tokens := by
  simp only [BalancedWithin, Balanced, Int.zero_add]

theorem balancedWithin_nil_iff : BalancedWithin opened [] ↔ opened = 0 := by
  constructor
  · rintro ⟨-, total⟩
    simpa using total
  · rintro rfl
    simp [BalancedWithin]

theorem balancedWithin_cons_iff : BalancedWithin opened (t :: tokens) ↔
    0 ≤ opened ∧ BalancedWithin (opened + t.step) tokens := by
  constructor
  · rintro ⟨never, total⟩
    refine ⟨by simpa using never 0, fun n => ?_, ?_⟩
    · simpa [Int.add_assoc] using never (n + 1)
    · simpa [Int.add_assoc] using total
  · rintro ⟨start, never, total⟩
    refine ⟨fun n => ?_, ?_⟩
    · cases n with
      | zero => simpa using start
      | succ n => simpa [Int.add_assoc] using never n
    · simpa [Int.add_assoc] using total

theorem Token.step_eq_zero (plain : t.isParen = false) : t.step = 0 := by
  cases t with
  | var | operator => rfl
  | leftParen | rightParen => contradiction

namespace Item

variable {position : Nat} {openings : List Opening} {before items : List Item}

/-- The parentheses around the current sequence are the ones that the rest of the tokens has to
close. -/
theorem nest_isOk_iff : (∃ items, nest position openings before tokens = .ok items) ↔
    BalancedWithin openings.length tokens := by
  fun_induction nest position openings before tokens with
  | case1 => simp [balancedWithin_nil_iff]
  | case2 position before opening openings =>
    have left : ((openings.length + 1 : Nat) : Int) ≠ 0 := by omega
    simpa [balancedWithin_nil_iff] using left
  | case3 position openings before tokens ih =>
    rw [ih, balancedWithin_cons_iff, List.length_cons]
    simp [Token.step]
  | case4 position before tokens =>
    have below : ¬ BalancedWithin (-1) tokens := by
      rintro ⟨never, -⟩
      have start := never 0
      simp at start
    simpa [balancedWithin_cons_iff, Token.step] using below
  | case5 position before tokens opening openings ih =>
    have start : (0 : Int) ≤ (openings.length + 1 : Nat) := Int.natCast_nonneg _
    have closed :
        ((openings.length + 1 : Nat) : Int) + Token.rightParen.step = openings.length := by
      rw [Token.step]
      omega
    rw [ih, balancedWithin_cons_iff, List.length_cons, closed, and_iff_right start]
  | case6 position openings before t tokens notLeft notRight ih =>
    have level : t.step = 0 := Token.step_eq_zero (Token.isParen_eq_false notLeft notRight)
    rw [ih, balancedWithin_cons_iff, level, Int.add_zero]
    simp

theorem balanced_of_ofTokens (nested : ofTokens tokens = .ok items) : Balanced tokens := by
  rw [← balancedWithin_zero_iff]
  exact nest_isOk_iff.mp ⟨items, nested⟩

/-- Parentheses are matched exactly where they balance. Where they are, the items found are the one
sequence without parenthesis tokens that writes out as the tokens, and every such sequence is found
again from what it writes out as. -/
theorem matching_inverts_flatten :
    (∀ tokens, (∃ items, ofTokens tokens = .ok items) ↔ Balanced tokens) ∧
    ∀ tokens items, ofTokens tokens = .ok items ↔ ParenFree items ∧ flatten items = tokens := by
  constructor
  · intro tokens
    rw [← balancedWithin_zero_iff]
    exact nest_isOk_iff
  · intro tokens items
    constructor
    · intro read
      exact ⟨parenFree_of_ofTokens read, flatten_of_ofTokens read⟩
    · rintro ⟨clean, rfl⟩
      exact ofTokens_flatten clean

end Item

end Sentential
