import Mathlib.Order.Bounds.Defs
import Sentential.Proofs.Balance
import Sentential.Proofs.Reading

/-!
Where a mismatched parenthesis stands. Reading stops at the first parenthesis that closes nothing.
If it comes to the end, the parentheses that are still open divide the tokens into balanced
stretches, and the last of them is at fault. Both places are told by the depth alone.
-/
namespace Sentential

variable {tokens more before inside rest : List Token} {position : Nat}

/-- Nothing closes more parentheses than were opened before it. -/
def Upright (tokens : List Token) : Prop :=
  ∀ n, 0 ≤ depth (tokens.take n)

theorem upright_iff : Upright tokens ↔ ∀ n < tokens.length + 1, 0 ≤ depth (tokens.take n) := by
  constructor
  · intro upright n _
    exact upright n
  · intro upright n
    by_cases within : n < tokens.length + 1
    · exact upright n within
    · have whole := upright tokens.length (Nat.lt_succ_self _)
      rw [List.take_length] at whole
      rw [List.take_of_length_le (by omega)]
      exact whole

instance (tokens : List Token) : Decidable (Upright tokens) :=
  decidable_of_iff _ upright_iff.symm

theorem Upright.append (upright : Upright tokens) (uprightMore : Upright more) :
    Upright (tokens ++ more) := by
  intro n
  have first := upright n
  have later := uprightMore (n - tokens.length)
  simp only [List.take_append, depth_append]
  omega

theorem Upright.enclose (upright : Upright before) (uprightInside : Upright inside) :
    Upright (before ++ .leftParen :: inside) := by
  apply upright.append
  intro n
  cases n with
  | zero => simp
  | succ n =>
    have never := uprightInside n
    simp only [List.take_succ_cons, depth_cons, Token.step]
    omega

theorem Upright.depth_nonneg (upright : Upright tokens) : 0 ≤ depth tokens := by
  simpa using upright tokens.length

theorem Upright.not_unopened (upright : Upright tokens) (position : Nat) :
    ¬ Unopened tokens position := by
  rintro ⟨-, below⟩
  have never := upright (position + 1)
  omega

theorem isLeast_unopened (balanced : Balanced before) :
    IsLeast {p | Unopened (before ++ .rightParen :: rest) p} before.length := by
  obtain ⟨upright, total⟩ := balanced
  constructor
  · have through : (before ++ .rightParen :: rest).take (before.length + 1) =
        before ++ [.rightParen] := List.take_length_add_append 1
    refine ⟨by simp, ?_⟩
    simp [through, total, Token.step]
  · rintro p ⟨-, below⟩
    apply Nat.not_lt.mp
    intro earlier
    have within : p + 1 ≤ before.length := earlier
    have never := upright (p + 1)
    simp only [List.take_append_of_le_length within] at below
    omega

/-- A prefix that ends inside is one deeper than the tokens before, and what it has of the inside
makes it no less deep. -/
theorem isGreatest_unclosed (balanced : Balanced inside) :
    IsGreatest {p | Unclosed (before ++ .leftParen :: inside) p} before.length := by
  obtain ⟨upright, total⟩ := balanced
  have start : (before ++ .leftParen :: inside).take before.length = before := by simp
  have whole : before.length + (inside.length + 1) = (before ++ .leftParen :: inside).length := by
    simp
  have within (n : Nat) : depth ((before ++ .leftParen :: inside).take (before.length + (n + 1))) =
      depth before + 1 + depth (inside.take n) := by
    simp only [List.take_length_add_append, List.take_succ_cons, depth_append, depth_cons,
      Token.step, Int.add_assoc]
  constructor
  · refine ⟨by simp, fun n after _ => ?_⟩
    obtain ⟨k, rfl⟩ := Nat.exists_eq_add_of_lt after
    have never := upright k
    simp only [start, Nat.add_assoc, within]
    omega
  · rintro p ⟨opens, rises⟩
    apply Nat.not_lt.mp
    intro later
    obtain ⟨k, rfl⟩ := Nat.exists_eq_add_of_lt later
    have inRange := (List.getElem?_eq_some_iff.mp opens).1
    have last := rises _ inRange (Nat.le_refl _)
    have never := upright k
    simp only [← whole, within, Nat.add_assoc, List.take_length, total] at last
    omega

namespace Item

variable {done : List Token} {openings : List Opening} {opening : Opening} {items : List Item}

theorem balanced_flatten_reverse (clean : ParenFree items) : Balanced (flatten items.reverse) :=
  balanced_of_ofTokens (ofTokens_flatten (parenFree_reverse.mpr clean))

theorem Kept.upright (kept : Kept done openings items) : Upright done := by
  induction kept with
  | outside clean => exact (balanced_flatten_reverse clean).1
  | inside _ clean ih => exact ih.enclose (balanced_flatten_reverse clean).1

theorem Kept.balanced (kept : Kept done [] items) : Balanced done := by
  cases kept with
  | outside clean => exact balanced_flatten_reverse clean

theorem Kept.depth_pos (kept : Kept done (opening :: openings) items) : 0 < depth done := by
  cases kept with
  | inside kept clean =>
    have start := kept.upright.depth_nonneg
    have total := (balanced_flatten_reverse clean).2
    simp only [depth_append, depth_cons, Token.step]
    omega

theorem Kept.isGreatest (kept : Kept done (opening :: openings) items) :
    IsGreatest {p | Unclosed done p} opening.position := by
  cases kept with
  | inside _ clean => exact isGreatest_unclosed (balanced_flatten_reverse clean)

end Item

namespace Formula

theorem read_mismatched_iff {text : String} :
    read text = .error (.mismatchedParenthesis position) ↔
      Item.ofTokens (Token.ofText text) = .error (.mismatchedParenthesis position) := by
  cases nested : Item.ofTokens (Token.ofText text) with
  | error mismatch => simp only [read_eq_error nested, Except.error.injEq]
  | ok items =>
    constructor
    · intro failed
      have invalid := Outline.invalid_of_read_strict ((read_eq nested).symm.trans failed)
      contradiction
    · intro failed
      contradiction

theorem ofTokens_mismatched_iff :
    ofTokens tokens = .error (.mismatchedParenthesis position) ↔
      Item.ofTokens tokens = .error (.mismatchedParenthesis position) := by
  cases nested : Item.ofTokens tokens with
  | error mismatch => simp only [ofTokens_eq_error nested, Except.error.injEq]
  | ok items => simp [ofTokens_eq nested]

end Formula

namespace Item

/-- The first parenthesis that closes nothing is at fault, whatever follows it. Where there is none,
but not all that were opened have been closed, the innermost of those that stay open is at fault.
In all other cases the parentheses match. Readings report this fault and no other where there is
one. -/
theorem mismatch_reported_where_it_stands :
    (∀ tokens : List Token,
      ((∃ p, Unopened tokens p) → ∃ p, IsLeast {q | Unopened tokens q} p ∧
        ofTokens tokens = .error (.mismatchedParenthesis p)) ∧
      ((∀ p, ¬ Unopened tokens p) → 0 < depth tokens →
        ∃ p, IsGreatest {q | Unclosed tokens q} p ∧
          ofTokens tokens = .error (.mismatchedParenthesis p)) ∧
      ((∀ p, ¬ Unopened tokens p) → depth tokens ≤ 0 → ∃ items, ofTokens tokens = .ok items)) ∧
    ∀ (text : String) (p : Nat),
      (Formula.read text = .error (.mismatchedParenthesis p) ↔
        ofTokens (Token.ofText text) = .error (.mismatchedParenthesis p)) ∧
      (Formula.ofTokens (Token.ofText text) = .error (.mismatchedParenthesis p) ↔
        ofTokens (Token.ofText text) = .error (.mismatchedParenthesis p)) := by
  refine ⟨fun tokens => ?_,
    fun text p => ⟨Formula.read_mismatched_iff, Formula.ofTokens_mismatched_iff⟩⟩
  have outcome := ofTokens_outcome tokens
  cases read : ofTokens tokens with
  | ok items =>
    simp only [read, Outcome] at outcome
    have never := outcome.upright.not_unopened
    have total := outcome.balanced.2
    refine ⟨?_, ?_, fun _ _ => ⟨items, rfl⟩⟩
    · rintro ⟨p, stray⟩
      exact absurd stray (never p)
    · intro _ left
      omega
  | error fault =>
    simp only [read, Outcome] at outcome
    rcases outcome with
      ⟨before, rest, items, kept, rfl, rfl⟩ | ⟨opening, openings, items, kept, rfl⟩
    · have first : IsLeast {q | Unopened (before ++ .rightParen :: rest) q} before.length :=
        isLeast_unopened kept.balanced
      exact ⟨fun _ => ⟨_, first, rfl⟩, fun never => absurd first.1 (never _),
        fun never => absurd first.1 (never _)⟩
    · have never := kept.upright.not_unopened
      have deep := kept.depth_pos
      refine ⟨?_, fun _ _ => ⟨_, kept.isGreatest, rfl⟩, ?_⟩
      · rintro ⟨p, stray⟩
        exact absurd stray (never p)
      · intro _ closed
        omega

theorem stray_and_unclosed_parentheses :
    IsLeast {q | Unopened (Token.ofText "p)(") q} 1 ∧
    ofTokens (Token.ofText "p)(") = .error (.mismatchedParenthesis 1) ∧
    IsGreatest {q | Unclosed (Token.ofText "((p)(q") q} 4 ∧
    Formula.read "((p)(q" = .error (.mismatchedParenthesis 4) ∧
    ∃ items, ofTokens (Token.ofText "((p))") = .ok items := by
  have stray : Unopened (Token.ofText "p)(") 1 := ⟨rfl, by decide⟩
  have strayAt : ofTokens (Token.ofText "p)(") = .error (.mismatchedParenthesis 1) := by rfl
  have openAt : ofTokens (Token.ofText "((p)(q") = .error (.mismatchedParenthesis 4) := by rfl
  have upright : Upright (Token.ofText "((p)(q") := by decide
  have matching : Upright (Token.ofText "((p))") := by decide
  obtain ⟨positions, readings⟩ := mismatch_reported_where_it_stands
  obtain ⟨p, first, failed⟩ := (positions (Token.ofText "p)(")).1 ⟨1, stray⟩
  obtain rfl : p = 1 := by simpa using failed.symm.trans strayAt
  obtain ⟨p, last, failed⟩ :=
    (positions (Token.ofText "((p)(q")).2.1 upright.not_unopened (by decide)
  obtain rfl : p = 4 := by simpa using failed.symm.trans openAt
  exact ⟨first, strayAt, last, (readings _ 4).1.mpr openAt,
    (positions (Token.ofText "((p))")).2.2 matching.not_unopened (by decide)⟩

end Item

end Sentential
