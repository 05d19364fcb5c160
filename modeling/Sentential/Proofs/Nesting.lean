import Sentential.Item.Balance

/-!
Matching parentheses and writing them out again undo each other: items without a parenthesis token
are found again from the tokens that they stand for, and items found in a token sequence stand for
that sequence.
-/
namespace Sentential

variable {t : Token}

theorem Token.isParen_eq_false (notLeft : t ≠ .leftParen) (notRight : t ≠ .rightParen) :
    t.isParen = false := by
  cases t with
  | var | operator => rfl
  | leftParen | rightParen => contradiction

namespace Item

theorem parenFree_iff {items : List Item} :
    ParenFree items ↔ ∀ item ∈ items, item.ParenFreeOne := by
  induction items with
  | nil => simp [ParenFree]
  | cons item items ih => simp [ParenFree, ih]

theorem parenFree_append {items more : List Item} :
    ParenFree (items ++ more) ↔ ParenFree items ∧ ParenFree more := by
  simp [parenFree_iff, or_imp, forall_and]

theorem parenFree_reverse {items : List Item} : ParenFree items.reverse ↔ ParenFree items := by
  simp [parenFree_iff]

theorem nest_token (plain : t.isParen = false) (position : Nat)
    (openings : List Opening) (before : List Item) (rest : List Token) :
    nest position openings before (t :: rest) =
      nest (position + 1) openings (.token t :: before) rest := by
  cases t with
  | var | operator => rfl
  | leftParen | rightParen => contradiction

/-- Reading the tokens of an item adds it to the current sequence, whatever is around it. -/
def IsNestedOne (item : Item) : Prop :=
  item.ParenFreeOne → ∀ position openings before rest,
    nest position openings before (item.flattenOne ++ rest) =
      nest (position + item.flattenOne.length) openings (item :: before) rest

def IsNested (items : List Item) : Prop :=
  ParenFree items → ∀ position openings before rest,
    nest position openings before (flatten items ++ rest) =
      nest (position + (flatten items).length) openings (items.reverse ++ before) rest

theorem isNested (items : List Item) : IsNested items := by
  refine @Item.rec_1 IsNestedOne IsNested ?_ ?_ ?_ ?_ items
  · intro t plain position openings before rest
    exact nest_token plain position openings before rest
  · intro content ih clean position openings before rest
    have length : (Item.group content).flattenOne.length = 1 + (flatten content).length + 1 := by
      simp [flattenOne, Nat.add_comm]
    calc nest position openings before ((Item.group content).flattenOne ++ rest)
        = nest (position + 1) (⟨position, before⟩ :: openings) []
            (flatten content ++ .rightParen :: rest) := by simp [flattenOne, nest]
      _ = nest (position + 1 + (flatten content).length) (⟨position, before⟩ :: openings)
            (content.reverse ++ []) (.rightParen :: rest) := ih clean _ _ _ _
      _ = nest (position + (Item.group content).flattenOne.length) openings
            (.group content :: before) rest := by
          rw [nest, length, List.append_nil, List.reverse_reverse]
          simp only [Nat.add_assoc]
  · intro _ position openings before rest
    rfl
  · intro item items first others clean position openings before rest
    obtain ⟨cleanFirst, cleanOthers⟩ := clean
    rw [flatten, List.append_assoc, first cleanFirst, others cleanOthers]
    simp [Nat.add_assoc]

theorem ofTokens_flatten {items : List Item} (clean : ParenFree items) :
    ofTokens (flatten items) = .ok items := by
  have read := isNested items clean 0 [] [] []
  simp only [List.append_nil] at read
  rw [ofTokens, read, nest, List.reverse_reverse]

/-- What is kept of the tokens read so far: they are the items of the current sequence, and before
these each parenthesis around it, where it stands, after the items that it interrupts. -/
inductive Kept : List Token → List Opening → List Item → Prop
  | outside {items : List Item} : ParenFree items → Kept (flatten items.reverse) [] items
  | inside {done : List Token} {openings : List Opening} {before items : List Item} :
    Kept done openings before → ParenFree items →
      Kept (done ++ .leftParen :: flatten items.reverse) (⟨done.length, before⟩ :: openings) items

variable {done tokens : List Token} {openings : List Opening} {opening : Opening}
  {before items : List Item} {item : Item}

theorem Kept.add (kept : Kept done openings items) (clean : item.ParenFreeOne) :
    Kept (done ++ item.flattenOne) openings (item :: items) := by
  cases kept with
  | outside cleanItems =>
    have grown : ParenFree (item :: items) := ⟨clean, cleanItems⟩
    simpa [flatten] using Kept.outside grown
  | inside kept cleanItems =>
    have grown : ParenFree (item :: items) := ⟨clean, cleanItems⟩
    simpa [flatten] using kept.inside grown

theorem Kept.enter (kept : Kept done openings items) :
    Kept (done ++ [.leftParen]) (⟨done.length, items⟩ :: openings) [] := by
  have empty : ParenFree [] := trivial
  exact kept.inside empty

theorem Kept.leave (kept : Kept done (opening :: openings) items) :
    Kept (done ++ [.rightParen]) openings (.group items.reverse :: opening.before) := by
  cases kept with
  | inside kept clean =>
    have group : (Item.group items.reverse).ParenFreeOne := parenFree_reverse.mpr clean
    simpa [flattenOne] using kept.add group

/-- What the reading of a token sequence can come to. It stops at a parenthesis with none open, or
it goes on to the end, and then the innermost parenthesis that is open is at fault. -/
def Outcome (tokens : List Token) : Except Error (List Item) → Prop
  | .ok items => Kept tokens [] items.reverse
  | .error fault =>
    (∃ before rest items, Kept before [] items ∧ tokens = before ++ .rightParen :: rest ∧
      fault = .mismatchedParenthesis before.length) ∨
    ∃ opening openings items, Kept tokens (opening :: openings) items ∧
      fault = .mismatchedParenthesis opening.position

/-- What is kept before a token is kept of it, too, to the end. -/
theorem Kept.outcome (kept : Kept done openings before) :
    Outcome (done ++ tokens) (nest done.length openings before tokens) := by
  generalize here : done.length = position
  fun_induction nest position openings before tokens generalizing done with
  | case1 => simpa [Outcome] using kept
  | case2 => exact .inr ⟨_, _, _, by simpa using kept, rfl⟩
  | case3 position openings before tokens ih =>
    subst here
    simpa using ih kept.enter (by simp)
  | case4 position before tokens =>
    subst here
    exact .inl ⟨done, tokens, before, kept, rfl, rfl⟩
  | case5 position before tokens opening openings ih =>
    subst here
    simpa using ih kept.leave (by simp)
  | case6 position openings before t tokens notLeft notRight ih =>
    subst here
    have plain : (token t).ParenFreeOne := Token.isParen_eq_false notLeft notRight
    simpa [flattenOne] using ih (kept.add plain) (by simp [flattenOne])

theorem ofTokens_outcome (tokens : List Token) : Outcome tokens (ofTokens tokens) := by
  have empty : ParenFree [] := trivial
  exact (Kept.outside empty).outcome

theorem clean_of_ofTokens (found : ofTokens tokens = .ok items) :
    ParenFree items ∧ flatten items = tokens := by
  have kept : Kept tokens [] items.reverse := by
    simpa [Outcome, found] using ofTokens_outcome tokens
  generalize reversed : items.reverse = others at kept
  cases kept with
  | outside clean =>
    subst reversed
    exact ⟨parenFree_reverse.mp clean, by simp⟩

theorem parenFree_of_ofTokens (found : ofTokens tokens = .ok items) : ParenFree items :=
  (clean_of_ofTokens found).1

theorem flatten_of_ofTokens (found : ofTokens tokens = .ok items) : flatten items = tokens :=
  (clean_of_ofTokens found).2

/-- Nothing but a parenthesis makes the reading fail. -/
theorem mismatch_of_nest {position : Nat} {fault : Error}
    (failed : nest position openings before tokens = .error fault) :
    ∃ culprit, fault = .mismatchedParenthesis culprit := by
  fun_induction nest position openings before tokens with
  | case1 => contradiction
  | case2 | case4 =>
    obtain rfl := Except.error.inj failed
    exact ⟨_, rfl⟩
  | case3 _ _ _ _ ih | case5 _ _ _ _ _ ih | case6 _ _ _ _ _ _ _ ih => exact ih failed

end Item

end Sentential
