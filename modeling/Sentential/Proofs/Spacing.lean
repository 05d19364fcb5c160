import Sentential.Formula.Reading

/-!
White space and tokens. The tokens of a text, written one after the other, are the text without its
white space, and tokens whose names are plain are read back from what they are written as. So texts
have the same tokens exactly where they differ in white space alone, whatever has been put in or
taken out and wherever, and nothing that is read from such texts tells them apart.
-/
namespace Sentential

variable {cs ds : List Char} {text other : String}

/-- A text with its white space left out. -/
def withoutWhiteSpace (text : String) : String :=
  String.ofList (text.toList.filter (!isWhiteSpace ·))

/-- The characters of two texts that become each other when white space is taken out at some places
and put in at others. -/
inductive Respaced : List Char → List Char → Prop
  | done : Respaced [] []
  | kept {cs ds : List Char} (c : Char) : Respaced cs ds → Respaced (c :: cs) (c :: ds)
  | removed {cs ds : List Char} {c : Char} :
    isWhiteSpace c = true → Respaced cs ds → Respaced (c :: cs) ds
  | inserted {cs ds : List Char} {c : Char} :
    isWhiteSpace c = true → Respaced cs ds → Respaced cs (c :: ds)

theorem Respaced.filter_eq (spaced : Respaced cs ds) :
    cs.filter (!isWhiteSpace ·) = ds.filter (!isWhiteSpace ·) := by
  induction spaced with
  | done => rfl
  | kept c _ ih => rw [List.filter_cons, List.filter_cons, ih]
  | removed blank _ ih | inserted blank _ ih => simp [blank, ih]

/-- White space is passed over on either side, until both have a character to keep. -/
theorem respaced_of_filter_eq (same : cs.filter (!isWhiteSpace ·) = ds.filter (!isWhiteSpace ·)) :
    Respaced cs ds := by
  induction cs generalizing ds with
  | nil =>
    induction ds with
    | nil => exact .done
    | cons d ds ih =>
      cases blank : isWhiteSpace d with
      | true => exact .inserted blank (ih (by simpa [blank] using same))
      | false => simp [blank] at same
  | cons c cs ih =>
    cases blank : isWhiteSpace c with
    | true => exact .removed blank (ih (by simpa [blank] using same))
    | false =>
      induction ds with
      | nil => simp [blank] at same
      | cons d ds ihd =>
        cases blankRight : isWhiteSpace d with
        | true => exact .inserted blankRight (ihd (by simpa [blankRight] using same))
        | false =>
          obtain ⟨rfl, rest⟩ : c = d ∧
              cs.filter (!isWhiteSpace ·) = ds.filter (!isWhiteSpace ·) := by
            simpa [blank, blankRight] using same
          exact .kept c (ih rest)

theorem respaced_iff :
    Respaced cs ds ↔ cs.filter (!isWhiteSpace ·) = ds.filter (!isWhiteSpace ·) :=
  ⟨Respaced.filter_eq, respaced_of_filter_eq⟩

instance (cs ds : List Char) : Decidable (Respaced cs ds) :=
  decidable_of_iff _ respaced_iff.symm

namespace Token

variable {tokens : List Token}

theorem map_symbol_ofChar? (c : Char) :
    (ofChar? c).map symbol = Option.guard (!isWhiteSpace ·) c := by
  cases blank : isWhiteSpace c <;> simp [ofChar?, blank, symbol_ofSymbol, Option.guard]

theorem map_symbol_ofText (text : String) :
    (ofText text).map symbol = text.toList.filter (!isWhiteSpace ·) := by
  rw [ofText, List.map_filterMap]
  simp only [map_symbol_ofChar?]
  rw [List.filterMap_eq_filter]

theorem text_ofText (text : String) : Token.text (ofText text) = withoutWhiteSpace text := by
  rw [Token.text, map_symbol_ofText, withoutWhiteSpace]

theorem ofText_withoutWhiteSpace (text : String) :
    ofText (withoutWhiteSpace text) = ofText text := by
  have solid : (fun c => if !isWhiteSpace c then ofChar? c else none) = ofChar? := by
    funext c
    cases blank : isWhiteSpace c <;> simp [ofChar?, blank]
  rw [ofText, withoutWhiteSpace, String.toList_ofList, List.filterMap_filter, solid, ofText]

theorem ofChar?_symbol {t : Token} (plain : ∀ name, t = .var name → Plain name) :
    ofChar? t.symbol = some t := by
  cases t with
  | var name => exact ofChar?_eq_var_iff.mpr ⟨plain name rfl, rfl⟩
  | operator op => exact ofChar?_operator op
  | leftParen | rightParen => decide

theorem ofText_text (plain : ∀ name, .var name ∈ tokens → Plain name) :
    ofText (Token.text tokens) = tokens := by
  rw [ofText, Token.text, String.toList_ofList]
  induction tokens with
  | nil => rfl
  | cons t tokens ih =>
    have plainFirst : ∀ name, t = .var name → Plain name := by
      rintro name rfl
      exact plain name List.mem_cons_self
    have plainOthers : ∀ name, .var name ∈ tokens → Plain name := by
      intro name member
      exact plain name (List.mem_cons_of_mem t member)
    rw [List.map_cons, List.filterMap_cons_some (ofChar?_symbol plainFirst), ih plainOthers]

/-- Texts have the same tokens where they have the same characters apart from white space. -/
theorem ofText_eq_iff : ofText text = ofText other ↔ Respaced text.toList other.toList := by
  rw [respaced_iff]
  constructor
  · intro same
    rw [← map_symbol_ofText, same, map_symbol_ofText]
  · intro same
    rw [← ofText_withoutWhiteSpace text, ← ofText_withoutWhiteSpace other, withoutWhiteSpace, same,
      withoutWhiteSpace]

theorem ofText_text_iff :
    ofText (Token.text tokens) = tokens ↔ ∀ name, .var name ∈ tokens → Plain name := by
  constructor
  · intro again name member
    rw [← again] at member
    exact plain_of_mem_ofText member
  · exact ofText_text

end Token

/-- The tokens of a text are written as the text without its white space, and that has the same
tokens. Tokens are read back from what they are written as exactly where all of their names are
plain. Texts that differ in white space alone, in whatever places, and no others, have the same
tokens, and with them the same items or mismatched parenthesis and the same lenient and strict
readings. -/
theorem white_space_makes_no_difference :
    (∀ text : String, Token.text (Token.ofText text) = withoutWhiteSpace text ∧
      Token.ofText (Token.text (Token.ofText text)) = Token.ofText text) ∧
    (∀ tokens : List Token, Token.ofText (Token.text tokens) = tokens ↔
      ∀ name, .var name ∈ tokens → Token.Plain name) ∧
    ∀ text other : String,
      (Token.ofText text = Token.ofText other ↔ Respaced text.toList other.toList) ∧
      (Respaced text.toList other.toList →
        Item.ofTokens (Token.ofText text) = Item.ofTokens (Token.ofText other) ∧
        Formula.ofTokens (Token.ofText text) = Formula.ofTokens (Token.ofText other) ∧
        Formula.read text = Formula.read other) := by
  refine ⟨fun text => ⟨Token.text_ofText text, ?_⟩, fun tokens => Token.ofText_text_iff,
    fun text other => ⟨Token.ofText_eq_iff, fun spaced => ?_⟩⟩
  · rw [Token.text_ofText, Token.ofText_withoutWhiteSpace]
  · have same := Token.ofText_eq_iff.mpr spaced
    rw [Formula.read, Formula.read, same]
    exact ⟨rfl, rfl, rfl⟩

/-- The parenthesis is the third token, whatever white space there is before it. -/
theorem spaced_mismatch_reported_alike :
    Respaced "p\u00a0∧ )q".toList "\tp∧)q".toList ∧
    Formula.read "p\u00a0∧ )q" = .error (.mismatchedParenthesis 2) ∧
    Formula.read "\tp∧)q" = .error (.mismatchedParenthesis 2) ∧
    (∀ name, Token.var name ∈ [Token.leftParen, .var 'p', .operator .not] → Token.Plain name) ∧
    Token.ofText (Token.text [.leftParen, .var 'p', .operator .not]) =
      [.leftParen, .var 'p', .operator .not] := by
  have spaced : Respaced "p\u00a0∧ )q".toList "\tp∧)q".toList := by decide
  have mismatched : Formula.read "\tp∧)q" = .error (.mismatchedParenthesis 2) := by rfl
  have plain : ∀ name, Token.var name ∈ [Token.leftParen, .var 'p', .operator .not] →
      Token.Plain name := by
    intro name member
    obtain rfl : name = 'p' := by simpa using member
    decide
  obtain ⟨-, again, alike⟩ := white_space_makes_no_difference
  exact ⟨spaced, ((alike _ _).2 spaced).2.2.trans mismatched, mismatched, plain,
    (again _).mpr plain⟩

end Sentential
