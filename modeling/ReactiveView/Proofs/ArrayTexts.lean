import ReactiveView.Proofs.JsonTexts
import ReactiveView.Proofs.StringLiterals

/-!
# Texts of arrays of literals

An array of literals, written with a comma and a blank between two, is no operator expression and is
read as JSON (`eval?_arrayText`).
-/

namespace ReactiveView.Expr

open List

/-! ## Literals -/

/-- A literal: a word, an integer that counts as an integer value, or a string without control
    characters other than line feed, carriage return and tab. -/
inductive Literal where
  | null
  | bool (b : Bool)
  | integer (n : Int) (small : n.natAbs < integerBound)
  | string (q : QuoteMark) (s : String)
      (visible : ∀ c ∈ s.toList, 32 ≤ c.toNat ∨ c = '\n' ∨ c = '\r' ∨ c = '\t')

namespace Literal

def text : Literal → List Char
  | .null => "null".toList
  | .bool b => (toString b).toList
  | .integer n _ => (toString n).toList
  | .string q s _ => q.literal s

def value : Literal → Json
  | .null => .null
  | .bool b => .bool b
  | .integer n _ => .num (.int n)
  | .string _ s _ => .str s

end Literal

theorem digitsValue_toDigits (n : Nat) : Text.digitsValue (Nat.toDigits 10 n) = n := by
  have folded : Text.digitsValue (Nat.toDigits 10 n) = Nat.ofDigitChars 10 (Nat.toDigits 10 n) 0 := by
    simp only [Text.digitsValue, Nat.ofDigitChars, Nat.mul_comm]
  rw [folded, Nat.ofDigitChars_ten_toDigits]

/-- The decimal text of an integer. -/
def integerText (n : Int) (small : n.natAbs < integerBound) : IntegerText where
  negative := n < 0
  digits := Nat.toDigits 10 n.natAbs
  filled := Nat.toDigits_ne_nil
  areDigits d member := Nat.isDigit_of_mem_toDigits (by decide) (by decide) member
  small := by rwa [digitsValue_toDigits]

theorem toList_repr (n : Int) : n.repr.toList =
    if n < 0 then '-' :: Nat.toDigits 10 n.natAbs else Nat.toDigits 10 n.natAbs := by
  cases n with
  | ofNat n => simp [Int.repr, Nat.toList_repr]
  | negSucc n => simp [Int.repr, Nat.toList_repr, Int.negSucc_lt_zero]

namespace Literal

/-- A literal that is no string is written as an atom without quotes, and as in JSON. -/
structure IsPlain (l : Literal) (a : Atom) : Prop where
  noString : (∀ q s visible, l ≠ .string q s visible) ∧ ∀ s, a ≠ .string s
  text : a.text = l.text
  value : ∀ scope, a.value? scope = some l.value
  chars : l.value.chars = l.text

theorem cases_isPlain (l : Literal) :
    (∃ q s visible, l = .string q s visible) ∨ ∃ a, l.IsPlain a := by
  cases l with
  | null => exact .inr ⟨.word .null, by simp, rfl, fun _ => rfl, rfl⟩
  | bool b =>
    cases b with
    | false => exact .inr ⟨.word .false, by simp, rfl, fun _ => rfl, rfl⟩
    | true => exact .inr ⟨.word .true, by simp, rfl, fun _ => rfl, rfl⟩
  | integer n small =>
    have value : (integerText n small).value = n := by
      simp only [IntegerText.value, integerText, digitsValue_toDigits, decide_eq_true_eq]
      split <;> omega
    refine .inr ⟨.integer (integerText n small), by simp, ?_, ?_, rfl⟩
    · simp [Atom.text, IntegerText.text, integerText, text, toList_repr]
    · intro scope
      rw [Atom.value?, value, Literal.value]
  | string q s visible => exact .inl ⟨q, s, visible, rfl⟩

theorem IsPlain.not_mem {l : Literal} {a : Atom} (plain : l.IsPlain a) {c : Char}
    (other : isAtomChar c = false) : c ∉ l.text := by
  intro member
  rw [← plain.text] at member
  exact absurd (a.isAtomChar_of_mem plain.noString.2 member) (by simp [other])

theorem eval?_text (scope : Scope) (l : Literal) : eval? scope l.text = some l.value := by
  obtain ⟨q, s, visible, rfl⟩ | ⟨a, plain⟩ := l.cases_isPlain
  · exact q.eval?_literal scope s
  · rw [← plain.text, a.eval?_text, plain.value]

/-- A scan for an operator passes over a literal. -/
theorem skips (l : Literal) {head : Char} {tail : List Char} {depth : Int}
    (isHead : head ∈ operatorHeads) : Skips (head :: tail) depth l.text := by
  obtain ⟨q, s, visible, rfl⟩ | ⟨a, plain⟩ := l.cases_isPlain
  · obtain ⟨pieces, texts, -⟩ := q.exists_pieces s.toList
    rw [text, QuoteMark.literal, ← texts]
    exact .quoted q.isQuote pieces
  · exact plain.text ▸ a.skips isHead

end Literal

/-! ## Arrays -/

/-- Texts between brackets, with a comma and a blank between two. -/
def arrayText (texts : List (List Char)) : List Char := '[' :: ([',', ' '].intercalate texts ++ [']'])

/-- What follows the first text of an array. -/
def arrayTail : List (List Char) → List Char
  | [] => [']']
  | next :: rest => [',', ' '] ++ (next ++ arrayTail rest)

/-- What follows the opening bracket of an array that is not empty. -/
def itemsText (first : List Char) (rest : List (List Char)) : List Char := first ++ arrayTail rest

theorem itemsText_nil (first : List Char) : itemsText first [] = first ++ [']'] := rfl

theorem itemsText_cons (first next : List Char) (rest : List (List Char)) :
    itemsText first (next :: rest) = first ++ ([',', ' '] ++ itemsText next rest) := rfl

theorem arrayText_cons (first : List Char) (rest : List (List Char)) :
    arrayText (first :: rest) = '[' :: itemsText first rest := by
  have inner : [',', ' '].intercalate (first :: rest) ++ [']'] = itemsText first rest := by
    induction rest generalizing first with
    | nil => simp [itemsText_nil]
    | cons next rest ih => simp [itemsText_cons, ← ih next, intercalate_cons_cons]
  rw [arrayText, inner]

/-- The text of an array of literals is no operator expression. -/
theorem eval?_arrayText (scope : Scope) (items : List Literal) :
    eval? scope (arrayText (items.map Literal.text)) =
      containerLiteral? (arrayText (items.map Literal.text)) := by
  have inside {head : Char} {tail : List Char} (isHead : head ∈ operatorHeads) :
      Skips (head :: tail) 1 ([',', ' '].intercalate (items.map Literal.text)) := by
    have separator : Skips (head :: tail) 1 [',', ' '] := skips_symbols (by decide) (.inl (by decide))
    induction items with
    | nil => exact fun _ _ => rfl
    | cons l items ih =>
      cases items with
      | nil => simpa using l.skips isHead
      | cons next items =>
        rw [map_cons, map_cons, intercalate_cons_cons]
        exact ((l.skips isHead).append separator).append ih
  have absent {head : Char} {tail : List Char} (isHead : head ∈ operatorHeads) :
      topLevel (head :: tail) (arrayText (items.map Literal.text)) = [] :=
    (Skips.bracketed (by decide) (by decide) (inside isHead)).topLevel_eq_nil
  have last : (arrayText (items.map Literal.text)).getLast? = some ']' := by
    rw [arrayText, ← cons_append, List.getLast?_concat]
  have tight : IsTight (arrayText (items.map Literal.text)) :=
    ⟨⟨'[', rfl, by decide⟩, ⟨']', last, by decide, by decide⟩⟩
  rw [eval?_operator tight rfl rfl mem_cons_self (by decide),
    ternaryValue?_eq_none _ (absent (by decide)),
    comparisonValue?_eq_none _ (fun op => by cases op <;> exact absent (by decide)),
    sumValue?_eq_none _ (absent (by decide))]
  rfl

end ReactiveView.Expr
