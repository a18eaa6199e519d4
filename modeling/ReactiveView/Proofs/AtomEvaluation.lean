import ReactiveView.Proofs.ClosedTexts
import ReactiveView.Proofs.ExactIntegers

/-!
# Values of atoms

The text of an atom evaluates to the value of the atom.
-/

namespace ReactiveView.Expr

open List

section Front

variable {c : Char} {rest : List Char} (isChar : isAtomChar c = true)
include isChar

theorem unwrap?_of_isAtomChar : unwrap? (c :: rest) = none := by
  have noParenthesis : c ≠ '(' := ne_of_isAtomChar isChar (by decide)
  simp [unwrap?, noParenthesis]

theorem stringLiteral?_of_isAtomChar : stringLiteral? (c :: rest) = none := by
  have noDouble : c ≠ '"' := ne_of_isAtomChar isChar (by decide)
  have noSingle : c ≠ '\'' := ne_of_isAtomChar isChar (by decide)
  have noBack : c ≠ '`' := ne_of_isAtomChar isChar (by decide)
  simp [stringLiteral?, noDouble, noSingle, noBack]

end Front

/-- An atom that is no string neither begins with a parenthesis nor with a quote. -/
theorem Atom.noLiteral_append {a : Atom} (noString : ∀ s, a ≠ .string s) (after : List Char) :
    unwrap? (a.text ++ after) = none ∧ stringLiteral? (a.text ++ after) = none := by
  obtain ⟨c, rest, text⟩ := exists_cons_of_ne_nil a.text_ne_nil
  have isChar : isAtomChar c = true := a.isAtomChar_of_mem noString (by simp [text])
  rw [text]
  exact ⟨unwrap?_of_isAtomChar isChar, stringLiteral?_of_isAtomChar isChar⟩

/-! ## Integers -/

namespace IntegerText

variable (n : IntegerText)

theorem spanSign_text : Text.spanSign n.text = (n.negative, n.digits) := by
  rw [IntegerText.text]
  cases sign : n.negative with
  | true => simp [Text.spanSign]
  | false =>
    obtain ⟨d, rest, digits⟩ := exists_cons_of_ne_nil n.filled
    have isDigit : d.isDigit = true := n.areDigits d (by simp [digits])
    have noMinus : d ≠ '-' := by
      rintro rfl
      cases isDigit
    have noPlus : d ≠ '+' := by
      rintro rfl
      cases isDigit
    simp [digits, Text.spanSign, noMinus, noPlus]

theorem toLower_of_isDigit {d : Char} (isDigit : d.isDigit = true) : d.toLower = d := by
  apply toLower_eq_self
  rw [isDigit_iff] at isDigit
  omega

/-- Digits have no case, so they do not spell a word. -/
theorem noWord : String.ofList (n.digits.map Char.toLower) ∉ Text.nonfiniteWords := by
  intro isWord
  obtain ⟨d, rest, digits⟩ := exists_cons_of_ne_nil n.filled
  have isDigit : d.isDigit = true := n.areDigits d (by simp [digits])
  have letters : Text.nonfiniteWords.all (fun w => w.toList.all fun c => !c.isDigit) = true := by
    decide
  have plain := all_eq_true.mp letters _ isWord
  simp [digits, toLower_of_isDigit isDigit, isDigit] at plain

theorem spanDigits_digits : Text.spanDigits n.digits = (n.digits, []) := by
  have leading := @List.takeWhile_append_of_pos _ Char.isDigit n.digits [] n.areDigits
  have after := @List.dropWhile_append_of_pos _ Char.isDigit n.digits [] n.areDigits
  simp only [append_nil, takeWhile_nil, dropWhile_nil] at leading after
  rw [Text.spanDigits, leading, after]

theorem readNumeral_text {x : Binary64}
    (isNumber : Binary64.ofDecimal n.negative (Text.digitsValue n.digits) 0 = some x) :
    Text.readNumeral n.text = .finite x := by
  simp [Text.readNumeral, n.spanSign_text, n.noWord, n.spanDigits_digits, n.filled, Text.exponent?,
    isNumber]

end IntegerText

theorem Atom.eval?_integer (scope : Scope) (n : IntegerText) :
    eval? scope (Atom.integer n).text = some (.num (.int n.value)) := by
  obtain ⟨x, isNumber, value⟩ := Json.ofBinary64_ofDecimal n.negative n.small
  obtain ⟨noGroup, noString⟩ := @Atom.noLiteral_append (.integer n) (by simp) []
  rw [append_nil] at noGroup noString
  rw [eval?_of_numeral scope (Atom.isTight _) noGroup noString (n.readNumeral_text isNumber), value,
    IntegerText.value]

/-! ## Words -/

theorem Atom.eval?_word (scope : Scope) (w : ValueWord) :
    eval? scope (Atom.word w).text = some w.value := by
  obtain ⟨noGroup, noString⟩ := @Atom.noLiteral_append (.word w) (by simp) []
  rw [append_nil] at noGroup noString
  have noNumeral : Text.readNumeral (Atom.word w).text = .other := by cases w <;> decide
  have isWord : word? (Atom.word w).text = some w.value := by
    cases w <;> simp [Atom.text, word?, ValueWord.spelling, ValueWord.value]
  rw [eval?_of_noLiteral scope (Atom.isTight _) noGroup noString noNumeral, isWord, Option.some_or]

/-! ## Strings -/

section Pieces

variable {quote : Char} (pieces : List (Piece quote))

theorem hasBareQuote_pieces : hasBareQuote quote (pieces.flatMap Piece.text) = false := by
  induction pieces with
  | nil => rfl
  | cons piece pieces ih =>
    cases piece with
    | plain c bare => simp [Piece.text, hasBareQuote, bare, ih]
    | escaped c => simp [Piece.text, hasBareQuote, ih]

theorem unescape_pieces : unescape (pieces.flatMap Piece.text) = pieces.map Piece.char := by
  induction pieces with
  | nil => rfl
  | cons piece pieces ih =>
    cases piece with
    | plain c bare => simp [Piece.text, Piece.char, unescape, bare, ih]
    | escaped c => simp [Piece.text, Piece.char, unescape, ih]

variable (isQuote : quote = '"' ∨ quote = '\'')
include isQuote

theorem stringLiteral?_pieces : stringLiteral? (quote :: (pieces.flatMap Piece.text ++ [quote])) =
    some (String.ofList (pieces.map Piece.char)) := by
  have noBare := hasBareQuote_pieces pieces
  have value := unescape_pieces pieces
  cases isQuote with
  | inl double =>
    subst double
    simp [stringLiteral?, between?, noBare, value]
  | inr single =>
    subst single
    simp [stringLiteral?, between?, noBare, value]

theorem eval?_pieces (scope : Scope) : eval? scope (quote :: (pieces.flatMap Piece.text ++ [quote])) =
    some (.str (String.ofList (pieces.map Piece.char))) := by
  apply eval?_of_stringLiteral? scope (.quoted isQuote _) _ (stringLiteral?_pieces pieces isQuote)
  cases isQuote <;> simp [unwrap?, *]

end Pieces

theorem Atom.eval?_string (scope : Scope) (s : StringText) :
    eval? scope (Atom.string s).text = some (.str s.value) := eval?_pieces s.pieces s.isQuote scope

/-! ## Paths -/

theorem go_segments_append {s : List Char} (noDot : ∀ c ∈ s, c ≠ '.') (part rest : List Char) :
    segments.go part (s ++ rest) = segments.go (s.reverse ++ part) rest := by
  induction s generalizing part with
  | nil => rfl
  | cons c s ih =>
    rw [forall_mem_cons] at noDot
    simp [segments.go, noDot.1, ih noDot.2]

theorem segments_names {first : List Char} {rest : List (List Char)}
    (noDot : ∀ s ∈ first :: rest, ∀ c ∈ s, c ≠ '.') :
    segments (first ++ rest.flatMap ('.' :: ·)) = first :: rest := by
  rw [segments, go_segments_append (noDot first mem_cons_self)]
  induction rest generalizing first with
  | nil => simp [segments.go]
  | cons next rest ih =>
    rw [forall_mem_cons] at noDot
    have later := ih noDot.2
    simp only [flatMap_cons, cons_append, segments.go]
    rw [go_segments_append (noDot.2 next mem_cons_self), later]
    simp

theorem PathText.path?_text (scope : Scope) (p : PathText) : path? scope p.text = p.value? scope := by
  have noDot : ∀ s ∈ p.first :: p.rest, ∀ c ∈ s, c ≠ '.' := by
    intro s isName c inName
    have isPart := isIdentPart_of_isIdent (p.areNames s isName) inName
    rintro rfl
    cases isPart
  simp only [path?, PathText.text, segments_names noDot, PathText.value?]
  by_cases isThis : p.first = "this".toList
  · rw [if_pos isThis, if_pos isThis]
    cases rest : p.rest with
    | nil => rfl
    | cons field rest => simp [p.areNames field (by simp [*])]
  · rw [if_neg isThis, if_neg isThis, if_pos (p.areNames p.first mem_cons_self)]

theorem PathText.eq_first_or_mem (p : PathText) : p.text = p.first ∨ '.' ∈ p.text := by
  rw [PathText.text]
  cases p.rest with
  | nil => exact .inl (by simp)
  | cons next rest => exact .inr (by simp)

theorem isDigit_of_isIdentStart {c : Char} (isStart : isIdentStart c = true) :
    c.isDigit = false := by
  rw [isIdentStart_iff] at isStart
  rw [← Bool.not_eq_true, isDigit_iff]
  omega

/-- A text that begins like a name is a numeral only if it is one of the words. -/
theorem readNumeral_of_isIdentStart {c : Char} {rest : List Char} (isStart : isIdentStart c = true)
    (noWord : String.ofList ((c :: rest).map Char.toLower) ∉ Text.nonfiniteWords) :
    Text.readNumeral (c :: rest) = .other := by
  have noDigit := isDigit_of_isIdentStart isStart
  have noSign : c ≠ '-' ∧ c ≠ '+' ∧ c ≠ '.' := by
    refine ⟨?_, ?_, ?_⟩ <;> rintro rfl <;> cases isStart
  simpa [Text.readNumeral, Text.spanSign, Text.spanDigits, noSign, noDigit] using noWord

theorem PathText.readNumeral_text (p : PathText) : Text.readNumeral p.text = .other := by
  have noWord : String.ofList (p.text.map Char.toLower) ∉ Text.nonfiniteWords := by
    cases p.eq_first_or_mem with
    | inl single => simpa [single] using p.noNumeral
    | inr hasDot =>
      intro isWord
      have letters : Text.nonfiniteWords.all (fun w => w.toList.all (· ≠ '.')) = true := by decide
      have noDot := all_eq_true.mp letters _ isWord
      have inLower : '.' ∈ p.text.map Char.toLower := mem_map.mpr ⟨'.', hasDot, by decide⟩
      simp only [String.toList_ofList] at noDot
      simpa using all_eq_true.mp noDot '.' inLower
  have isName := p.areNames p.first mem_cons_self
  cases first : p.first with
  | nil => simp [first, isIdent] at isName
  | cons c rest =>
    simp only [first, isIdent, Bool.and_eq_true] at isName
    have text : p.text = c :: (rest ++ p.rest.flatMap ('.' :: ·)) := by simp [PathText.text, first]
    rw [text] at noWord ⊢
    exact readNumeral_of_isIdentStart isName.1 noWord

theorem PathText.word?_text (p : PathText) : word? p.text = none := by
  have noWord (w : ValueWord) : p.text ≠ w.spelling.toList := by
    intro isWord
    cases p.eq_first_or_mem with
    | inl single => exact p.noWord w (single ▸ isWord)
    | inr hasDot =>
      rw [isWord] at hasDot
      cases w <;> revert hasDot <;> decide
  have isTrue : p.text ≠ "true".toList := noWord .true
  have isFalse : p.text ≠ "false".toList := noWord .false
  have isNull : ¬(p.text = "null".toList ∨ p.text = "undefined".toList) :=
    not_or.mpr ⟨noWord .null, noWord .undefined⟩
  rw [word?, if_neg isTrue, if_neg isFalse, if_neg isNull]

/-- A text that begins like an operand is neither a negation nor an array or object. -/
theorem leafValue?_of_beginsOperand {c : Char} {rest : List Char} (begins : beginsOperand c = true)
    (scope : Scope) (eval : List Char → Option Json) :
    leafValue? scope eval (c :: rest) = path? scope (c :: rest) := by
  have other (d : Char) (no : beginsOperand d = false) : c ≠ d := by
    rintro rfl
    simp [no] at begins
  simp [leafValue?, other '!' (by decide), other '[' (by decide), other '{' (by decide)]

theorem Atom.eval?_path (scope : Scope) (p : PathText) :
    eval? scope (Atom.path p).text = p.value? scope := by
  obtain ⟨noGroup, noString⟩ := @Atom.noLiteral_append (.path p) (by simp) []
  rw [append_nil] at noGroup noString
  -- As a tree, a path has no symbols.
  have silent (head : Char) : head ∉ (Tree.operand (.atom (.path p))).symbols := not_mem_nil
  have noTernary := Tree.ternaryValue?_text (eval? scope) (silent '?')
  have noComparison := Tree.comparisonValue?_text (eval? scope) fun head _ => silent head
  have noSum := Tree.sumValue?_text (eval? scope) (silent '+')
  rw [Tree.text, Operand.text] at noTernary noComparison noSum
  have leaf : leafValue? scope (eval? scope) (Atom.path p).text = p.value? scope := by
    obtain ⟨c, rest, text, begins⟩ := (Operand.atom (.path p)).exists_text_eq_cons
    rw [Operand.text] at text
    rw [text, leafValue?_of_beginsOperand begins, ← text, Atom.text, p.path?_text]
  rw [eval?_of_noLiteral scope (Atom.isTight _) noGroup noString p.readNumeral_text, noTernary,
    noComparison, noSum, leaf, Atom.text, p.word?_text]
  simp

theorem Atom.eval?_text (scope : Scope) (a : Atom) : eval? scope a.text = a.value? scope := by
  cases a with
  | integer n => exact Atom.eval?_integer scope n
  | word w => exact Atom.eval?_word scope w
  | string s => exact Atom.eval?_string scope s
  | path p => exact Atom.eval?_path scope p

end ReactiveView.Expr
