import ReactiveView.Proofs.AtomEvaluation

/-!
# String literals

Every string can be written between single and between double quotes, and evaluates to itself when it
is (`eval_literal`).  A literal is recognised by a search for a quote without a backslash before it and
decoded by another pass over its text; both go by the same pieces, a character or a backslash with the
character after it.
-/

namespace ReactiveView.Expr

/-- The quotes that a string can be written in. -/
inductive QuoteMark where
  | single
  | double
deriving DecidableEq, Repr

namespace QuoteMark

def char : QuoteMark → Char
  | .single => '\''
  | .double => '"'

/-- How a character is written between such quotes. -/
def escape (q : QuoteMark) (c : Char) : List Char :=
  if c = '\\' ∨ c = q.char then ['\\', c]
  else if c = '\n' then ['\\', 'n']
  else if c = '\r' then ['\\', 'r']
  else if c = '\t' then ['\\', 't']
  else [c]

/-- A string between such quotes. -/
def literal (q : QuoteMark) (s : String) : List Char :=
  q.char :: (s.toList.flatMap q.escape ++ [q.char])

variable (q : QuoteMark)

theorem isQuote : q.char = '"' ∨ q.char = '\'' := by cases q <;> decide

theorem exists_piece (c : Char) : ∃ piece : Piece q.char, piece.text = q.escape c ∧ piece.char = c := by
  by_cases special : c = '\\' ∨ c = q.char
  · refine ⟨.escaped c, by simp [escape, special, Piece.text], ?_⟩
    obtain rfl | rfl := special
    · rfl
    · cases q <;> rfl
  by_cases isNewline : c = '\n'
  · subst isNewline
    exact ⟨.escaped 'n', by cases q <;> rfl, rfl⟩
  by_cases isReturn : c = '\r'
  · subst isReturn
    exact ⟨.escaped 'r', by cases q <;> rfl, rfl⟩
  by_cases isTab : c = '\t'
  · subst isTab
    exact ⟨.escaped 't', by cases q <;> rfl, rfl⟩
  have bare : c ≠ q.char ∧ c ≠ '\\' := ⟨fun same => special (.inr same), fun same => special (.inl same)⟩
  exact ⟨.plain c bare, by simp [escape, special, isNewline, isReturn, isTab, Piece.text], rfl⟩

/-- The text of a string consists of pieces, one for each of its characters. -/
theorem exists_pieces (s : List Char) : ∃ pieces : List (Piece q.char),
    pieces.flatMap Piece.text = s.flatMap q.escape ∧ pieces.map Piece.char = s := by
  induction s with
  | nil => exact ⟨[], rfl, rfl⟩
  | cons c s ih =>
    obtain ⟨piece, text, char⟩ := q.exists_piece c
    obtain ⟨pieces, texts, chars⟩ := ih
    exact ⟨piece :: pieces, by simp [text, texts], by simp [char, chars]⟩

theorem eval?_literal (scope : Scope) (s : String) : eval? scope (q.literal s) = some (.str s) := by
  obtain ⟨pieces, texts, chars⟩ := q.exists_pieces s.toList
  rw [literal, ← texts, eval?_pieces pieces q.isQuote scope, chars, String.ofList_toList]

end QuoteMark

/-- A string between quotes evaluates to the string. -/
theorem eval_literal (scope : Scope) (q : QuoteMark) (s : String) :
    eval scope (String.ofList (q.literal s)) = .str s := by
  rw [eval, String.toList_ofList, q.eval?_literal, Option.getD_some]

end ReactiveView.Expr
