import ReactiveView.Proofs.Parentheses

/-!
# Expression trees

Expressions as trees: atoms, sums, comparisons, conditionals and negations, whose operands are atoms or
trees in parentheses.  A tree has a text, with single blanks around operators, and a value, from the
values of its operands.
-/

namespace ReactiveView.Expr

/-! ## Atoms -/

/-- A decimal integer that counts as an integer value: digits, after a minus sign if it is
    negative. -/
structure IntegerText where
  negative : Bool
  digits : List Char
  filled : digits ≠ []
  areDigits : ∀ d ∈ digits, d.isDigit = true
  small : Text.digitsValue digits < integerBound

namespace IntegerText

def text (n : IntegerText) : List Char := if n.negative then '-' :: n.digits else n.digits

def value (n : IntegerText) : Int :=
  if n.negative then -(Text.digitsValue n.digits : Int) else Text.digitsValue n.digits

end IntegerText

/-- A character of a string: written as it is, or after a backslash. -/
inductive Piece (quote : Char) where
  | plain (c : Char) (bare : c ≠ quote ∧ c ≠ '\\')
  | escaped (c : Char)

namespace Piece

variable {quote : Char}

def text : Piece quote → List Char
  | .plain c _ => [c]
  | .escaped c => ['\\', c]

/-- The character that is meant. -/
def char : Piece quote → Char
  | .plain c _ => c
  | .escaped c => unescapeChar c

end Piece

/-- A string in single or double quotes, without parentheses. -/
structure StringText where
  quote : Char
  isQuote : quote = '"' ∨ quote = '\''
  pieces : List (Piece quote)
  noParenthesis : ∀ c ∈ pieces.flatMap Piece.text, c ≠ '(' ∧ c ≠ ')'

namespace StringText

def text (s : StringText) : List Char := s.quote :: (s.pieces.flatMap Piece.text ++ [s.quote])

def value (s : StringText) : String := String.ofList (s.pieces.map Piece.char)

end StringText

/-- The words that denote a value. -/
inductive ValueWord where
  | true | false | null | undefined

namespace ValueWord

def spelling : ValueWord → String
  | .true => "true"
  | .false => "false"
  | .null => "null"
  | .undefined => "undefined"

def value : ValueWord → Json
  | .true => .bool Bool.true
  | .false => .bool Bool.false
  | .null | .undefined => .null

end ValueWord

/-- A name, or names with dots between them.  The first is neither a word that denotes a value nor one
    of the words for infinity and "not a number". -/
structure PathText where
  first : List Char
  rest : List (List Char)
  areNames : ∀ s ∈ first :: rest, isIdent s = true
  noWord : ∀ word : ValueWord, first ≠ word.spelling.toList
  noNumeral : String.ofList (first.map Char.toLower) ∉ Text.nonfiniteWords

namespace PathText

def text (p : PathText) : List Char := p.first ++ p.rest.flatMap ('.' :: ·)

/-- The value that the names lead to, from a field after `this` and from a name in scope otherwise. -/
def value? (scope : Scope) (p : PathText) : Option Json :=
  if p.first = "this".toList then
    match p.rest with
    | [] => none
    | field :: rest => (scope.field (String.ofList field)).bind (walkPath? · rest)
  else (scope.name (String.ofList p.first)).bind (walkPath? · p.rest)

end PathText

/-- An expression without operators and parentheses. -/
inductive Atom where
  | integer (n : IntegerText)
  | word (w : ValueWord)
  | string (s : StringText)
  | path (p : PathText)

namespace Atom

def text : Atom → List Char
  | .integer n => n.text
  | .word w => w.spelling.toList
  | .string s => s.text
  | .path p => p.text

def value? (scope : Scope) : Atom → Option Json
  | .integer n => some (.num (.int n.value))
  | .word w => some w.value
  | .string s => some (.str s.value)
  | .path p => p.value? scope

end Atom

/-! ## Trees -/

mutual

/-- An operand: an atom, or a tree in parentheses. -/
inductive Operand where
  | atom (a : Atom)
  | group (t : Tree)

/-- An expression.  A sum has two operands or more. -/
inductive Tree where
  | operand (o : Operand)
  | sum (first second : Operand) (more : List Operand)
  | compare (op : CompareOp) (left right : Operand)
  | choose (condition yes no : Operand)
  | not (o : Operand)

end

mutual

/-- The text of an operand. -/
def Operand.text : Operand → List Char
  | .atom a => a.text
  | .group t => parenthesised t.text

/-- The text of an expression. -/
def Tree.text : Tree → List Char
  | .operand o => o.text
  | .sum first second more =>
    first.text ++ ([' ', '+', ' '] ++ (second.text ++ Operand.summandsText more))
  | .compare op left right => left.text ++ (' ' :: op.symbol ++ [' '] ++ right.text)
  | .choose condition yes no =>
    condition.text ++ ([' ', '?', ' '] ++ (yes.text ++ ([' ', ':', ' '] ++ no.text)))
  | .not o => '!' :: o.text

/-- The text of the further operands of a sum. -/
def Operand.summandsText : List Operand → List Char
  | [] => []
  | o :: rest => [' ', '+', ' '] ++ (o.text ++ Operand.summandsText rest)

end

mutual

/-- The value of an operand, if it has one. -/
def Operand.value? (scope : Scope) : Operand → Option Json
  | .atom a => a.value? scope
  | .group t => t.value? scope

/-- The value of an expression, if it has one: an operand without a value leaves the expression
    without one, except for the value of a conditional that is not chosen. -/
def Tree.value? (scope : Scope) : Tree → Option Json
  | .operand o => o.value? scope
  | .sum first second more => do
    Operand.addAll? scope (← (← first.value? scope).plus? (← second.value? scope)) more
  | .compare op left right => do
    return .bool (← op.holds? (← left.value? scope) (← right.value? scope))
  | .choose condition yes no => do
    if (← condition.value? scope).truthy then yes.value? scope else no.value? scope
  | .not o => (o.value? scope).map fun v => .bool (!v.truthy)

/-- Add the values of operands to a value, from left to right. -/
def Operand.addAll? (scope : Scope) (acc : Json) : List Operand → Option Json
  | [] => some acc
  | o :: rest => do Operand.addAll? scope (← acc.plus? (← o.value? scope)) rest

end

end ReactiveView.Expr
