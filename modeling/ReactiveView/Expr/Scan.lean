import ReactiveView.Expr.Value
import ReactiveView.Text.Blank

/-!
# Where operators stand in expression text

`topLevel op cs` lists the positions where `op` occurs outside strings and brackets.  Brackets
are only counted, not matched by kind, and the count may fall below zero.  The splits at an
operator (`ternary?`, `comparisons`, `summands?`) are what evaluation recurses on.
-/

namespace ReactiveView.Expr

/-- Where a scan stands: in code, in a string, or after a backslash in a string. -/
inductive ScanMode where
  | code
  | quoted (quote : Char)
  | escaped (quote : Char)
deriving DecidableEq, Repr

def isOpening (c : Char) : Bool := c = '(' || c = '[' || c = '{'

def isClosing (c : Char) : Bool := c = ')' || c = ']' || c = '}'

def isQuote (c : Char) : Bool := c = '"' || c = '\'' || c = '`'

/-- Positions of `op` from position `i` on; `skip` characters still belong to the last
    occurrence. -/
def topLevelFrom (op : List Char) (mode : ScanMode) (depth : Int) (skip i : Nat) :
    List Char → List Nat
  | [] => []
  | c :: rest =>
    match mode with
    | .escaped q => topLevelFrom op (.quoted q) depth 0 (i + 1) rest
    | .quoted q =>
      let mode := if c = q then .code else if c = '\\' then .escaped q else .quoted q
      topLevelFrom op mode depth 0 (i + 1) rest
    | .code =>
      match skip with
      | skip + 1 => topLevelFrom op .code depth skip (i + 1) rest
      | 0 =>
        if isOpening c then topLevelFrom op .code (depth + 1) 0 (i + 1) rest
        else if isClosing c then topLevelFrom op .code (depth - 1) 0 (i + 1) rest
        else if isQuote c then topLevelFrom op (.quoted c) depth 0 (i + 1) rest
        else if depth = 0 ∧ op.isPrefixOf (c :: rest) then
          i :: topLevelFrom op .code depth (op.length - 1) (i + 1) rest
        else topLevelFrom op .code depth 0 (i + 1) rest

/-- Positions of `op` outside strings and brackets, from left to right, without overlaps. -/
def topLevel (op cs : List Char) : List Nat := topLevelFrom op .code 0 0 0 cs

/-- Condition, value if true and value if false of a conditional expression: cut at the first
    question mark and the first colon after it. -/
def ternary? (cs : List Char) : Option (List Char × List Char × List Char) := do
  let question ← (topLevel ['?'] cs).head?
  let colon ← (topLevel [':'] cs).find? (question < ·)
  return (cs.take question, (cs.take colon).drop (question + 1), cs.drop (colon + 1))

/-- The cut at the first occurrence of a comparison operator, unless a character right before it
    makes it part of a longer operator. -/
def comparison? (cs : List Char) (op : CompareOp) : Option (CompareOp × List Char × List Char) := do
  let at_ ← (topLevel op.symbol cs).head?
  let left := cs.take at_
  if left.getLast?.any fun c => c = '=' || c = '!' || c = '<' || c = '>' then none
  else return (op, left, cs.drop (at_ + op.symbol.length))

def comparisons (cs : List Char) : List (CompareOp × List Char × List Char) :=
  CompareOp.all.filterMap (comparison? cs)

/-- Cut a text at ascending positions, leaving out the character at each of them.  `i` is the
    position of the front of the text. -/
def cutAt (i : Nat) (cs : List Char) : List Nat → List (List Char)
  | [] => [cs]
  | p :: ps => cs.take (p - i) :: cutAt (p + 1) (cs.drop (p + 1 - i)) ps

/-- The first operand of a sum and the others; a plus sign at the front is no sum. -/
def summands? (cs : List Char) : Option (List Char × List (List Char)) :=
  match topLevel ['+'] cs with
  | [] => none
  | p :: ps =>
    if p = 0 then none
    else match cutAt 0 cs (p :: ps) with
      | first :: rest => some (first, rest)
      | [] => none

/-- Whether no prefix of the text closes more parentheses than it opens, given `depth` open. -/
def neverCloses (depth : Nat) : List Char → Bool
  | [] => true
  | '(' :: rest => neverCloses (depth + 1) rest
  | ')' :: rest =>
    match depth with
    | 0 => false
    | depth + 1 => neverCloses depth rest
  | _ :: rest => neverCloses depth rest

/-- The text inside a pair of parentheses around the whole text; `(a) + (b)` has none.
    Parentheses inside strings are counted too. -/
def unwrap? : List Char → Option (List Char)
  | '(' :: rest =>
    if rest.getLast? = some ')' ∧ neverCloses 0 rest.dropLast then some rest.dropLast else none
  | _ => none

/-- Drop semicolons, and blanks before them, from the end of a text given in reverse. -/
def dropSemicolonsRev : List Char → List Char
  | ';' :: rest => dropSemicolonsRev (rest.dropWhile Text.isBlank)
  | cs => cs
termination_by cs => cs.length
decreasing_by
  have := (List.dropWhile_suffix Text.isBlank (l := rest)).length_le
  simp only [List.length_cons]
  omega

/-- A text without surrounding blanks and semicolons at the end. -/
def normalize (cs : List Char) : List Char :=
  (dropSemicolonsRev (Text.trim cs).reverse).reverse

def segments (cs : List Char) : List (List Char) :=
  go [] cs
where
  /-- `part` holds the current part, last character first. -/
  go (part : List Char) : List Char → List (List Char)
    | [] => [part.reverse]
    | '.' :: rest => part.reverse :: go [] rest
    | c :: rest => go (c :: part) rest

end ReactiveView.Expr
