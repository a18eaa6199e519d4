import ReactiveView.Expr.Literal
import ReactiveView.Expr.Scan
import ReactiveView.Text.Numeral

/-!
# Evaluating expression text

Arguments, initializers and conditions are short texts: literals, reads of `this.x`, names with
dotted paths, `+`, `!`, comparisons, `? :`, and array or object literals.  `evalStep` says what a
text means in terms of its parts; `eval?` closes the recursion.  The forms are tried in a fixed
order, and one that has no value for the text leaves the text to the next.
-/

namespace ReactiveView.Expr

/-- Where names are looked up: `this.x` in `field`, a bare name in `name`. -/
structure Scope where
  field : String → Option Json
  name : String → Option Json

def Scope.empty : Scope := ⟨fun _ => none, fun _ => none⟩

/-- The value of a part of a value: the length of an array or string, a member of an object. -/
def part? (v : Json) (segment : List Char) : Option Json :=
  let length := segment = "length".toList
  match v with
  | .arr items => if length then some (.ofNat items.length) else none
  | .str s => if length then some (.ofNat s.length) else none
  | .obj members => some ((members.lookup (String.ofList segment)).getD .null)
  | _ => none

def walkPath? (v : Json) : List (List Char) → Option Json
  | [] => some v
  | s :: rest => if isIdent s then (part? v s).bind (walkPath? · rest) else none

def path? (scope : Scope) (cs : List Char) : Option Json :=
  let root (look : String → Option Json) (name : List Char) (rest : List (List Char)) :=
    if isIdent name then (look (String.ofList name)).bind (walkPath? · rest) else none
  match segments cs with
  | [] => none
  | first :: rest =>
    if first = "this".toList then
      match rest with
      | [] => none
      | field :: rest => root scope.field field rest
    else root scope.name first rest

def word? (cs : List Char) : Option Json :=
  if cs = "true".toList then some (.bool true)
  else if cs = "false".toList then some (.bool false)
  else if cs = "null".toList ∨ cs = "undefined".toList then some .null
  else none

def ternaryValue? (eval : List Char → Option Json) (cs : List Char) : Option Json := do
  let (condition, yes, no) ← ternary? cs
  if (← eval condition).truthy then eval yes else eval no

/-- The value of the first comparison that applies.  An operand without a value ends the
    attempt. -/
def comparisonValue? (eval : List Char → Option Json) :
    List (CompareOp × List Char × List Char) → Option Json
  | [] => none
  | (op, left, right) :: rest => do
    let a ← eval left
    if right.head? = some '=' then comparisonValue? eval rest
    else return .bool (← op.holds? a (← eval right))

def addAll? (eval : List Char → Option Json) (acc : Json) : List (List Char) → Option Json
  | [] => some acc
  | part :: rest => do addAll? eval (← acc.plus? (← eval part)) rest

def sumValue? (eval : List Char → Option Json) (cs : List Char) : Option Json := do
  let (first, rest) ← summands? cs
  addAll? eval (← eval first) rest

def leafValue? (scope : Scope) (eval : List Char → Option Json) (cs : List Char) : Option Json :=
  match cs with
  | '!' :: operand =>
    if operand.head? = some '=' then path? scope cs
    else (eval operand).map fun v => .bool (!v.truthy)
  | '[' :: _ => containerLiteral? cs
  | '{' :: _ => containerLiteral? cs
  | _ => path? scope cs

/-- The value of a text in terms of the values of its parts. -/
def evalStep (scope : Scope) (eval : List Char → Option Json) (cs : List Char) : Option Json :=
  let code := normalize cs
  if code.isEmpty then none
  else match unwrap? code with
  | some inner => eval inner
  | none =>
    match stringLiteral? code with
    | some s => some (.str s)
    | none =>
      match Text.readNumeral code with
      | .finite x => some (.ofBinary64 x)
      | .nonfinite => none
      | .other =>
        (word? code).or <| (ternaryValue? eval code).or <|
          (comparisonValue? eval (comparisons code)).or <|
            (sumValue? eval code).or <| leafValue? scope eval code

/-- The value of a text, if it has one.  Every part that `evalStep` evaluates is shorter than
    the text, so the recursion ends. -/
def eval? (scope : Scope) (cs : List Char) : Option Json :=
  evalStep scope (fun part => if part.length < cs.length then eval? scope part else none) cs
termination_by cs.length

/-- The value of an expression; `null` if it has none. -/
def eval (scope : Scope) (code : String) : Json := (eval? scope code.toList).getD .null

end ReactiveView.Expr
