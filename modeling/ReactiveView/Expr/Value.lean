import ReactiveView.Json.Writer

/-!
# Operations on values

What the operators of expression text do to values: truth, the text of a value inside a
concatenation, sums, and comparisons.
-/

namespace ReactiveView

/-- Integral numbers of smaller magnitude are integers. -/
def integerBound : Nat := 9000000000000000

/-- The value of a binary64 number: an integer where it is integral and small enough. -/
def Json.ofBinary64 (x : Binary64) : Json :=
  match x.toIntBelow? integerBound with
  | some i => .num (.int i)
  | none => .num (.real x)

/-- The binary64 number that a value stands for; only numbers stand for one. -/
def Json.toBinary64? : Json → Option Binary64
  | .num n => n.toBinary64?
  | _ => none

def Json.truthy : Json → Bool
  | .null => false
  | .bool b => b
  | .num (.int i) => i != 0
  | .num (.real x) => !x.isZero
  | .str s => !s.isEmpty
  | .arr _ => true
  | .obj _ => true

/-- The text of a value inside a concatenation.  A string stands for itself, an integral number
    of magnitude below `10^15` is written without a point. -/
def Json.display : Json → String
  | .str s => s
  | .num (.real x) =>
    match x.toIntBelow? 1000000000000000 with
    | some i => toString i
    | none => (Number.real x).text
  | v => v.compact

/-- The sum of two numbers, or the concatenation of two texts.  A sum past the finite range is
    no value. -/
def Json.plus? (a b : Json) : Option Json :=
  match a.toBinary64?, b.toBinary64? with
  | some x, some y => (x.add y).map Json.ofBinary64
  | _, _ => some (.str (a.display ++ b.display))

namespace Expr

inductive CompareOp where
  | eqStrict | neStrict | eq | ne | ge | le | gt | lt
deriving DecidableEq, Repr

namespace CompareOp

def all : List CompareOp := [.eqStrict, .neStrict, .eq, .ne, .ge, .le, .gt, .lt]

def symbol : CompareOp → List Char
  | .eqStrict => ['=', '=', '=']
  | .neStrict => ['!', '=', '=']
  | .eq => ['=', '=']
  | .ne => ['!', '=']
  | .ge => ['>', '=']
  | .le => ['<', '=']
  | .gt => ['>']
  | .lt => ['<']

/-- The result of a comparison.  Any two values are equal or not; only numbers are ordered. -/
def holds? (op : CompareOp) (a b : Json) : Option Bool :=
  let ordered (test : Ordering → Bool) : Option Bool := do
    return test ((← a.toBinary64?).cmp (← b.toBinary64?))
  match op with
  | .eqStrict => some (a.same b)
  | .eq => some (a.same b)
  | .neStrict => some (!a.same b)
  | .ne => some (!a.same b)
  | .ge => ordered Ordering.isGE
  | .le => ordered Ordering.isLE
  | .gt => ordered Ordering.isGT
  | .lt => ordered Ordering.isLT

end CompareOp

end Expr

end ReactiveView
