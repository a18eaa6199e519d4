import ReactiveView.Binary64.Basic

/-!
# The fewest digits that read back

`Binary64.shortest` finds the decimal with the fewest digits among those that round to a given
number; of two with as many digits it takes the nearer one, and the even one on a tie.  The
search is exact: for one digit, two digits and so on it looks at the two neighbours of the number
on that decimal grid and keeps those inside the rounding interval.
-/

namespace ReactiveView.Binary64

/-- The decimal `0.d₁d₂… * 10^point`; `digits` neither starts nor ends with a zero. -/
structure Decimal where
  digits : List Char
  point : Int
deriving DecidableEq, Repr

def digitCount (n : Nat) : Nat := (Nat.toDigits 10 n).length

/-- The `k` with `10^(k-1) ≤ num / den < 10^k`. -/
def decimalPoint (num den : Nat) : Int :=
  if den ≤ num then digitCount (num / den) else 1 - (digitCount ((den - 1) / num) : Int)

/-- The numbers that round to `mant * 2^exp`, in quarters of the distance to the next number:
    the value, the lower end and the upper end.  Below a power of two the numbers are twice as
    dense. -/
def quarters (x : Binary64) : Nat × Nat × Nat :=
  let lower := if x.mant = powTwo 52 ∧ minExp < x.exp then 1 else 2
  (4 * x.mant, 4 * x.mant - lower, 4 * x.mant + 2)

/-- The multiple `c` of `10^p` next to the number that reads back, if there is one. -/
def gridPoint? (x : Binary64) (p : Int) : Option Nat :=
  let (v, lo, hi) := quarters x
  let e := x.exp - 2
  let num := powTwo e.toNat * powTen (-p).toNat
  let den := powTwo (-e).toNat * powTen p.toNat
  let inside (c : Nat) : Bool :=
    if x.mant % 2 = 0 then lo * num ≤ c * den && c * den ≤ hi * num
    else lo * num < c * den && c * den < hi * num
  let c := v * num / den
  let below := v * num - c * den
  let above := (c + 1) * den - v * num
  match inside c, inside (c + 1) with
  | false, false => none
  | true, false => some c
  | false, true => some (c + 1)
  | true, true =>
    if below < above then some c else if above < below then some (c + 1)
    else if c % 2 = 0 then some c else some (c + 1)

def dropTrailingZeros (ds : List Char) : List Char :=
  (ds.reverse.dropWhile (· == '0')).reverse

/-- Try the grids of `n`, `n + 1`, … digits; seventeen are always enough. -/
def shortestFrom (x : Binary64) (point : Int) : Nat → Nat → Decimal
  | 0, _ => ⟨['0'], point⟩
  | fuel + 1, n =>
    match gridPoint? x (point - n) with
    | some c =>
      let ds := Nat.toDigits 10 c
      ⟨dropTrailingZeros ds, point - n + ds.length⟩
    | none => shortestFrom x point fuel (n + 1)

def shortest (x : Binary64) : Decimal :=
  shortestFrom x
    (if 0 ≤ x.exp then decimalPoint (x.mant * powTwo x.exp.toNat) 1
     else decimalPoint x.mant (powTwo (-x.exp).toNat))
    17 1

/-- Where a numeral is written without an exponent: for magnitudes from `10^plainFrom` up to,
    and not including, `10^plainBelow`. -/
structure Layout where
  plainFrom : Int
  plainBelow : Int

def zeros (n : Nat) : List Char := List.replicate n '0'

/-- Write a decimal.  The plain form has at least one digit on both sides of the point, the
    other form one digit before it and an exponent with its sign. -/
def Layout.write (layout : Layout) (d : Decimal) : List Char :=
  let n : Int := d.digits.length
  if layout.plainFrom < d.point ∧ d.point ≤ layout.plainBelow then
    if d.point ≤ 0 then '0' :: '.' :: zeros (-d.point).toNat ++ d.digits
    else if d.point < n then d.digits.take d.point.toNat ++ '.' :: d.digits.drop d.point.toNat
    else d.digits ++ zeros (d.point - n).toNat ++ ['.', '0']
  else
    let e := d.point - 1
    let lead := match d.digits with
      | c :: (r :: rs) => c :: '.' :: r :: rs
      | ds => ds
    lead ++ 'e' :: (if e < 0 then '-' else '+') :: Nat.toDigits 10 e.natAbs

/-- The text of a number: its sign, then its shortest decimal. -/
def text (layout : Layout) (x : Binary64) : String :=
  let body := if x.isZero then ['0', '.', '0'] else layout.write x.shortest
  String.ofList (if x.neg then '-' :: body else body)

end ReactiveView.Binary64
