/-!
# Binary64 numbers in exact arithmetic

A finite binary64 number is a sign, a 53-bit significand and a power of two.  Every operation
computes the exact rational result in `Nat` and rounds once, to the nearest representable number
and to an even significand on a tie, so no statement about these numbers rests on machine
floating point.  `none` stands for a result past the largest finite number.
-/

namespace ReactiveView

/-- The finite number `(-1)^neg * mant * 2^exp`.  `Binary64.round` only builds numbers in lowest
    form: `mant < 2^53`, `-1074 ≤ exp ≤ 971`, and `2^52 ≤ mant` unless `exp = -1074`. -/
structure Binary64 where
  neg : Bool
  mant : Nat
  exp : Int
deriving DecidableEq, Repr

namespace Binary64

def powTwo (n : Nat) : Nat := Nat.pow 2 n

def powTen (n : Nat) : Nat := Nat.pow 10 n

def minExp : Int := -1074

def maxExp : Int := 971

/-- The quotient `num / den` rounded to the nearest integer, a tie to the even one. -/
def nearest (num den : Nat) : Nat :=
  let q := num / den
  let r := num % den
  if 2 * r < den then q
  else if den < 2 * r then q + 1
  else if q % 2 = 0 then q else q + 1

/-- The exponent of the leading bit of `num / den`: it lies in `[2^k, 2^(k+1))`. -/
def leadingExp (num den : Nat) : Int :=
  let k : Int := (num.log2 : Int) - (den.log2 : Int)
  let reached := if 0 ≤ k then den * powTwo k.toNat ≤ num else den ≤ num * powTwo (-k).toNat
  if reached then k else k - 1

def zero (neg : Bool) : Binary64 := ⟨neg, 0, minExp⟩

/-- The binary64 number nearest to `(-1)^neg * num / den`. -/
def round (neg : Bool) (num den : Nat) : Option Binary64 :=
  if num = 0 then some (zero neg) else
    let e := max minExp (leadingExp num den - 52)
    let m := if 0 ≤ e then nearest num (den * powTwo e.toNat)
      else nearest (num * powTwo (-e).toNat) den
    let (m, e) := if m = powTwo 53 then (powTwo 52, e + 1) else (m, e)
    if maxExp < e then none else some ⟨neg, m, e⟩

def ofScaled (neg : Bool) (m : Nat) (e : Int) : Option Binary64 :=
  if 0 ≤ e then round neg (m * powTwo e.toNat) 1 else round neg m (powTwo (-e).toNat)

def ofInt (i : Int) : Option Binary64 :=
  round (i < 0) i.natAbs 1

/-- The number nearest to `(-1)^neg * digits * 10^exp10`.  Outside the two bounds the result is
    decided without computing the power: `digits` has `k` digits, and `k + exp10` past 310 is
    past every finite number, below -330 it is below half the smallest one. -/
def ofDecimal (neg : Bool) (digits : Nat) (exp10 : Int) : Option Binary64 :=
  if digits = 0 then some (zero neg) else
    let k : Int := (Nat.toDigits 10 digits).length
    if 310 < k + exp10 then none
    else if k + exp10 < -330 then some (zero neg)
    else if 0 ≤ exp10 then round neg (digits * powTen exp10.toNat) 1
    else round neg digits (powTen (-exp10).toNat)

def negate (x : Binary64) : Binary64 := { x with neg := !x.neg }

def signedMant (x : Binary64) : Int := if x.neg then -(x.mant : Int) else x.mant

/-- The significand of `x`, signed, when `x` is written over the smaller power `2^e`. -/
def signedAt (x : Binary64) (e : Int) : Int := x.signedMant * powTwo (x.exp - e).toNat

/-- The rounded sum.  An exact zero is negative only if both summands are. -/
def add (x y : Binary64) : Option Binary64 :=
  let e := min x.exp y.exp
  let s := x.signedAt e + y.signedAt e
  if s = 0 then some (zero (x.neg && y.neg)) else ofScaled (s < 0) s.natAbs e

def mul (x y : Binary64) : Option Binary64 :=
  ofScaled (x.neg != y.neg) (x.mant * y.mant) (x.exp + y.exp)

def div (x y : Binary64) : Option Binary64 :=
  let e := x.exp - y.exp
  if 0 ≤ e then round (x.neg != y.neg) (x.mant * powTwo e.toNat) y.mant
  else round (x.neg != y.neg) x.mant (y.mant * powTwo (-e).toNat)

/-- Numeric order; the two zeros are equal. -/
def cmp (x y : Binary64) : Ordering :=
  let e := min x.exp y.exp
  compare (x.signedAt e) (y.signedAt e)

def same (x y : Binary64) : Bool := x.cmp y = .eq

def isZero (x : Binary64) : Bool := x.mant = 0

def toInt? (x : Binary64) : Option Int :=
  if 0 ≤ x.exp then some (x.signedMant * powTwo x.exp.toNat)
  else
    let d := powTwo (-x.exp).toNat
    if x.mant % d = 0 then some (if x.neg then -((x.mant / d : Nat) : Int) else (x.mant / d : Nat))
    else none

/-- The value as an integer, if it is one of magnitude below `bound`. -/
def toIntBelow? (x : Binary64) (bound : Nat) : Option Int :=
  x.toInt?.filter fun i => i.natAbs < bound

end Binary64

end ReactiveView
