import ReactiveView.Binary64.Basic

/-!
# Numerals in expression text

A numeral is an optional sign, digits with an optional point (at least one digit on one side of
it) and an optional exponent.  It denotes the binary64 number nearest to it.  The words for
infinity and for "not a number" are numerals too; like numerals past the finite range they denote
no value.
-/

namespace ReactiveView.Text

inductive Numeral where
  | other
  /-- A numeral that denotes no finite number. -/
  | nonfinite
  | finite (x : Binary64)
deriving DecidableEq, Repr

def digitsValue (ds : List Char) : Nat :=
  ds.foldl (fun n d => n * 10 + (d.toNat - '0'.toNat)) 0

def spanDigits (cs : List Char) : List Char × List Char :=
  (cs.takeWhile Char.isDigit, cs.dropWhile Char.isDigit)

def spanSign : List Char → Bool × List Char
  | '-' :: rest => (true, rest)
  | '+' :: rest => (false, rest)
  | cs => (false, cs)

/-- The exponent after the digits: nothing at all, or `e` with a sign and at least one digit. -/
def exponent? : List Char → Option Int
  | [] => some 0
  | e :: rest =>
    if e == 'e' || e == 'E' then
      let (neg, rest) := spanSign rest
      let (ds, rest) := spanDigits rest
      if ds.isEmpty || !rest.isEmpty then none
      else some (if neg then -(digitsValue ds : Int) else digitsValue ds)
    else none

def nonfiniteWords : List String := ["inf", "infinity", "nan"]

def readNumeral (cs : List Char) : Numeral :=
  let (neg, body) := spanSign cs
  if nonfiniteWords.contains (String.ofList (body.map Char.toLower)) then .nonfinite
  else
    let (whole, rest) := spanDigits body
    let (part, rest) := match rest with
      | '.' :: rest => spanDigits rest
      | _ => ([], rest)
    if whole.isEmpty && part.isEmpty then .other
    else match exponent? rest with
      | none => .other
      | some e =>
        match Binary64.ofDecimal neg (digitsValue (whole ++ part)) (e - part.length) with
        | none => .nonfinite
        | some x => .finite x

end ReactiveView.Text
