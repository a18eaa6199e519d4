/-!
# Sets of code points

A set of code points is given by its runs: how many code points are left out at the start, how many
are in the set then, how many are left out after them, and so on.  Tables write a run in base 26, with
letters for digits: a small letter for the last digit, capital letters for those before it.
-/

namespace ReactiveView.Text

/-- The runs that a text denotes; `run` is what has been read of the first one. -/
def readRuns (run : Nat) : List Char → List Nat
  | [] => []
  | c :: rest =>
    if c.isLower then (26 * run + (c.toNat - 'a'.toNat)) :: readRuns 0 rest
    else readRuns (26 * run + (c.toNat - 'A'.toNat)) rest

def inRuns : List Nat → Nat → Bool
  | gap :: run :: rest, n =>
    if n < gap then false
    else if n < gap + run then true
    else inRuns rest (n - (gap + run))
  | _, _ => false

end ReactiveView.Text
