/-!
# Splicing

Replacing parts of a text.  The last replacement is made first, so that the positions of the
others stay right.
-/

namespace ReactiveView.Script

/-- A text to stand in place of the characters from `start` to `stop`. -/
structure Replacement where
  start : Nat
  stop : Nat
  text : List Char
deriving DecidableEq, Repr, Inhabited

namespace Replacement

/-- A replacement with positions counted from `offset` on; none if it starts or ends before. -/
def shift? (offset : Nat) (r : Replacement) : Option Replacement :=
  if offset ≤ r.start ∧ offset ≤ r.stop then
    some { r with start := r.start - offset, stop := r.stop - offset }
  else none

def apply (r : Replacement) (code : List Char) : List Char :=
  if r.stop ≤ code.length ∧ r.start ≤ r.stop then
    code.take r.start ++ r.text ++ code.drop r.stop
  else code

end Replacement

/-- Make all replacements, whose positions are counted from `offset` characters before the
    text. -/
def splice (offset : Nat) (replacements : List Replacement) (code : List Char) : List Char :=
  ((replacements.mergeSort fun a b => b.start ≤ a.start).filterMap
    (Replacement.shift? offset)).foldl (fun code r => r.apply code) code

end ReactiveView.Script
