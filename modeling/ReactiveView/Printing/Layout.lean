import ReactiveView.Text.Blank

/-!
# Layout of printed code

Printed code is a list of pieces: lines, and lines that start, end or turn an indented block.  The
indentation of a line is the number of blocks around it.
-/

namespace ReactiveView.Printing

/-- A piece of printed code.  Its text may have several lines. -/
inductive Piece where
  | line (text : String)
  | enter (text : String)
  | leave (text : String)
  | turn (text : String)
  | blank
deriving DecidableEq, Repr, Inhabited

def indent : List Char := [' ', ' ']

/-- A line at a depth.  Blanks at its end are dropped. -/
def indented (depth : Nat) (line : List Char) : List Char :=
  if (Text.trim line).isEmpty then ['\n']
  else (List.replicate depth indent).flatten ++ Text.trimEnd line ++ ['\n']

def block (depth : Nat) (text : String) : List Char :=
  (Text.lines text.toList).flatMap (indented depth)

/-- Write pieces from a depth on; also the depth after them. -/
def write (depth : Nat) : List Piece → List Char × Nat
  | [] => ([], depth)
  | .line text :: rest =>
    let (out, last) := write depth rest
    (block depth text ++ out, last)
  | .enter text :: rest =>
    let (out, last) := write (depth + 1) rest
    (block depth text ++ out, last)
  | .leave text :: rest =>
    let (out, last) := write (depth - 1) rest
    (block (depth - 1) text ++ out, last)
  | .turn text :: rest =>
    let (out, last) := write (depth - 1 + 1) rest
    (block (depth - 1) text ++ out, last)
  | .blank :: rest =>
    let (out, last) := write depth rest
    ('\n' :: out, last)

def render (pieces : List Piece) : String := String.ofList (write 0 pieces).1

end ReactiveView.Printing
