/-!
# Blank characters

Which characters count as blank, and how text is trimmed and cut into lines.  Every place that
trims (expression text, call-site arguments, printed lines) uses the one class `isBlank`, the
twenty-five code points with the Unicode property `White_Space`.
-/

namespace ReactiveView.Text

/-- Ranges of code points, ends included, that have the property `White_Space`. -/
def blankRanges : List (Nat × Nat) :=
  [(0x09, 0x0D), (0x20, 0x20), (0x85, 0x85), (0xA0, 0xA0), (0x1680, 0x1680), (0x2000, 0x200A),
   (0x2028, 0x2029), (0x202F, 0x202F), (0x205F, 0x205F), (0x3000, 0x3000)]

def isBlank (c : Char) : Bool :=
  blankRanges.any fun (lo, hi) => lo ≤ c.toNat && c.toNat ≤ hi

def trimStart (cs : List Char) : List Char :=
  cs.dropWhile isBlank

def trimEnd (cs : List Char) : List Char :=
  (cs.reverse.dropWhile isBlank).reverse

def trim (cs : List Char) : List Char :=
  trimEnd (trimStart cs)

def trimString (s : String) : String :=
  String.ofList (trim s.toList)

/-- Cut at every line feed.  The piece after the last line feed is a line only if it is not
    empty; a carriage return right before a line feed belongs to the line end. -/
def lines (cs : List Char) : List (List Char) :=
  go [] cs
where
  /-- `line` holds the current line, last character first. -/
  go (line : List Char) : List Char → List (List Char)
    | [] => if line.isEmpty then [] else [line.reverse]
    | '\n' :: rest =>
      let line := match line with
        | '\r' :: before => before
        | _ => line
      line.reverse :: go [] rest
    | c :: rest => go (c :: line) rest

end ReactiveView.Text
