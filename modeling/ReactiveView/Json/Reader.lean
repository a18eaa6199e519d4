import ReactiveView.Json.Basic

/-!
# Reading JSON text

`Json.Doc` is what a well-formed text says, member by member and in the order of the text, with
repeated keys kept.  Some well-formed pieces denote no value: a number past the finite range, a
string with half of a surrogate pair, a container inside 127 others.  They are `Doc.beyond`, so
that a reader which skips a piece need not mind what it holds.  `Doc.toJson?` is the value of a
document, if every piece has one.

Numbers follow their own rounding rule (`decimalToBinary64?`): digits are collected in a 64-bit
word while they fit, and one multiplication or division by a power of ten scales the word.
-/

namespace ReactiveView.Json

inductive Doc where
  /-- Well formed, but without a value. -/
  | beyond
  | null
  | bool (b : Bool)
  | num (n : Number)
  | str (s : String)
  | arr (items : List Doc)
  /-- The members in the order of the text; a key is `none` if it is no sequence of characters. -/
  | obj (members : List (Option String × Doc))
deriving Repr, Inhabited

/-! ## Characters -/

def isSpace (c : Char) : Bool := c = ' ' || c = '\t' || c = '\n' || c = '\r'

def skipSpace (cs : List Char) : List Char := cs.dropWhile isSpace

def hexValue? (c : Char) : Option Nat :=
  if '0' ≤ c ∧ c ≤ '9' then some (c.toNat - '0'.toNat)
  else if 'a' ≤ c ∧ c ≤ 'f' then some (c.toNat - 'a'.toNat + 10)
  else if 'A' ≤ c ∧ c ≤ 'F' then some (c.toNat - 'A'.toNat + 10)
  else none

def hex4? (a b c d : Char) : Option Nat := do
  return (((← hexValue? a) * 16 + (← hexValue? b)) * 16 + (← hexValue? c)) * 16 + (← hexValue? d)

/-! ## Strings -/

/-- One unit of a string: a character, or half of a surrogate pair. -/
inductive StringUnit where
  | char (c : Char)
  | high (n : Nat)
  | low (n : Nat)

def StringUnit.ofCode (n : Nat) : StringUnit :=
  if 0xD800 ≤ n ∧ n < 0xDC00 then .high n
  else if 0xDC00 ≤ n ∧ n < 0xE000 then .low n
  else .char (Char.ofNat n)

def escape? : Char → Option Char
  | '"' => some '"'
  | '\\' => some '\\'
  | '/' => some '/'
  | 'b' => some (Char.ofNat 8)
  | 'f' => some (Char.ofNat 12)
  | 'n' => some '\n'
  | 'r' => some '\r'
  | 't' => some '\t'
  | _ => none

/-- The units of a string after its opening quote, and the text after its closing quote. -/
def stringUnits? : List Char → Option (List StringUnit × List Char)
  | [] => none
  | '"' :: rest => some ([], rest)
  | '\\' :: 'u' :: a :: b :: c :: d :: rest => do
    let n ← hex4? a b c d
    let (us, rest) ← stringUnits? rest
    return (.ofCode n :: us, rest)
  | '\\' :: e :: rest => do
    let c ← escape? e
    let (us, rest) ← stringUnits? rest
    return (.char c :: us, rest)
  | c :: rest =>
    if c = '\\' || c.toNat < 32 then none
    else do
      let (us, rest) ← stringUnits? rest
      return (.char c :: us, rest)

/-- The characters of a string, if every half of a surrogate pair meets the other half. -/
def joinUnits? : List StringUnit → Option (List Char)
  | [] => some []
  | .char c :: rest => (joinUnits? rest).map (c :: ·)
  | .high h :: .low l :: rest =>
    (joinUnits? rest).map (Char.ofNat (0x10000 + (h - 0xD800) * 0x400 + (l - 0xDC00)) :: ·)
  | _ => none

/-- A string after its opening quote: its characters, if it has any reading, and the rest. -/
def string? (cs : List Char) : Option (Option String × List Char) := do
  let (us, rest) ← stringUnits? cs
  return ((joinUnits? us).map String.ofList, rest)

/-! ## Numbers -/

def maxWord : Nat := 18446744073709551615

/-- Append digits to a word while the result fits.  The count is the number of digits that did
    not fit any more. -/
def collect (word : Nat) : List Char → Nat × Nat
  | [] => (word, 0)
  | d :: ds =>
    let next := word * 10 + (d.toNat - '0'.toNat)
    if next ≤ maxWord then collect next ds else (word, ds.length + 1)

/-- Divide by `10^308` while the exponent is out of reach of one power of ten. -/
def scaleDown (x : Binary64) : Nat → Int → Option Binary64
  | 0, _ => some x
  | fuel + 1, e =>
    if -308 ≤ e then do x.div (← Binary64.ofDecimal false 1 (-e))
    else if x.isZero then some x
    else do scaleDown (← x.div (← Binary64.ofDecimal false 1 308)) fuel (e + 308)

/-- A word scaled by a power of ten: one rounding for the word, one for each power. -/
def decimalToBinary64? (word : Nat) (e : Int) : Option Binary64 := do
  let x ← Binary64.ofInt word
  if x.isZero then return x
  else if 308 < e then none
  else if 0 ≤ e then x.mul (← Binary64.ofDecimal false 1 e)
  else scaleDown x (e.natAbs / 308 + 1) e

structure NumberText where
  neg : Bool
  whole : List Char
  fraction : Option (List Char)
  exponent : Option (Bool × List Char)

def exponentValue : Option (Bool × List Char) → Int
  | none => 0
  | some (neg, ds) =>
    let n : Int := ds.foldl (fun n d => n * 10 + (d.toNat - '0'.toNat)) 0
    if neg then -n else n

/-- The number that a text denotes: an integer if it is written without fraction and exponent
    and fits, a binary64 number otherwise. -/
def NumberText.number? (t : NumberText) : Option Number :=
  let (word, dropped) := collect 0 t.whole
  let sign (x : Binary64) : Number := .real (if t.neg then x.negate else x)
  if dropped = 0 ∧ t.fraction.isNone ∧ t.exponent.isNone then
    if !t.neg then some (.int word)
    else if 0 < word ∧ word ≤ 9223372036854775808 then some (.int (-(word : Int)))
    else (Binary64.ofInt word).map sign
  else
    let (word, e) := match t.fraction with
      | none => (word, (dropped : Int))
      | some ds =>
        let (word', left) := collect word ds
        (word', (dropped : Int) - ((ds.length - left : Nat) : Int))
    (decimalToBinary64? word (e + exponentValue t.exponent)).map sign

def digits (cs : List Char) : List Char × List Char :=
  (cs.takeWhile Char.isDigit, cs.dropWhile Char.isDigit)

/-- A number: no leading zeros, at least one digit after a point and after an `e`. -/
def numberText? (cs : List Char) : Option (NumberText × List Char) :=
  let (neg, cs) := match cs with
    | '-' :: rest => (true, rest)
    | _ => (false, cs)
  let (whole, cs) := digits cs
  if whole.isEmpty || (whole.head? == some '0' && whole.length != 1) then none else
  let fraction : Option (Option (List Char) × List Char) := match cs with
    | '.' :: rest =>
      let (ds, rest) := digits rest
      if ds.isEmpty then none else some (some ds, rest)
    | _ => some (none, cs)
  match fraction with
  | none => none
  | some (fraction, cs) =>
    match cs with
    | e :: rest =>
      if e = 'e' || e = 'E' then
        let (eneg, rest) := match rest with
          | '-' :: rest => (true, rest)
          | '+' :: rest => (false, rest)
          | _ => (false, rest)
        let (ds, rest) := digits rest
        if ds.isEmpty then none else some (⟨neg, whole, fraction, some (eneg, ds)⟩, rest)
      else some (⟨neg, whole, fraction, none⟩, cs)
    | [] => some (⟨neg, whole, fraction, none⟩, [])

/-! ## Documents -/

def nestingLimit : Nat := 127

def after? (word : String) (cs : List Char) : Option (List Char) :=
  if word.toList.isPrefixOf cs then some (cs.drop word.length) else none

mutual

/-- A document at the front of the text, inside `depth` containers. -/
def doc? (depth : Nat) : Nat → List Char → Option (Doc × List Char)
  | 0, _ => none
  | fuel + 1, cs =>
    match skipSpace cs with
    | [] => none
    | c :: rest =>
      match c with
      | '"' => (string? rest).map fun (s, rest) => ((s.map Doc.str).getD .beyond, rest)
      | '[' => do
        let (items, rest) ← match skipSpace rest with
          | ']' :: rest => some ([], rest)
          | _ => items? (depth + 1) fuel rest
        return (if nestingLimit ≤ depth then .beyond else .arr items, rest)
      | '{' => do
        let (members, rest) ← match skipSpace rest with
          | '}' :: rest => some ([], rest)
          | _ => members? (depth + 1) fuel rest
        return (if nestingLimit ≤ depth then .beyond else .obj members, rest)
      | 't' => (after? "true" (c :: rest)).map (Doc.bool true, ·)
      | 'f' => (after? "false" (c :: rest)).map (Doc.bool false, ·)
      | 'n' => (after? "null" (c :: rest)).map (Doc.null, ·)
      | _ => (numberText? (c :: rest)).map fun (t, rest) =>
          ((t.number?.map Doc.num).getD .beyond, rest)

def items? (depth : Nat) : Nat → List Char → Option (List Doc × List Char)
  | 0, _ => none
  | fuel + 1, cs => do
    let (item, rest) ← doc? depth fuel cs
    match skipSpace rest with
    | ']' :: rest => return ([item], rest)
    | ',' :: rest =>
      let (items, rest) ← items? depth fuel rest
      return (item :: items, rest)
    | _ => none

def members? (depth : Nat) : Nat → List Char → Option (List (Option String × Doc) × List Char)
  | 0, _ => none
  | fuel + 1, cs =>
    match skipSpace cs with
    | '"' :: rest => do
      let (key, rest) ← string? rest
      match skipSpace rest with
      | ':' :: rest =>
        let (value, rest) ← doc? depth fuel rest
        match skipSpace rest with
        | '}' :: rest => return ([(key, value)], rest)
        | ',' :: rest =>
          let (members, rest) ← members? depth fuel rest
          return ((key, value) :: members, rest)
        | _ => none
      | _ => none
    | _ => none

end

namespace Doc

/-- Read a whole text.  Every nested reading consumes a character, so twice the length of the
    text bounds the depth of the recursion. -/
def read? (cs : List Char) : Option Doc :=
  match doc? 0 (2 * cs.length + 2) cs with
  | some (d, rest) => if (skipSpace rest).isEmpty then some d else none
  | none => none

mutual

/-- The value of a document, if each of its pieces has one. -/
def toJson? : Doc → Option Json
  | .beyond => none
  | .null => some .null
  | .bool b => some (.bool b)
  | .num n => some (.num n)
  | .str s => some (.str s)
  | .arr items => (itemsToJson? items).map .arr
  | .obj members => (membersToJson? members).map .ofMembers

def itemsToJson? : List Doc → Option (List Json)
  | [] => some []
  | d :: ds => do return (← d.toJson?) :: (← itemsToJson? ds)

def membersToJson? : List (Option String × Doc) → Option (List (String × Json))
  | [] => some []
  | (k, d) :: ds => do return (← k, ← d.toJson?) :: (← membersToJson? ds)

end

end Doc

mutual

def toDoc : Json → Doc
  | .null => .null
  | .bool b => .bool b
  | .num n => .num n
  | .str s => .str s
  | .arr items => .arr (itemsToDoc items)
  | .obj members => .obj (membersToDoc members)

def itemsToDoc : List Json → List Doc
  | [] => []
  | v :: vs => v.toDoc :: itemsToDoc vs

def membersToDoc : List (String × Json) → List (Option String × Doc)
  | [] => []
  | (k, v) :: vs => (some k, v.toDoc) :: membersToDoc vs

end

def read? (cs : List Char) : Option Json := (Doc.read? cs).bind Doc.toJson?

end ReactiveView.Json
