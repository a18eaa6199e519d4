import ReactiveView.Binary64.Shortest

/-!
# JSON values

The values that fields hold, expressions evaluate to and declarations are encoded as.  Integers
and binary64 numbers are different numbers: `1` and `1.0` are not equal.  The members of an
object are kept sorted by key, each key once.
-/

namespace ReactiveView

/-- A JSON number: an integer of at most 64 bits, or a finite binary64 number. -/
inductive Number where
  | int (i : Int)
  | real (x : Binary64)
deriving DecidableEq, Repr

inductive Json where
  | null
  | bool (b : Bool)
  | num (n : Number)
  | str (s : String)
  | arr (items : List Json)
  | obj (members : List (String × Json))
deriving Repr, Inhabited

namespace Number

def toBinary64? : Number → Option Binary64
  | .int i => Binary64.ofInt i
  | .real x => some x

/-- Equality within one kind of number; the two binary64 zeros are equal. -/
def same : Number → Number → Bool
  | .int i, .int j => i == j
  | .real x, .real y => x.same y
  | _, _ => false

/-- Numbers are written without an exponent from `10^-5` up to `10^16`. -/
def layout : Binary64.Layout := ⟨-5, 16⟩

def text : Number → String
  | .int i => toString i
  | .real x => x.text layout

end Number

namespace Json

def ofNat (n : Nat) : Json := .num (.int n)

instance : Coe UInt32 Nat := ⟨UInt32.toNat⟩

def ofUInt32 (n : UInt32) : Json := .num (.int (n : Nat))

def ofOption {α : Type} (f : α → Json) : Option α → Json
  | none => .null
  | some a => f a

def ofStrings (ss : List String) : Json := .arr (ss.map .str)

mutual

/-- Equality of values: numbers by `Number.same`, everything else member by member. -/
def same : Json → Json → Bool
  | .null, .null => true
  | .bool a, .bool b => a == b
  | .num a, .num b => a.same b
  | .str a, .str b => a == b
  | .arr a, .arr b => sameItems a b
  | .obj a, .obj b => sameMembers a b
  | _, _ => false

def sameItems : List Json → List Json → Bool
  | [], [] => true
  | a :: as, b :: bs => same a b && sameItems as bs
  | _, _ => false

def sameMembers : List (String × Json) → List (String × Json) → Bool
  | [], [] => true
  | (k, a) :: as, (l, b) :: bs => k == l && same a b && sameMembers as bs
  | _, _ => false

end

/-- Put a member into a sorted list of members, in place of one with the same key. -/
def insertMember (key : String) (value : Json) : List (String × Json) → List (String × Json)
  | [] => [(key, value)]
  | (k, v) :: rest =>
    if key < k then (key, value) :: (k, v) :: rest
    else if key = k then (key, value) :: rest
    else (k, v) :: insertMember key value rest

/-- The members sorted by key; of two with the same key the later one stays. -/
def sortMembers (members : List (String × Json)) : List (String × Json) :=
  members.foldl (fun sorted (k, v) => insertMember k v sorted) []

def ofMembers (members : List (String × Json)) : Json := .obj (sortMembers members)

def member? (key : String) : Json → Option Json
  | .obj members => members.lookup key
  | _ => none

end Json

end ReactiveView
