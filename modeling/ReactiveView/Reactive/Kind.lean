import ReactiveView.Decl.Basic

/-!
# Kinds of cells

A cell holds the value of a field at run time.  Its kind follows from the binding of the field; a
cell of an undecorated field is plain and never notifies.
-/

namespace ReactiveView

inductive CellKind where
  | plain
  | ownedSimple
  | oneWay
  | twoWay
  | shared
deriving DecidableEq, Repr, Inhabited

namespace CellKind

/-- Whether a write to a cell of this kind is announced. -/
def notifies (kind : CellKind) : Bool := kind ≠ .plain

def all : List CellKind := [.plain, .ownedSimple, .oneWay, .twoWay, .shared]

def name : CellKind → String
  | .plain => "plain"
  | .ownedSimple => "owned-simple"
  | .oneWay => "one-way"
  | .twoWay => "two-way"
  | .shared => "shared"

def label : CellKind → String
  | .plain => "Plain"
  | .ownedSimple => "OwnedSimple"
  | .oneWay => "OneWay"
  | .twoWay => "TwoWay"
  | .shared => "Shared"

def ofName? (name : String) : Option CellKind := all.find? (·.name = name)

end CellKind

def BindingKind.cellKind : BindingKind → CellKind
  | .ownedSimple => .ownedSimple
  | .oneWay => .oneWay
  | .twoWay => .twoWay
  | .shared _ _ => .shared

end ReactiveView
