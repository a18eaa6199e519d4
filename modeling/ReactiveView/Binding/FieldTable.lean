import ReactiveView.Decl.Basic

/-!
# Field tables

The fields of a component as callers and the provider search see them.  A decorated field and the
wrapper it is lowered to have the same entry, so a table does not tell whether its component is
lowered.
-/

namespace ReactiveView

/-- The name of the private field behind a decorated field. -/
def backingName (field : String) : String := field ++ "__"

def Field.binding (f : Field) : BindingKind :=
  match f.decorator with
  | .none => .ownedSimple
  | .state => .ownedSimple
  | .prop => .oneWay
  | .link => .twoWay
  | .provide key => .shared (key.getD f.name) .provider
  | .consume key => .shared (key.getD f.name) .consumer

def BindingKind.isShared : BindingKind → Bool
  | .shared _ _ => true
  | _ => false

/-- The key of a binding with the given end of a shared value. -/
def BindingKind.key? (role : SharedRole) : BindingKind → Option String
  | .shared key r => if r = role then some key else none
  | _ => none

structure FieldRow where
  name : String
  binding : BindingKind
  /-- False for undecorated fields. -/
  reactive : Bool
  hasInitializer : Bool
  location : Location
deriving DecidableEq, Repr, Inhabited

def Member.entry? : Member → Option FieldRow
  | .field f => some {
      name := f.name
      binding := f.binding
      reactive := f.decorator ≠ .none
      hasInitializer := f.initializer.isSome
      location := f.location }
  | .wrapper w => some {
      name := w.sourceField
      binding := w.binding
      reactive := true
      hasInitializer := w.initializer.isSome
      location := w.location }
  | _ => none

/-- The fields of a component in the order of declaration. -/
structure FieldTable where
  entries : List FieldRow
deriving DecidableEq, Repr, Inhabited

def Component.fieldTable (c : Component) : FieldTable := ⟨c.members.filterMap Member.entry?⟩

namespace FieldTable

def get? (t : FieldTable) (name : String) : Option FieldRow :=
  t.entries.find? (·.name = name)

/-- The names of the decorated fields, with repetitions. -/
def reactiveNames (t : FieldTable) : List String :=
  (t.entries.filter (·.reactive)).map (·.name)

def providedKeys (t : FieldTable) : List String :=
  t.entries.filterMap (·.binding.key? .provider)

def consumers (t : FieldTable) : List (String × FieldRow) :=
  t.entries.filterMap fun e => (e.binding.key? .consumer).map (·, e)

def positional (t : FieldTable) : List FieldRow := t.entries.filter (!·.binding.isShared)

end FieldTable

end ReactiveView
