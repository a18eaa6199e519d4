import ReactiveView.Binding.FieldTable
import ReactiveView.Diagnostic.Fault

/-!
# Lowering of fields

A decorated field `f` becomes the private wrapper `f__` and a pair of accessors named `f`.  All
other members stay as they are, so lowering twice changes nothing.  Before that, initializers are
checked: linked and consumed fields must not have one, provided fields must, and no two provided
fields may have the same key.
-/

namespace ReactiveView

def Field.fault? (component : String) (provided : List String) (f : Field) : Option Fault :=
  match f.decorator, f.initializer with
  | .link, some _ => some (.localInitializer f.decorator.label f.name)
  | .consume _, some _ => some (.localInitializer f.decorator.label f.name)
  | .provide _, none => some (.missingInitializer f.name)
  | .provide key, some _ =>
    let key := key.getD f.name
    if provided.contains key then some (.repeatedKey key component) else none
  | _, _ => none

def checkFields (file component : String) (provided : List String) :
    List Field → Except Diagnostic Unit
  | [] => .ok ()
  | f :: rest =>
    match f.fault? component provided with
    | some fault => .error ⟨fault, file, component, f.location⟩
    | none => checkFields file component (provided ++ (f.binding.key? .provider).toList) rest

def Component.checkFields (file : String) (c : Component) : Except Diagnostic Unit :=
  ReactiveView.checkFields file c.name [] c.fields

def Field.wrapper (f : Field) : Wrapper where
  name := backingName f.name
  sourceField := f.name
  valueType := f.valueType
  binding := f.binding
  initializer := f.initializer
  location := f.location

def Field.accessors (f : Field) : Accessors where
  name := f.name
  backing := backingName f.name
  valueType := f.valueType

def Member.lower : Member → List Member
  | .field f =>
    if f.decorator = .none then [.field f] else [.wrapper f.wrapper, .accessors f.accessors]
  | m => [m]

/-- The members of a component after its fields are lowered, the keys that it provides, and the
    names of its reactive fields. -/
structure FieldLowering where
  members : List Member
  provided : List String
  wrapped : List String

def Member.wrapper? : Member → Option Wrapper
  | .wrapper w => some w
  | _ => none

def Component.lowerFields (file : String) (c : Component) : Except Diagnostic FieldLowering := do
  c.checkFields file
  let members := c.members.flatMap Member.lower
  let wrappers := members.filterMap Member.wrapper?
  return {
    members := members
    provided := wrappers.filterMap (·.binding.key? .provider)
    wrapped := wrappers.map (·.sourceField) }

def initialRenderName : String := "initialRender"

def renderName : String := "render"

def loweredRenderName (current : String) (partialUpdate : Bool) : String :=
  if current ≠ buildName then current
  else if partialUpdate then initialRenderName else renderName

end ReactiveView
