import ReactiveView.Binding.FieldTable
import ReactiveView.Diagnostic.Fault
import ReactiveView.Text.Blank

/-!
# Call sites

A call site instantiates a child component and gives arguments for its fields.  Arguments are
first assigned to fields (`assign`), a named argument to its field and positional ones to the
fields that are not shared, in order.  Then every field of the child is bound (`bindField`):
two-way fields need a reference `$f` to a reactive field of the parent, other fields a value, and
shared fields are left to the provider search.
-/

namespace ReactiveView

def isReferenceStart (c : Char) : Bool := c.isAlpha || c = '_'

def isReferencePart (c : Char) : Bool := c.isAlphanum || c = '_'

/-- The field that `$f` or `this.$f` names. -/
def reference? (code : String) : Option String :=
  let code := Text.trim code.toList
  let code := if "this.".toList.isPrefixOf code then code.drop 5 else code
  match code with
  | '$' :: c :: rest =>
    if isReferenceStart c && rest.all isReferencePart then some (String.ofList (c :: rest))
    else none
  | _ => none

/-- What a call site sees of the component that it stands in. -/
structure CallSite where
  parent : String
  parentFields : FieldTable

namespace CallSite

/-- Assign arguments to fields of the child, the last argument first.  `slots` are the fields left
    for positional arguments, `done` the arguments assigned so far. -/
def assign (child : String) (table : FieldTable) (slots : List FieldRow)
    (done : List (String × Argument)) : List Argument → Except Fault (List (String × Argument))
  | [] => .ok done
  | a :: rest =>
    match a.name with
    | some name =>
      if (table.get? name).isNone then .error (.unknownField child name)
      else if (done.lookup name).isSome then .error (.boundTwice name child)
      else assign child table slots ((name, a) :: done) rest
    | none =>
      match slots with
      | [] => .error (.tooManyArguments child table.positional.length)
      | slot :: slots =>
        if (done.lookup slot.name).isSome then .error (.boundTwice slot.name child)
        else assign child table slots ((slot.name, a) :: done) rest

/-- Bind a field of the child to its argument, if it has one. -/
def bindField (site : CallSite) (child : String) (e : FieldRow) :
    Option Argument → Except Fault (Option BoundArgument)
  | none =>
    match e.binding with
    | .twoWay => .error (.noCounterpart e.name child)
    | .oneWay => if e.hasInitializer then .ok none else .error (.noArgument e.name child)
    | _ => .ok none
  | some a =>
    match e.binding with
    -- a shared field has its value by key, whatever is passed
    | .shared _ _ => .ok none
    | .twoWay =>
      match reference? a.value with
      | none => .error (.notReference e.name child a.value)
      | some f =>
        match (site.parentFields.get? f).filter (·.reactive) with
        | none => .error (.notReactive f site.parent)
        | some target => .ok (some {
            field := e.name
            binding := .twoWay
            value := .wrapper ("this." ++ backingName target.name) target.name })
    | binding =>
      if (reference? a.value).isSome then .error (.notValue e.name child)
      else .ok (some {
        field := e.name
        binding := binding
        value := .expression (Text.trimString a.value) })

def bindFields (site : CallSite) (child : String) (supplied : List (String × Argument)) :
    List FieldRow → Except Fault (List BoundArgument)
  | [] => .ok []
  | e :: rest => do
    let bound ← site.bindField child e (supplied.lookup e.name)
    return bound.toList ++ (← site.bindFields child supplied rest)

def bind (site : CallSite) (child : Component) (args : List Argument) :
    Except Fault (List BoundArgument) := do
  let table := child.fieldTable
  let supplied ← assign child.name table table.positional [] args
  site.bindFields child.name supplied table.entries

end CallSite

end ReactiveView
