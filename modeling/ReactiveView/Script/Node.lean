/-!
# Trees of script code

The shape of parsed code, as far as it matters here: which names are called, which members of
`this` are read, and what may stand on the left of an assignment.  Everything else is a node of
kind `other` around its parts, in source order.
-/

namespace ReactiveView.Script

inductive NodeKind where
  | ident (name : String)
  | this
  /-- A member by name; the name stands at positions `start` to `stop`.  One part: the object. -/
  | member (name : String) (start stop : Nat)
  /-- A member by a computed or private name. -/
  | index
  /-- A call; the parts are the callee and the arguments. -/
  | call
  | paren
  /-- An expression with an optional link in it. -/
  | chain
  /-- An expression with a type attached to it. -/
  | typed
  /-- A function with type arguments, before it is called. -/
  | instantiated
  | logical
  /-- An operator other than assignment that takes an operand on its right only. -/
  | unary
  /-- An assignment with `=`; the parts are the target and the value. -/
  | assign
  /-- An array; `trailing` if a comma comes after the last element. -/
  | array (trailing : Bool)
  | hole
  | spread
  | object
  | shorthand
  /-- A property that is a name with a default, which only patterns may have. -/
  | shorthandDefault
  /-- A property with a value; the value is the last part. -/
  | property
  | objectMethod
  | pattern
  | other
deriving DecidableEq, Repr, Inhabited

inductive Node where
  | mk (kind : NodeKind) (parts : List Node)
deriving Repr, Inhabited

namespace Node

def kind : Node → NodeKind
  | .mk kind _ => kind

/-- A node without parts and without interest. -/
def leaf : Node := .mk .other []

def group (parts : List Node) : Node := .mk .other parts

def isIdent (n : Node) : Bool := match n.kind with
  | .ident _ => true
  | _ => false

def isCollection (n : Node) : Bool := match n.kind with
  | .array _ => true
  | .object => true
  | _ => false

/-! ## Targets of assignments -/

def isSimpleTarget : Node → Bool
  | .mk (.ident _) _ => true
  | .mk (.member _ _ _) _ => true
  | .mk .index _ => true
  | .mk .paren [e] => isSimpleTarget e
  | .mk .typed (e :: _) => isSimpleTarget e
  | _ => false

mutual

/-- An expression as the target of an assignment: a simple target, or an array or object whose
    elements are targets, possibly with defaults. -/
def toTarget? : Node → Option Node
  | .mk (.array trailing) parts => (elementTargets? trailing parts).map (.mk .pattern)
  | .mk .object parts => (propertyTargets? parts).map (.mk .pattern)
  | n => if n.isSimpleTarget then some n else none

/-- The elements of an array as targets; a rest element comes last and without a comma. -/
def elementTargets? (trailing : Bool) : List Node → Option (List Node)
  | [] => some []
  | .mk .hole _ :: rest => elementTargets? trailing rest
  | .mk .spread [e] :: rest =>
    if rest.isEmpty && !trailing then do return [← toTarget? e] else none
  | .mk .assign parts :: rest => do return .mk .pattern parts :: (← elementTargets? trailing rest)
  | e :: rest => do return (← toTarget? e) :: (← elementTargets? trailing rest)

def propertyTargets? : List Node → Option (List Node)
  | [] => some []
  | .mk .shorthand parts :: rest => do return .mk .pattern parts :: (← propertyTargets? rest)
  | .mk .shorthandDefault parts :: rest => do
    return .mk .pattern parts :: (← propertyTargets? rest)
  | .mk .property parts :: rest => do
    return .mk .pattern (← valueTarget? parts) :: (← propertyTargets? rest)
  | .mk .spread [e] :: rest =>
    if rest.isEmpty && e.isSimpleTarget then some [e] else none
  | _ => none

/-- The parts of a property with its value, the last of them, as a target. -/
def valueTarget? : List Node → Option (List Node)
  | [] => some []
  | [.mk .assign parts] => some [.mk .pattern parts]
  | [e] => do return [← toTarget? e]
  | key :: rest => do return key :: (← valueTarget? rest)

end

mutual

/-- Whether no object that is not a pattern has a property with a default. -/
def isComplete : Node → Bool
  | .mk .shorthandDefault _ => false
  | .mk _ parts => areComplete parts

def areComplete : List Node → Bool
  | [] => true
  | n :: rest => n.isComplete && areComplete rest

end

end Node

/-- How script code is read: one expression at the start of a text, and statements. -/
structure Parser where
  expression? : List Char → Option Node
  statements? : List Char → Option Node

end ReactiveView.Script
