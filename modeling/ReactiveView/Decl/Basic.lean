/-!
# Declarations

A module declares components.  A component has members (fields with an optional decorator, their
lowered form, methods) and a render body.  A render body is a list of statements: the declarative
forms that a component is written in (`element`, `choice`, `forEach`, `code`) and the linear forms
that lowering produces (`opening`, `closing`, `branch`, `items`).  Both may be mixed, since a
declaration that is already lowered, wholly or in part, is a declaration too.
-/

namespace ReactiveView

structure Location where
  line : UInt32 := 0
  column : UInt32 := 0
deriving DecidableEq, Repr, Inhabited

/-! ## Fields -/

/-- The decorator of a field.  The shared decorators may carry a key; without one the name of
    the field is the key. -/
inductive Decorator where
  | none
  | state
  | prop
  | link
  | provide (key : Option String)
  | consume (key : Option String)
deriving DecidableEq, Repr, Inhabited

def Decorator.label : Decorator → String
  | .none => "none"
  | .state => "@State"
  | .prop => "@Prop"
  | .link => "@Link"
  | .provide _ => "@Provide"
  | .consume _ => "@Consume"

inductive SharedRole where
  | provider
  | consumer
deriving DecidableEq, Repr, Inhabited

/-- How a field gets its value: it owns it, copies it from the parent, is tied to a field of the
    parent, or shares it under a key with an ancestor. -/
inductive BindingKind where
  | ownedSimple
  | oneWay
  | twoWay
  | shared (key : String) (role : SharedRole)
deriving DecidableEq, Repr, Inhabited

structure Field where
  name : String
  valueType : String := "any"
  decorator : Decorator := .none
  initializer : Option String := none
  location : Location := {}
deriving DecidableEq, Repr, Inhabited

structure Wrapper where
  name : String
  sourceField : String
  valueType : String
  binding : BindingKind
  initializer : Option String := none
  location : Location := {}
deriving DecidableEq, Repr, Inhabited

structure Accessors where
  name : String
  backing : String
  valueType : String
deriving DecidableEq, Repr, Inhabited

/-! ## Render bodies -/

structure Argument where
  name : Option String := none
  value : String
deriving DecidableEq, Repr, Inhabited

/-- A call chained to an element, such as `.width(10)`. -/
structure Attribute where
  method : String
  args : List String := []
deriving DecidableEq, Repr, Inhabited

/-- What a child's field is bound to: code evaluated in the parent, or a wrapper of the parent. -/
inductive BoundValue where
  | expression (code : String)
  | wrapper (code : String) (field : String)
deriving DecidableEq, Repr, Inhabited

/-- A field of a child component together with what it is bound to. -/
structure BoundArgument where
  field : String
  binding : BindingKind
  value : BoundValue
deriving DecidableEq, Repr, Inhabited

structure Element where
  name : String
  args : List Argument := []
  chain : List Attribute := []
  location : Location := {}
deriving DecidableEq, Repr, Inhabited

structure Loop where
  source : String
  itemVar : String
  indexVar : Option String := none
  keyGenerator : Option String := none
  location : Location := {}
deriving DecidableEq, Repr, Inhabited

inductive Role where
  | element
  | component (bindings : List BoundArgument)
  | conditional (site : UInt32)
  | arm (site : UInt32) (branchId : UInt32)
  | loop
deriving DecidableEq, Repr, Inhabited

def Role.branchId? : Role → Option UInt32
  | .arm _ branchId => some branchId
  | _ => none

/-- The start of a node in a linear body. -/
structure OpenMarker where
  component : String
  args : List String := []
  attributes : List Attribute := []
  role : Role
  location : Location := {}
deriving DecidableEq, Repr, Inhabited

/-- The end of a node in a linear body; an arm of a conditional also names its branch. -/
structure CloseMarker where
  component : String
  branchId : Option UInt32 := none
deriving DecidableEq, Repr, Inhabited

/-- An arm of a conditional.  Without a condition it is the default arm. -/
structure Arm (σ : Type) where
  condition : Option String := none
  body : List σ := []
deriving Repr, Inhabited

structure BranchArm (σ : Type) where
  condition : Option String := none
  branchId : UInt32
  body : List σ
deriving Repr, Inhabited

/-- A statement of a render or method body. -/
inductive Stmt where
  | element (head : Element) (children : List Stmt)
  | choice (arms : List (Arm Stmt)) (location : Location)
  | forEach (loop : Loop) (body : List Stmt)
  | code (text : String) (location : Location)
  | opening (marker : OpenMarker)
  | closing (marker : CloseMarker)
  | branch (site : UInt32) (arms : List (BranchArm Stmt)) (location : Location)
  | items (params : List String) (keyGenerator : Option String) (body : List Stmt)
deriving Repr, Inhabited

/-- Whether a statement builds part of the view; only ordinary code does not. -/
def Stmt.buildsView : Stmt → Bool
  | .code _ _ => false
  | _ => true

/-! ## Components -/

/-- A method.  Builders may build parts of the view, other methods hold ordinary code only. -/
structure Method where
  name : String
  params : List String := []
  isBuilder : Bool := false
  body : List Stmt := []
  location : Location := {}
deriving Repr, Inhabited

inductive Member where
  | field (field : Field)
  | wrapper (wrapper : Wrapper)
  | accessors (accessors : Accessors)
  | method (method : Method)
deriving Repr, Inhabited

def buildName : String := "build"

structure Render where
  name : String := buildName
  body : List Stmt := []
deriving Repr, Inhabited

structure Component where
  name : String
  isEntry : Bool := false
  members : List Member := []
  render : Render
  location : Location := {}
deriving Repr, Inhabited

namespace Component

def fields (c : Component) : List Field :=
  c.members.filterMap fun | .field f => some f | _ => none

def wrappers (c : Component) : List Wrapper :=
  c.members.filterMap fun | .wrapper w => some w | _ => none

def methods (c : Component) : List Method :=
  c.members.filterMap fun | .method m => some m | _ => none

def isLowered (c : Component) : Bool := c.fields.all (·.decorator = .none)

end Component

structure Module where
  filePath : String := ""
  components : List Component
deriving Repr, Inhabited

end ReactiveView
