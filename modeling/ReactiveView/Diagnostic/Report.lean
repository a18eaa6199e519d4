import ReactiveView.Decl.Basic

/-!
# Reports

A report is what the outside sees of a failure: the code of the rule that was broken, a message,
a position and hints.  The kind of failure and the guarantee behind it follow from the code.
-/

namespace ReactiveView

inductive Rule where
  | unresolvedBinding
  | bindingShape
  | unsupportedNesting
  | invalidField
  | malformedConditional
  | duplicateComponent
  | unbalancedTree
deriving DecidableEq, Repr

namespace Rule

def all : List Rule :=
  [.unresolvedBinding, .bindingShape, .unsupportedNesting, .invalidField, .malformedConditional,
   .duplicateComponent, .unbalancedTree]

def code : Rule → String
  | .unresolvedBinding => "ETS-ERR-BIND-001"
  | .bindingShape => "ETS-ERR-BIND-002"
  | .unsupportedNesting => "ETS-ERR-NEST-001"
  | .invalidField => "ETS-ERR-DECL-001"
  | .malformedConditional => "ETS-ERR-DECL-002"
  | .duplicateComponent => "ETS-ERR-DECL-003"
  | .unbalancedTree => "ETS-ERR-TREE-001"

def ofCode? (code : String) : Option Rule := all.find? (·.code = code)

def name : Rule → String
  | .unresolvedBinding => "UnresolvedBinding"
  | .bindingShape => "BindingShape"
  | .unsupportedNesting => "UnsupportedNesting"
  | .invalidField => "InvalidField"
  | .malformedConditional => "MalformedConditional"
  | .duplicateComponent => "DuplicateComponent"
  | .unbalancedTree => "UnbalancedTree"

def guarantee : Rule → String
  | .unresolvedBinding =>
    "Every linked or consumed field is connected to exactly one counterpart before construction."
  | .bindingShape =>
    "Call-site arguments agree with the decorator tag declared on the child field."
  | .unsupportedNesting =>
    "UI construction only appears where the view tree can be linearized."
  | .invalidField =>
    "Linked and consumed fields never carry local initializers; provided fields always do."
  | .malformedConditional => "A conditional has at most one default arm and it comes last."
  | .duplicateComponent => "Component names are unique within a module."
  | .unbalancedTree => "Every open marker has exactly one matching close marker."

end Rule

structure Report where
  code : String
  message : String
  file : String
  location : Location
  context : Option String := none
  hints : List String := []
deriving DecidableEq, Repr

namespace Report

def rule? (r : Report) : Option Rule := Rule.ofCode? r.code

def kind (r : Report) : String := (r.rule?.map Rule.name).getD "Other"

def errorType (r : Report) : String :=
  (r.rule?.map fun rule => rule.name ++ "Error").getD "COMPILER_INVARIANT_VIOLATION"

def guarantee (r : Report) : String := (r.rule?.map Rule.guarantee).getD "Unknown invariant."

def display (r : Report) : String :=
  s!"[{r.code}] {r.message} ({r.file}:{r.location.line}:{r.location.column})"

end Report

end ReactiveView
