import ReactiveView.Diagnostic.Report

/-!
# Faults

A fault is the cause of a failure with the names that take part in it.  Each fault breaks one
rule (`Fault.rule`) and has one wording (`Fault.message`).  A `Diagnostic` is a fault with the
place where it was found.
-/

namespace ReactiveView

/-- Why a linear body is not bracketed. -/
inductive BalanceFault where
  | neverClosed (name : String)
  | elementLeft (name : String)
  | mismatch (closed opened : String)
  | nothingOpen (name : String)
deriving DecidableEq, Repr

def BalanceFault.message : BalanceFault → String
  | .neverClosed name => s!"'{name}' is opened but never closed"
  | .elementLeft name => s!"declarative element '{name}' left in lowered body"
  | .mismatch closed opened => s!"close of '{closed}' does not match open '{opened}'"
  | .nothingOpen name => s!"close of '{name}' without an open marker"

/-- The cause of a failure. -/
inductive Fault where
  | localInitializer (label field : String)
  | missingInitializer (field : String)
  | repeatedKey (key component : String)
  | unknownField (child field : String)
  | tooManyArguments (child : String) (limit : Nat)
  | boundTwice (field child : String)
  | noCounterpart (field child : String)
  | notReference (field child given : String)
  | notReactive (field parent : String)
  | notValue (field child : String)
  | noArgument (field child : String)
  /-- A consumer without a provider on some path to it. -/
  | noProvider (field component key : String)
  | elementCall (name component : String)
  | notBuilder (method : String)
  | misplacedElse (position : Nat)
  /-- An end that does not fit the elements that are open while a body is lowered. -/
  | wrongClose (name : String)
  | leftOpen (name : String)
  | unbalanced (component : String) (reason : BalanceFault)
  | duplicate (component : String)
  | printDeclarative
  | printNeverClosed (name : String)
  | printNothingOpen (name : String)
  | unknownComponent (name : String)
  | noParentWrapper (field : String)
  | noAncestor (key : String)
  | runNothingOpen (name : String)
  | runMismatch (closed opened : String)
  | runLeftOpen
  | runDeclarative
deriving DecidableEq, Repr

namespace Fault

def rule : Fault → Rule
  | .localInitializer .. | .missingInitializer .. | .repeatedKey .. => .invalidField
  | .unknownField .. | .tooManyArguments .. | .boundTwice .. | .notReference .. | .notValue ..
  | .noArgument .. => .bindingShape
  | .noCounterpart .. | .notReactive .. | .noProvider .. | .unknownComponent ..
  | .noParentWrapper .. | .noAncestor .. => .unresolvedBinding
  | .elementCall .. | .notBuilder .. | .printDeclarative | .runDeclarative => .unsupportedNesting
  | .misplacedElse .. => .malformedConditional
  | .duplicate .. => .duplicateComponent
  | .wrongClose .. | .leftOpen .. | .unbalanced .. | .printNeverClosed .. | .printNothingOpen ..
  | .runNothingOpen .. | .runMismatch .. | .runLeftOpen => .unbalancedTree

def message : Fault → String
  | .localInitializer label field => s!"{label} field '{field}' must not carry a local initializer."
  | .missingInitializer field => s!"@Provide field '{field}' must carry an initializer."
  | .repeatedKey key component => s!"Provider key '{key}' is declared twice in '{component}'."
  | .unknownField child field => s!"'{child}' has no field named '{field}'."
  | .tooManyArguments child limit =>
    s!"Too many positional arguments for '{child}': expected at most {limit}."
  | .boundTwice field child => s!"Field '{field}' of '{child}' is bound twice."
  | .noCounterpart field child =>
    s!"Two-way field '{field}' of '{child}' has no counterpart at this call site."
  | .notReference field child given =>
    s!"Two-way field '{field}' of '{child}' needs a $-reference, got '{given}'."
  | .notReactive field parent => s!"'${field}' does not name a reactive field of '{parent}'."
  | .notValue field child => s!"Field '{field}' of '{child}' takes a value, not a $-reference."
  | .noArgument field child =>
    s!"One-way field '{field}' of '{child}' has neither an argument nor an initializer."
  | .noProvider field component key =>
    s!"Consumer field '{field}' of '{component}' has no ancestor provider for key '{key}'."
  | .elementCall name component =>
    s!"UI construction '{name}(...)' appears inside ordinary code of '{component}'."
  | .notBuilder method => s!"Method '{method}' is not a builder but contains UI construction."
  | .misplacedElse position => s!"else arm at position {position} is not the last arm"
  | .wrongClose name => s!"close of '{name}' does not match the open stack"
  | .leftOpen name => s!"'{name}' left open at end of block"
  | .unbalanced component reason =>
    s!"Lowered body of '{component}' is unbalanced: {reason.message}"
  | .duplicate component => s!"Component '{component}' is declared more than once."
  | .printDeclarative => "declarative UI form reached the printer; lower the component first"
  | .printNeverClosed name => s!"'{name}' is never closed"
  | .printNothingOpen name => s!"close of '{name}' has no matching open"
  | .unknownComponent name => s!"No lowered component named '{name}'."
  | .noParentWrapper field => s!"Two-way field '{field}' has no parent wrapper."
  | .noAncestor key => s!"No ancestor provides key '{key}'."
  | .runNothingOpen name => s!"close of '{name}' without an open marker in this block"
  | .runMismatch closed opened => s!"close of '{closed}' does not match open '{opened}'"
  | .runLeftOpen => "block ended with open markers"
  | .runDeclarative => "declarative form reached the runtime without lowering"

def hints : Fault → List String
  | .localInitializer .. => ["Remove the initializer; the value comes from the binding source."]
  | .noCounterpart field _ => [s!"Pass {field}: $<parentField>."]
  | .noProvider _ _ key => [s!"Declare @Provide('{key}') in an enclosing component."]
  | .elementCall .. => ["Move the element into the render body or an @Builder method."]
  | .notBuilder .. => ["Mark the method @Builder or move the UI into the render body."]
  | _ => []

end Fault

/-- A fault with the file, the component and the position where it was found. -/
structure Diagnostic where
  fault : Fault
  file : String
  component : String
  location : Location := {}
deriving DecidableEq, Repr

def Diagnostic.report (d : Diagnostic) : Report where
  code := d.fault.rule.code
  message := d.fault.message
  file := d.file
  location := d.location
  context := some d.component
  hints := d.fault.hints

end ReactiveView
