import ReactiveView.Binding.Providers
import ReactiveView.Lowering.Balance
import ReactiveView.Lowering.Body
import ReactiveView.Lowering.Fields

/-!
# Lowering of modules

Providers are searched for once in the whole module.  Then each component is lowered on its own: its
fields, its render body, its methods.  A failure concerns only the component it was found in.
-/

namespace ReactiveView

structure Options where
  /-- The path used in diagnostics, unless it is empty. -/
  filePath : String := ""
  partialUpdateMode : Bool := true
  /-- Whether components may be lowered at the same time, which does not change the outcome. -/
  parallel : Bool := true
deriving DecidableEq, Repr, Inhabited

structure LoweredComponent where
  decl : Component
  branchRegistry : BranchRegistry
  provided : List String
deriving Repr, Inhabited

structure Outcome where
  name : String
  result : Except Diagnostic LoweredComponent

structure ModuleOutcome where
  filePath : String
  components : List Outcome

namespace ModuleOutcome

def get? (o : ModuleOutcome) (name : String) : Option Outcome :=
  o.components.find? (·.name = name)

def lowered (o : ModuleOutcome) : List LoweredComponent :=
  o.components.filterMap fun c => c.result.toOption

def errors (o : ModuleOutcome) : List Diagnostic :=
  o.components.filterMap fun c => match c.result with
    | .ok _ => none
    | .error d => some d

def isSuccess (o : ModuleOutcome) : Bool := o.errors.isEmpty

end ModuleOutcome

/-- What the lowering of every component of a module shares. -/
structure ModuleScope where
  file : String
  partialUpdate : Bool
  components : List Component
  failures : List (String × Diagnostic)
  parser : Script.Parser

namespace ModuleScope

/-- The context for a module.  A path in the options takes the place of the module's own. -/
def of (m : Module) (options : Options) (parser : Script.Parser := Script.parser) : ModuleScope :=
  let file := if options.filePath.isEmpty then m.filePath else options.filePath
  ⟨file, options.partialUpdateMode, m.components, consumerFailures file m.components, parser⟩

def body (ctx : ModuleScope) (c : Component) (wrapped : List String) : BodyContext where
  file := ctx.file
  component := c.name
  fields := c.fieldTable
  child? := Component.find? ctx.components
  names := ⟨c.name, wrapped.contains, Component.declares ctx.components⟩
  parser := ctx.parser

def checkBalance (ctx : ModuleScope) (c : Component) (body : List Stmt) :
    Except Diagnostic Unit :=
  match Balance.check body with
  | .ok _ => .ok ()
  | .error reason => .error ⟨.unbalanced c.name reason, ctx.file, c.name, c.location⟩

def lowerBody (ctx : ModuleScope) (c : Component) (wrapped : List String) (method : String)
    (body : List Stmt) : LowerM (List Stmt) := do
  let body ← (ctx.body c wrapped).lower method body
  ctx.checkBalance c body
  return body

/-- The body of a method that is no builder, which holds ordinary code only. -/
def ordinaryBody (ctx : BodyContext) (m : Method) : Except Diagnostic (List Stmt) :=
  m.body.mapM fun
    | .code text location => do return .code (← ctx.statement location text) location
    | _ => .error (ctx.diagnostic m.location (.notBuilder m.name))

def lowerMember (ctx : ModuleScope) (c : Component) (wrapped : List String) :
    Member → LowerM Member
  | .method m => do
    let body ← if m.isBuilder then ctx.lowerBody c wrapped m.name m.body
      else ordinaryBody (ctx.body c wrapped) m
    return .method { m with body }
  | m => return m

/-- Lower the bodies of a component: the render body, then the methods in order. -/
def lowerBodies (ctx : ModuleScope) (c : Component) (fields : FieldLowering) :
    LowerM Component := do
  let name := loweredRenderName c.render.name ctx.partialUpdate
  let body ← ctx.lowerBody c fields.wrapped name c.render.body
  let members ← fields.members.mapM (ctx.lowerMember c fields.wrapped)
  return { c with members, render := ⟨name, body⟩ }

def lowerComponent (ctx : ModuleScope) (c : Component) : Except Diagnostic LoweredComponent := do
  let fields ← c.lowerFields ctx.file
  if let some failure := ctx.failures.lookup c.name then throw failure
  let (decl, state) := (ctx.lowerBodies c fields).run.run {}
  return ⟨← decl, state.registry, fields.provided⟩

/-- Lower components one after the other.  A name that was seen before is refused. -/
def lowerAll (ctx : ModuleScope) (seen : List String) : List Component → List Outcome
  | [] => []
  | c :: rest =>
    let result := if seen.contains c.name then
        .error ⟨.duplicate c.name, ctx.file, c.name, c.location⟩
      else ctx.lowerComponent c
    ⟨c.name, result⟩ :: ctx.lowerAll (c.name :: seen) rest

end ModuleScope

def Module.lower (m : Module) (options : Options) (parser : Script.Parser := Script.parser) :
    ModuleOutcome :=
  let ctx := ModuleScope.of m options parser
  ⟨ctx.file, ctx.lowerAll [] m.components⟩

def Component.lowerStandalone (c : Component) (options : Options)
    (parser : Script.Parser := Script.parser) : Except Diagnostic LoweredComponent :=
  (ModuleScope.of ⟨options.filePath, [c]⟩ options parser).lowerComponent c

def ModuleOutcome.toModule (o : ModuleOutcome) : Module := ⟨o.filePath, o.lowered.map (·.decl)⟩

end ReactiveView
