import ReactiveView.Binding.CallSite
import ReactiveView.Lowering.Registry
import ReactiveView.Script.Preserve

/-!
# Lowering of bodies

A body of nested elements becomes a linear body: the start of an element, its children, its end.
A conditional becomes a container around a branch block, a loop a container around an item
generator.  What is linear already stays, except that code inside is looked at again and branch
blocks are registered.

A block is lowered by a list of steps: statements still to visit and ends still to write.  Visiting
an element puts its children and its end in front of the other steps, so the list always holds the
ends of all open elements, innermost first.
-/

namespace ReactiveView

/-- What a body is lowered against: its component, the fields of it, the components that it may
    instantiate, the names in its code and the parser for it. -/
structure BodyContext where
  file : String
  component : String
  fields : FieldTable
  child? : String → Option Component
  names : Script.Names
  parser : Script.Parser

/-- The conditionals registered so far, and the site number of the next one. -/
structure LoweringState where
  registry : BranchRegistry := {}
  nextSite : UInt32 := 0
deriving DecidableEq, Repr, Inhabited

/-- Lowering numbers sites and may fail.  What was registered before a failure stays registered. -/
abbrev LowerM := ExceptT Diagnostic (StateM LoweringState)

/-- A statement to visit, or the end of an element to write. -/
inductive LoweringStep where
  | visit (stmt : Stmt)
  | close (name : String)

namespace BodyContext

/-! ## Single statements -/

def diagnostic (ctx : BodyContext) (location : Location) (fault : Fault) : Diagnostic :=
  ⟨fault, ctx.file, ctx.component, location⟩

def reporting {α : Type} (ctx : BodyContext) (location : Location) (result : Except Fault α) :
    Except Diagnostic α :=
  result.mapError (ctx.diagnostic location)

def statement (ctx : BodyContext) (location : Location) (code : String) :
    Except Diagnostic String :=
  ctx.reporting location (ctx.names.statement code ctx.parser)

def expression (ctx : BodyContext) (location : Location) (code : String) :
    Except Diagnostic String :=
  ctx.reporting location (ctx.names.expression code ctx.parser)

def chained (ctx : BodyContext) (location : Location) (a : Attribute) :
    Except Diagnostic Attribute := do
  return { a with args := ← a.args.mapM (ctx.expression location) }

def boundArgument (ctx : BodyContext) (location : Location) (b : BoundArgument) :
    Except Diagnostic BoundArgument :=
  match b.value with
  | .expression code => do return { b with value := .expression (← ctx.expression location code) }
  | .wrapper _ _ => .ok b

/-- The start of an element.  An element that names a component has its arguments bound to the
    component's fields. -/
def openElement (ctx : BodyContext) (e : Element) : Except Diagnostic OpenMarker := do
  let attributes ← e.chain.mapM (ctx.chained e.location)
  match ctx.child? e.name with
  | some child =>
    let bound ← ctx.reporting e.location
      ((CallSite.mk ctx.component ctx.fields).bind child e.args)
    return {
      component := e.name
      attributes := attributes
      role := .component (← bound.mapM (ctx.boundArgument e.location))
      location := e.location }
  | none =>
    return {
      component := e.name
      args := ← e.args.mapM fun a => ctx.expression e.location a.value
      attributes := attributes
      role := .element
      location := e.location }

/-! ## Conditionals -/

def misplacedElse? : Nat → List (Arm Stmt) → Option Nat
  | _, [] => none
  | _, [_] => none
  | i, a :: rest => if a.condition.isNone then some i else misplacedElse? (i + 1) rest

/-- Give a conditional the next site number and register it. -/
def newSite (method : String) (arms : Nat) (location : Location) : LowerM UInt32 := do
  let s ← get
  set ({ registry := s.registry.register s.nextSite method arms location,
         nextSite := s.nextSite + 1 } : LoweringState)
  return s.nextSite

/-- Register a conditional that is lowered already. -/
def knownSite (method : String) (site : UInt32) (arms : Nat) (location : Location) :
    LowerM Unit :=
  modify fun s => {
    registry := s.registry.register site method arms location
    nextSite := max s.nextSite (site + 1) }

def branchOf (site : UInt32) (arm : Nat) : LowerM UInt32 := do
  return ((← get).registry.branchId? site arm).getD (UInt32.ofNat arm)

def armBody (site branchId : UInt32) (location : Location) (body : List Stmt) : List Stmt :=
  .opening ⟨Builtin.conditional, [], [], .arm site branchId, location⟩ :: body ++
    [.closing ⟨Builtin.conditional, some branchId⟩]

def conditional (site : UInt32) (location : Location) (arms : List (BranchArm Stmt)) :
    List Stmt :=
  [.opening ⟨Builtin.conditional, [], [], .conditional site, location⟩,
   .branch site arms location,
   .closing ⟨Builtin.conditional, none⟩]

/-! ## Loops -/

def loopHead (ctx : BodyContext) (loop : Loop) : Except Diagnostic Loop := do
  let source ← ctx.expression loop.location loop.source
  let keyGenerator ← loop.keyGenerator.mapM (ctx.expression loop.location)
  return { loop with source, keyGenerator }

def loopBody (loop : Loop) (body : List Stmt) : List Stmt :=
  [.opening ⟨Builtin.loop, [loop.source], [], .loop, loop.location⟩,
   .items (loop.itemVar :: loop.indexVar.toList) loop.keyGenerator body,
   .closing ⟨Builtin.loop, none⟩]

/-! ## Blocks -/

end BodyContext

namespace LoweringStep

/-- How much work a list of steps holds. -/
noncomputable def work : List LoweringStep → Nat
  | [] => 0
  | .visit s :: rest => 1 + sizeOf s + work rest
  | .close _ :: rest => 1 + work rest

@[simp] theorem work_visits (body : List Stmt) (rest : List LoweringStep) :
    work (body.map .visit ++ rest) + 1 = sizeOf body + work rest := by
  induction body with
  | nil => simp [Nat.add_comm]
  | cons s body ih =>
    simp only [List.map_cons, List.cons_append, work, List.cons.sizeOf_spec]
    omega

theorem work_visits_lt (body : List Stmt) : work (body.map .visit) < sizeOf body := by
  have h := work_visits body []
  simp only [List.append_nil, work] at h
  omega

end LoweringStep

namespace BodyContext

mutual

/-- Lower the rest of a block.  `opened` are the elements that are open, innermost first; `done` is
    what has been lowered, last statement first. -/
def lowerSteps (ctx : BodyContext) (method : String) (opened : List String) (done : List Stmt)
    (steps : List LoweringStep) : LowerM (List Stmt) :=
  match steps with
  | [] =>
    match opened with
    | [] => return done.reverse
    | name :: _ => throw (ctx.diagnostic {} (.leftOpen name))
  | .close name :: rest =>
    match opened with
    | [] => throw (ctx.diagnostic {} (.wrongClose name))
    | last :: opened =>
      if last = name then ctx.lowerSteps method opened (.closing ⟨name, none⟩ :: done) rest
      else throw (ctx.diagnostic {} (.wrongClose name))
  | .visit (.element head children) :: rest => do
    let marker ← ctx.openElement head
    ctx.lowerSteps method (head.name :: opened) (.opening marker :: done)
      (children.map .visit ++ .close head.name :: rest)
  | .visit (.choice arms location) :: rest => do
    if let some position := misplacedElse? 0 arms then
      throw (ctx.diagnostic location (.misplacedElse position))
    let site ← newSite method arms.length location
    let arms ← ctx.lowerArms method site location 0 arms
    ctx.lowerSteps method opened ((conditional site location arms).reverse ++ done) rest
  -- a loop body is a block of its own, in which nothing is open yet
  | .visit (.forEach loop body) :: rest => do
    let loop ← ctx.loopHead loop
    let body ← ctx.lowerSteps method [] [] (body.map .visit)
    ctx.lowerSteps method opened ((loopBody loop body).reverse ++ done) rest
  | .visit (.code text location) :: rest => do
    let text ← ctx.statement location text
    ctx.lowerSteps method opened (.code text location :: done) rest
  | .visit (.opening marker) :: rest =>
    ctx.lowerSteps method opened (.opening marker :: done) rest
  | .visit (.closing marker) :: rest =>
    ctx.lowerSteps method opened (.closing marker :: done) rest
  | .visit (.branch site arms location) :: rest => do
    knownSite method site arms.length location
    let arms ← ctx.lowerBranchArms method arms
    ctx.lowerSteps method opened (.branch site arms location :: done) rest
  | .visit (.items params keyGenerator body) :: rest => do
    let body ← ctx.lowerSteps method [] [] (body.map .visit)
    ctx.lowerSteps method opened (.items params keyGenerator body :: done) rest
termination_by LoweringStep.work steps
decreasing_by
  all_goals simp only [LoweringStep.work, Stmt.element.sizeOf_spec, Stmt.choice.sizeOf_spec,
    Stmt.forEach.sizeOf_spec, Stmt.branch.sizeOf_spec, Stmt.items.sizeOf_spec]
  all_goals first
    | omega
    | (have h := LoweringStep.work_visits children (.close head.name :: rest)
       simp only [LoweringStep.work] at h
       omega)
    | (have h := LoweringStep.work_visits_lt body
       omega)

/-- Lower the arms of a conditional, the first of them at position `index`. -/
def lowerArms (ctx : BodyContext) (method : String) (site : UInt32) (location : Location)
    (index : Nat) (arms : List (Arm Stmt)) : LowerM (List (BranchArm Stmt)) :=
  match arms with
  | [] => return []
  | ⟨condition, body⟩ :: rest => do
    let branchId ← branchOf site index
    let condition ← condition.mapM fun code => liftM (ctx.expression location code)
    let body ← ctx.lowerSteps method [] [] (body.map .visit)
    let rest ← ctx.lowerArms method site location (index + 1) rest
    return ⟨condition, branchId, armBody site branchId location body⟩ :: rest
termination_by sizeOf arms
decreasing_by
  all_goals simp only [List.cons.sizeOf_spec, Arm.mk.sizeOf_spec]
  all_goals first
    | omega
    | (have h := LoweringStep.work_visits_lt body
       omega)

def lowerBranchArms (ctx : BodyContext) (method : String) (arms : List (BranchArm Stmt)) :
    LowerM (List (BranchArm Stmt)) :=
  match arms with
  | [] => return []
  | ⟨condition, branchId, body⟩ :: rest => do
    let body ← ctx.lowerSteps method [] [] (body.map .visit)
    let rest ← ctx.lowerBranchArms method rest
    return ⟨condition, branchId, body⟩ :: rest
termination_by sizeOf arms
decreasing_by
  all_goals simp only [List.cons.sizeOf_spec, BranchArm.mk.sizeOf_spec]
  all_goals first
    | omega
    | (have h := LoweringStep.work_visits_lt body
       omega)

end

def lower (ctx : BodyContext) (method : String) (body : List Stmt) : LowerM (List Stmt) :=
  ctx.lowerSteps method [] [] (body.map .visit)

end BodyContext

end ReactiveView
