import ReactiveView.Lowering.Body

/-!
# Lowering by recursion

A block is lowered by a list of steps, so that no call depth is spent on nested elements.  Here the
same is done by recursion on the statements, where an element becomes its start, its lowered
children and its end, and the two are proved equal (`lower_eq_lowerStmts`).  The elements that are
open and the statements that are done are a matter of the steps only; they drop out.
-/

namespace ReactiveView

namespace BodyContext

mutual

/-- Lower a statement. -/
def lowerStmt (ctx : BodyContext) (method : String) : Stmt → LowerM (List Stmt)
  | .element head children => do
    let marker ← ctx.openElement head
    let inner ← ctx.lowerStmts method children
    return .opening marker :: inner ++ [.closing ⟨head.name, none⟩]
  | .choice arms location => do
    if let some position := misplacedElse? 0 arms then
      throw (ctx.diagnostic location (.misplacedElse position))
    let site ← newSite method arms.length location
    let arms ← ctx.lowerChoiceArms method site location 0 arms
    return conditional site location arms
  | .forEach loop body => do
    let loop ← ctx.loopHead loop
    let body ← ctx.lowerStmts method body
    return loopBody loop body
  | .code text location => do
    let text ← ctx.statement location text
    return [.code text location]
  | .opening marker => return [.opening marker]
  | .closing marker => return [.closing marker]
  | .branch site arms location => do
    knownSite method site arms.length location
    let arms ← ctx.lowerKnownArms method arms
    return [.branch site arms location]
  | .items params keyGenerator body => do
    let body ← ctx.lowerStmts method body
    return [.items params keyGenerator body]

/-- Lower statements one after the other. -/
def lowerStmts (ctx : BodyContext) (method : String) : List Stmt → LowerM (List Stmt)
  | [] => return []
  | s :: rest => do
    let out ← ctx.lowerStmt method s
    let rest ← ctx.lowerStmts method rest
    return out ++ rest

/-- Lower the arms of a conditional, the first of them at position `index`. -/
def lowerChoiceArms (ctx : BodyContext) (method : String) (site : UInt32) (location : Location)
    (index : Nat) : List (Arm Stmt) → LowerM (List (BranchArm Stmt))
  | [] => return []
  | ⟨condition, body⟩ :: rest => do
    let branchId ← branchOf site index
    let condition ← condition.mapM fun code => liftM (ctx.expression location code)
    let body ← ctx.lowerStmts method body
    let rest ← ctx.lowerChoiceArms method site location (index + 1) rest
    return ⟨condition, branchId, armBody site branchId location body⟩ :: rest

/-- Lower the bodies of the arms of a lowered conditional. -/
def lowerKnownArms (ctx : BodyContext) (method : String) :
    List (BranchArm Stmt) → LowerM (List (BranchArm Stmt))
  | [] => return []
  | ⟨condition, branchId, body⟩ :: rest => do
    let body ← ctx.lowerStmts method body
    let rest ← ctx.lowerKnownArms method rest
    return ⟨condition, branchId, body⟩ :: rest

end

/-! ## Steps and recursion agree -/

theorem throw_bind {α β : Type} (d : Diagnostic) (f : α → LowerM β) :
    ((throw d : LowerM α) >>= f) = throw d := rfl

/-- A block starts and ends with no element open. -/
theorem lowerSteps_block_of {ctx : BodyContext} {method : String} {body : List Stmt}
    (visits : ctx.lowerSteps method [] [] (body.map .visit ++ []) = (do
      let out ← ctx.lowerStmts method body
      ctx.lowerSteps method [] (out.reverse ++ []) [])) :
    ctx.lowerStmts method body = ctx.lowerSteps method [] [] (body.map .visit) := by
  simpa [lowerSteps] using visits.symm

mutual

theorem lowerSteps_visit (ctx : BodyContext) (method : String) : ∀ (stmt : Stmt)
    (opened : List String) (done : List Stmt) (rest : List LoweringStep),
    ctx.lowerSteps method opened done (.visit stmt :: rest) = (do
      let out ← ctx.lowerStmt method stmt
      ctx.lowerSteps method opened (out.reverse ++ done) rest)
  | .element head children, _, _, _ => by
    -- The children come before the end of the element, which then finds its name on top.
    have inner := lowerSteps_visits ctx method children
    simp [lowerSteps, lowerStmt, inner]
  | .choice arms location, _, _, _ => by
    have inner := lowerArms_eq ctx method arms
    simp only [lowerSteps, lowerStmt, inner]
    cases misplacedElse? 0 arms <;> simp
  | .forEach loop body, _, _, _ => by
    have inner := lowerSteps_visits ctx method body [] [] []
    simp [lowerSteps, lowerStmt, ← lowerSteps_block_of inner]
  | .code _ _, _, _, _ | .opening _, _, _, _ | .closing _, _, _, _ => by
    simp [lowerSteps, lowerStmt]
  | .branch site arms location, _, _, _ => by
    have inner := lowerBranchArms_eq ctx method arms
    simp [lowerSteps, lowerStmt, inner]
  | .items params keyGenerator body, _, _, _ => by
    have inner := lowerSteps_visits ctx method body [] [] []
    simp [lowerSteps, lowerStmt, ← lowerSteps_block_of inner]

theorem lowerSteps_visits (ctx : BodyContext) (method : String) : ∀ (body : List Stmt)
    (opened : List String) (done : List Stmt) (rest : List LoweringStep),
    ctx.lowerSteps method opened done (body.map .visit ++ rest) = (do
      let out ← ctx.lowerStmts method body
      ctx.lowerSteps method opened (out.reverse ++ done) rest)
  | [], _, _, _ => by simp [lowerStmts]
  | stmt :: body, _, _, _ => by
    have head := lowerSteps_visit ctx method stmt
    have tail := lowerSteps_visits ctx method body
    simp [lowerStmts, head, tail]

theorem lowerArms_eq (ctx : BodyContext) (method : String) : ∀ (arms : List (Arm Stmt))
    (site : UInt32) (location : Location) (index : Nat),
    ctx.lowerArms method site location index arms =
      ctx.lowerChoiceArms method site location index arms
  | [], _, _, _ => by simp [lowerArms, lowerChoiceArms]
  | ⟨condition, body⟩ :: rest, _, _, _ => by
    have inner := lowerSteps_visits ctx method body [] [] []
    have tail := lowerArms_eq ctx method rest
    simp [lowerArms, lowerChoiceArms, ← lowerSteps_block_of inner, tail]

theorem lowerBranchArms_eq (ctx : BodyContext) (method : String) :
    ∀ (arms : List (BranchArm Stmt)),
      ctx.lowerBranchArms method arms = ctx.lowerKnownArms method arms
  | [] => by simp [lowerBranchArms, lowerKnownArms]
  | ⟨condition, _, body⟩ :: rest => by
    have inner := lowerSteps_visits ctx method body [] [] []
    have tail := lowerBranchArms_eq ctx method rest
    simp [lowerBranchArms, lowerKnownArms, ← lowerSteps_block_of inner, tail]

end

/-- The body of a method is lowered by recursion on its statements. -/
theorem lower_eq_lowerStmts (ctx : BodyContext) (method : String) (body : List Stmt) :
    ctx.lower method body = ctx.lowerStmts method body :=
  (lowerSteps_block_of (lowerSteps_visits ctx method body [] [] [])).symm

end BodyContext

end ReactiveView
