import ReactiveView.Diagnostic.Fault

/-!
# Bracketing

A linear body is bracketed if every block of it (the body itself, each arm, each loop body) closes
what it opens, in order, within the block.  `Balance.body` collects every violation together with
the number of markers; a body passes the check if there is none.
-/

namespace ReactiveView

/-- What a bracketing check has found: the violations in order, and the number of markers. -/
structure Balance where
  faults : List BalanceFault := []
  markers : Nat := 0
deriving DecidableEq, Repr

namespace Balance

/-- The open nodes of a block, innermost first, each with the branch of an arm. -/
abbrev Frame := List (String × Option UInt32)

def fail (b : Balance) (f : BalanceFault) : Balance := { b with faults := b.faults ++ [f] }

def count (b : Balance) : Balance := { b with markers := b.markers + 1 }

def close (m : CloseMarker) (frame : Frame) (b : Balance) : Frame × Balance :=
  match frame with
  | [] => ([], b.count.fail (.nothingOpen m.component))
  | (name, branchId) :: rest =>
    if name = m.component ∧ branchId = m.branchId then (rest, b.count)
    else (rest, b.count.fail (.mismatch m.component name))

mutual

def stmt (frame : Frame) (b : Balance) : Stmt → Frame × Balance
  | .element head _ => (frame, b.fail (.elementLeft head.name))
  | .choice arms _ => (frame, choiceArms b arms)
  | .forEach _ body => (frame, block [] b body)
  | .code _ _ => (frame, b)
  | .opening marker => ((marker.component, marker.role.branchId?) :: frame, b.count)
  | .closing marker => close marker frame b
  | .branch _ arms _ => (frame, branchArms b arms)
  | .items _ _ body => (frame, block [] b body)

def block (frame : Frame) (b : Balance) : List Stmt → Balance
  | [] =>
    match frame with
    | [] => b
    | (name, _) :: _ => b.fail (.neverClosed name)
  | s :: rest =>
    let (frame, b) := stmt frame b s
    block frame b rest

def choiceArms (b : Balance) : List (Arm Stmt) → Balance
  | [] => b
  | ⟨_, body⟩ :: rest => choiceArms (block [] b body) rest

def branchArms (b : Balance) : List (BranchArm Stmt) → Balance
  | [] => b
  | ⟨_, _, body⟩ :: rest => branchArms (block [] b body) rest

end

def body (stmts : List Stmt) : Balance := block [] {} stmts

/-- The number of markers of a bracketed body, or the first fault. -/
def check (stmts : List Stmt) : Except BalanceFault Nat :=
  match (body stmts).faults with
  | [] => .ok (body stmts).markers
  | f :: _ => .error f

end Balance

end ReactiveView
