import ReactiveView.Decl.Basic

/-!
# Walking a body

The visits of a body in source order.  A block (a body, an arm, a loop body) is framed by
`enter` and `leave`; the children of an element belong to the block of the element.
-/

namespace ReactiveView

inductive Visit where
  | enter (statements : Nat)
  | leave
  | element (name : String)
  | choice (arms : Nat)
  | forEach (source : String)
  | code (text : String)
  | opening (component : String)
  | closing (component : String)
  | branch (site : UInt32)
  | arm (site branchId : UInt32)
  | items (params : List String)
deriving DecidableEq, Repr

mutual

def Stmt.visits : Stmt → List Visit
  | .element head children => .element head.name :: Stmt.visitsAll children
  | .choice arms _ => .choice arms.length :: Stmt.visitsArms arms
  | .forEach loop body =>
    .forEach loop.source :: .enter body.length :: Stmt.visitsAll body ++ [.leave]
  | .code text _ => [.code text]
  | .opening marker => [.opening marker.component]
  | .closing marker => [.closing marker.component]
  | .branch site arms _ => .branch site :: Stmt.visitsBranchArms site arms
  | .items params _ body =>
    .items params :: .enter body.length :: Stmt.visitsAll body ++ [.leave]

def Stmt.visitsAll : List Stmt → List Visit
  | [] => []
  | s :: rest => s.visits ++ Stmt.visitsAll rest

def Stmt.visitsArms : List (Arm Stmt) → List Visit
  | [] => []
  | ⟨_, body⟩ :: rest =>
    .enter body.length :: Stmt.visitsAll body ++ .leave :: Stmt.visitsArms rest

def Stmt.visitsBranchArms (site : UInt32) : List (BranchArm Stmt) → List Visit
  | [] => []
  | ⟨_, branchId, body⟩ :: rest =>
    .arm site branchId :: .enter body.length :: Stmt.visitsAll body ++
      .leave :: Stmt.visitsBranchArms site rest

end

def Stmt.walk (body : List Stmt) : List Visit :=
  .enter body.length :: Stmt.visitsAll body ++ [.leave]

namespace Visit

def line : Visit → String
  | .enter n => s!"body {n}"
  | .leave => "end"
  | .element name => s!"element {name}"
  | .choice arms => s!"if {arms}"
  | .forEach source => s!"for-each {source}"
  | .code text => s!"raw {text}"
  | .opening component => s!"open {component}"
  | .closing component => s!"close {component}"
  | .branch site => s!"branch {site}"
  | .arm site branchId => s!"arm {site} {branchId}"
  | .items params => "items " ++ ",".intercalate params

def leaf? : Visit → Option String
  | .code _ => some "raw"
  | .opening _ => some "open"
  | .closing _ => some "close"
  | _ => none

end Visit

end ReactiveView
