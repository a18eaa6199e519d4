import ReactiveView.Decl.Basic

/-!
# Instantiated components

Which components a component instantiates: the elements that name a known component, and the
component markers of lowered bodies, in the order of the source, each once.
-/

namespace ReactiveView

mutual

/-- The components that a statement instantiates, with repetitions. -/
def Stmt.instances (known : String → Bool) : Stmt → List String
  | .element head children =>
    (if known head.name then [head.name] else []) ++ Stmt.instancesAll known children
  | .choice arms _ => Stmt.instancesArms known arms
  | .forEach _ body => Stmt.instancesAll known body
  | .code _ _ => []
  | .opening marker =>
    match marker.role with
    | .component _ => [marker.component]
    | _ => []
  | .closing _ => []
  | .branch _ arms _ => Stmt.instancesBranchArms known arms
  | .items _ _ body => Stmt.instancesAll known body

def Stmt.instancesAll (known : String → Bool) : List Stmt → List String
  | [] => []
  | s :: rest => s.instances known ++ Stmt.instancesAll known rest

def Stmt.instancesArms (known : String → Bool) : List (Arm Stmt) → List String
  | [] => []
  | ⟨_, body⟩ :: rest => Stmt.instancesAll known body ++ Stmt.instancesArms known rest

def Stmt.instancesBranchArms (known : String → Bool) : List (BranchArm Stmt) → List String
  | [] => []
  | ⟨_, _, body⟩ :: rest => Stmt.instancesAll known body ++ Stmt.instancesBranchArms known rest

end

/-- The components that a component instantiates in its render and builder bodies, each where it
    comes first. -/
def Component.instances (known : String → Bool) (c : Component) : List String :=
  (Stmt.instancesAll known c.render.body ++
    (c.methods.filter (·.isBuilder)).flatMap fun m => Stmt.instancesAll known m.body).eraseDups

end ReactiveView
