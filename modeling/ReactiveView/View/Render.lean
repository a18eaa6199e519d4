import ReactiveView.Expr.Eval
import ReactiveView.Lowering.Module
import ReactiveView.View.Instance

/-!
# Rendering

A view is made from a lowered component: each field gets a cell according to its binding.  Then its
render body is executed: markers build the tree, branch blocks choose an arm, item generators run
once for each item, and component markers render children.  A child is kept from one rendering to
the next under a key that says where its marker stands.

Code of the host is not executed.  Views can nest without end, so the depth is bounded.
-/

namespace ReactiveView

open Reactive (CellId SubscriptionId)

inductive RenderFault where
  | fault (diagnostic : Diagnostic)
  | tooDeep
deriving DecidableEq, Repr

def renderingFile : String := "<runtime>"

def RenderFault.of (component : String) (fault : Fault) : RenderFault :=
  .fault ⟨fault, renderingFile, component, {}⟩

/-- The components that views can be made of.  Of two with the same name the last one counts. -/
structure Catalog where
  components : List Component

namespace Catalog

def ofOutput (o : ModuleOutcome) : Catalog := ⟨o.lowered.map (·.decl)⟩

def find? (catalog : Catalog) (name : String) : Option Component :=
  catalog.components.reverse.find? (·.name = name)

end Catalog

/-- The names that code in a view sees: fields, and items of loops, innermost first. -/
structure ViewScope where
  fields : List (String × CellId)
  locals : List (String × Json) := []

namespace ViewScope

/-- What names mean with the values that cells have now. -/
def names (scope : ViewScope) (w : World) : Expr.Scope where
  field name := (scope.fields.lookup name).map w.store.value
  name name := scope.locals.lookup name

def eval (scope : ViewScope) (w : World) (code : String) : Json := Expr.eval (scope.names w) code

end ViewScope

/-! ## Making a view -/

/-- The keys in sight with their cells, nearest first. -/
abbrev Provided := List (String × CellId)

/-- What a member says about the field behind it: its name, its binding unless it is plain, and its
    initializer. -/
def Member.slot? : Member → Option (String × Option BindingKind × Option String)
  | .wrapper w => some (w.sourceField, some w.binding, w.initializer)
  | .field f => some (f.name, none, f.initializer)
  | _ => none

/-- The place where a view is made: the arguments of the call, the names that they see, and the
    keys in sight. -/
structure Site where
  args : List BoundArgument := []
  parent : ViewScope := ⟨[], []⟩
  provided : Provided := []

def Site.bound? (site : Site) (field : String) : Option BoundValue :=
  (site.args.find? (·.field = field)).map (·.value)

/-- The first value of a field: the argument, else the initializer, else null. -/
def Site.initial (site : Site) (w : World) (fields : List (String × CellId)) (field : String)
    (initializer : Option String) : Json :=
  match site.bound? field with
  | some (.expression code) => site.parent.eval w code
  | _ =>
    match initializer with
    | some code => ViewScope.eval ⟨fields, []⟩ w code
    | none => .null

def Site.source? (site : Site) (field : String) : Option CellId :=
  match site.bound? field with
  | some (.wrapper _ source) => site.parent.fields.lookup source
  | _ => none

def Site.cell (site : Site) (w : World) (fields : List (String × CellId)) (field : String)
    (binding : Option BindingKind) (initializer : Option String) : Except Fault (CellId × World) :=
  match binding with
  | none => .ok (w.create .plain (site.initial w fields field initializer))
  | some .twoWay =>
    match site.source? field with
    | some source => .ok (w.link source .twoWay)
    | none => .error (.noParentWrapper field)
  | some (.shared key .consumer) =>
    match site.provided.lookup key with
    | some source => .ok (w.link source .shared)
    | none => .error (.noAncestor key)
  | some kind => .ok (w.create kind.cellKind (site.initial w fields field initializer))

/-- Make the cells for fields.  If that fails, those made so far are given up. -/
def Site.cells (site : Site) (w : World) (fields provided : List (String × CellId)) :
    List (String × Option BindingKind × Option String) →
      Except Fault (List (String × CellId) × List (String × CellId)) × World
  | [] => (.ok (fields, provided), w)
  | (field, binding, initializer) :: rest =>
    match site.cell w fields field binding initializer with
    | .error fault => (.error fault, w.releaseAll ((fields ++ provided).map (·.2)))
    | .ok (c, w) =>
      match binding.bind (·.key? .provider) with
      | some key => site.cells (w.onStore (·.retain c)) (fields ++ [(field, c)])
          (provided ++ [(key, c)]) rest
      | none => site.cells w (fields ++ [(field, c)]) provided rest

def World.subscribeView (w : World) (view : Nat) : List CellId → List SubscriptionId × World
  | [] => ([], w)
  | c :: rest =>
    let (subscription, w) := w.subscribe c (.rerender view)
    let (subscriptions, w) := w.subscribeView view rest
    (subscription :: subscriptions, w)

def Catalog.instantiate (catalog : Catalog) (name : String) (site : Site) (w : World) :
    Except RenderFault View × World :=
  match catalog.find? name with
  | none => (.error (.of name (.unknownComponent name)), w)
  | some c =>
    match site.cells w [] [] (c.members.filterMap Member.slot?) with
    | (.error fault, w) => (.error (.of name fault), w)
    | (.ok (fields, provided), w) =>
      let (number, w) := w.newView
      let (subscriptions, w) := w.subscribeView number (fields.map (·.2))
      (.ok (.fresh name fields provided number subscriptions), w)

/-! ## Executing a body -/

/-- What changes while the body of a view is executed. -/
structure Execution where
  world : World
  /-- The children of the last rendering that were not met again yet. -/
  former : List (String × View)
  children : List (String × View) := []
  history : BranchHistory
  activations : List BranchChoice := []

/-- Execution may fail, and what has changed until then stays changed. -/
abbrev ExecM := ExceptT RenderFault (StateM Execution)

/-- A marker that is open: its node, without the children that are still to come, and the items if
    it is a loop. -/
structure OpenNode where
  name : String
  args : List Json
  attributes : List (String × List Json)
  branchId : Option UInt32 := none
  items : Option (List Json) := none
  children : List ViewNode := []

def OpenNode.node (f : OpenNode) : ViewNode := .mk f.name f.args f.attributes f.branchId f.children

/-- What stays the same while the body of a view is executed: its component and fields, and how a
    child is rendered, given its key, component, bindings and the names that these see. -/
structure BodyRunner where
  component : String
  fields : List (String × CellId)
  child : String → String → List BoundArgument → ViewScope → ExecM (List ViewNode)

/-- Where in a body the execution is: the arms and items around it, innermost last, and the names
    of the items. -/
structure Position where
  path : List String := []
  locals : List (String × Json) := []

namespace BodyRunner

def scope (x : BodyRunner) (pos : Position) : ViewScope := ⟨x.fields, pos.locals⟩

def eval (x : BodyRunner) (pos : Position) (code : String) : ExecM Json := do
  return (x.scope pos).eval (← get).world code

def fail {α : Type} (x : BodyRunner) (fault : Fault) : ExecM α := throw (.of x.component fault)

/-- The items of a loop: those of the array that is its first argument. -/
def itemsOf (args : List Json) : List Json :=
  match args with
  | .arr items :: _ => items
  | _ => []

def openMarker (x : BodyRunner) (pos : Position) (index : Nat) (m : OpenMarker) :
    ExecM OpenNode := do
  let args ← m.args.mapM (x.eval pos)
  let attributes ← m.attributes.mapM fun a => do return (a.method, ← a.args.mapM (x.eval pos))
  let frame : OpenNode := { name := m.component, args, attributes }
  match m.role with
  | .arm _ branchId => return { frame with branchId := some branchId }
  | .loop => return { frame with items := some (itemsOf args) }
  | .component bindings =>
    let key := "/".intercalate pos.path ++ s!"/{index}:{m.component}"
    return { frame with children := ← x.child key m.component bindings (x.scope pos) }
  | .element | .conditional _ => return frame

/-- Close the last marker of a block.  Its node goes to the marker around it, or to the nodes of the
    block. -/
def closeMarker (x : BodyRunner) (m : CloseMarker) (opened : List OpenNode)
    (nodes : List ViewNode) : ExecM (List OpenNode × List ViewNode) :=
  match opened with
  | [] => x.fail (.runNothingOpen m.component)
  | frame :: opened =>
    if frame.name = m.component ∧ frame.branchId = m.branchId then
      match opened with
      | [] => return ([], nodes ++ [frame.node])
      | outer :: rest =>
        return ({ outer with children := outer.children ++ [frame.node] } :: rest, nodes)
    else x.fail (.runMismatch m.component frame.name)

/-- The arm that is chosen, the first whose condition holds: its position and its branch. -/
def chooseArm (x : BodyRunner) (pos : Position) (position : Nat) :
    List (BranchArm Stmt) → ExecM (Option (Nat × UInt32))
  | [] => return none
  | arm :: rest =>
    match arm.condition with
    | none => return some (position, arm.branchId)
    | some code => do
      if (← x.eval pos code).truthy then return some (position, arm.branchId)
      else x.chooseArm pos (position + 1) rest

def activate (site : UInt32) (branchId : Option UInt32) : ExecM Unit :=
  modify fun e =>
    let (activation, history) := e.history.activate site branchId
    { e with history, activations := e.activations ++ [⟨site, branchId, activation⟩] }

def itemNames (params : List String) (item : Json) (index : Nat) : List (String × Json) :=
  match params with
  | [] => []
  | [a] => [(a, item)]
  | a :: b :: _ => [(b, .ofNat index), (a, item)]

/-- Where the nodes of a nested block go: to the last open marker, or to the nodes of the block. -/
def addNodes (added : List ViewNode) (opened : List OpenNode) (nodes : List ViewNode) :
    List OpenNode × List ViewNode :=
  match opened with
  | [] => ([], nodes ++ added)
  | frame :: rest => ({ frame with children := frame.children ++ added } :: rest, nodes)

/-- The items that an item generator runs for: those of the last open marker, or, if the block has
    opened none, those of the block. -/
def currentItems (outer : Option (List Json)) (opened : List OpenNode) : Option (List Json) :=
  match opened with
  | [] => outer
  | frame :: _ => frame.items

/-- Execute a body once for each item, the first of them at position `index`. -/
def forItems (pos : Position) (params : List String) (body : Position → ExecM (List ViewNode))
    (index : Nat) : List Json → ExecM (List ViewNode)
  | [] => return []
  | item :: rest => do
    let nodes ← body {
      path := pos.path ++ [s!"i{index}"]
      locals := itemNames params item index ++ pos.locals }
    return nodes ++ (← forItems pos params body (index + 1) rest)

mutual

/-- Execute the rest of a block from the statement at position `index` on.  `outer` are the items of
    the marker around the block; `opened` are the open markers of the block, innermost first, and
    `nodes` the nodes that it has finished. -/
def block (x : BodyRunner) (pos : Position) (outer : Option (List Json)) (index : Nat)
    (opened : List OpenNode) (nodes : List ViewNode) : List Stmt → ExecM (List ViewNode)
  | [] => if opened.isEmpty then return nodes else x.fail .runLeftOpen
  | s :: rest => do
    let (opened, nodes) ← x.stmt pos outer index opened nodes s
    x.block pos outer (index + 1) opened nodes rest

def stmt (x : BodyRunner) (pos : Position) (outer : Option (List Json)) (index : Nat)
    (opened : List OpenNode) (nodes : List ViewNode) : Stmt → ExecM (List OpenNode × List ViewNode)
  | .opening marker => do
    let frame ← x.openMarker pos index marker
    return (frame :: opened, nodes)
  | .closing marker => x.closeMarker marker opened nodes
  | .branch site arms _ => do
    let chosen ← x.chooseArm pos 0 arms
    activate site (chosen.map (·.2))
    match chosen with
    | none => return (opened, nodes)
    | some (position, branchId) =>
      let inner := { pos with path := pos.path ++ [s!"s{site}b{branchId}"] }
      let added ← x.arm inner (currentItems outer opened) position arms
      return addNodes added opened nodes
  | .items params _ body => do
    let items := currentItems outer opened
    let added ← forItems pos params (fun pos => x.block pos items 0 [] [] body) 0 (items.getD [])
    return addNodes added opened nodes
  | .code _ _ => return (opened, nodes)
  | .element _ _ => x.fail .runDeclarative
  | .choice _ _ => x.fail .runDeclarative
  | .forEach _ _ => x.fail .runDeclarative

def arm (x : BodyRunner) (pos : Position) (outer : Option (List Json)) (position : Nat) :
    List (BranchArm Stmt) → ExecM (List ViewNode)
  | [] => return []
  | ⟨_, _, body⟩ :: rest =>
    match position with
    | 0 => x.block pos outer 0 [] [] body
    | position + 1 => x.arm pos outer position rest

end

def run (x : BodyRunner) (body : List Stmt) : ExecM (List ViewNode) := x.block {} none 0 [] [] body

end BodyRunner

/-! ## Rendering a view -/

/-- Write the one-way arguments of a call to a child that is kept, where they have changed. -/
def World.refresh (w : World) (scope : ViewScope) (child : View) : List BoundArgument → World
  | [] => w
  | b :: rest =>
    match b.binding, b.value, child.cell? b.field with
    | .oneWay, .expression code, some c =>
      let value := scope.eval w code
      let w := if (w.store.value c).same value then w else w.set c value
      w.refresh scope child rest
    | _, _, _ => w.refresh scope child rest

/-- Render a view below the keys in sight: the outcome, the view after it, and the world. -/
abbrev Renderer := View → Provided → World → Except RenderFault Unit × View × World

namespace Catalog

/-- The child for a marker: the one kept under the key, with fresh arguments, or a new one. -/
def child (catalog : Catalog) (provided : Provided) (key component : String)
    (bindings : List BoundArgument) (scope : ViewScope) : ExecM View := do
  let e ← get
  match (e.former.lookup key).filter (·.name = component) with
  | some child =>
    set { e with
      world := e.world.refresh scope child bindings
      former := e.former.filter (·.1 ≠ key) }
    return child
  | none =>
    let (result, world) := catalog.instantiate component ⟨bindings, scope, provided⟩ e.world
    set { e with world }
    MonadExcept.ofExcept result

/-- Render the child for a marker and keep it under its key; its nodes are the result. -/
def renderChild (catalog : Catalog) (render : Renderer) (provided : Provided)
    (key component : String) (bindings : List BoundArgument) (scope : ViewScope) :
    ExecM (List ViewNode) := do
  let child ← catalog.child provided key component bindings scope
  let e ← get
  match render child provided e.world with
  | (.error fault, child, world) =>
    set { e with world := world.drop child }
    throw fault
  | (.ok (), child, world) =>
    let (children, replaced) := View.insertChild key child e.children
    set { e with children, world := world.dropAll (replaced.toList.map (key, ·)) }
    return (child.tree.map ViewNode.children).getD []

/-- Render a view whose children are rendered by another renderer.  After a failure the view has no
    children, and its choices are those made until then. -/
def renderWith (catalog : Catalog) (render : Renderer) : Renderer := fun view provided w =>
  match catalog.find? view.name with
  | none => (.error (.of view.name (.unknownComponent view.name)), view, w)
  | some c =>
    let x : BodyRunner :=
      ⟨c.name, view.fields, catalog.renderChild render (view.provided ++ provided)⟩
    let start : Execution := { world := w, former := view.keyedChildren, history := view.history }
    match (x.run c.render.body).run.run start with
    | (.ok nodes, e) =>
      let tree := .mk c.name [] [] none nodes
      (.ok (), view.rendered e.children e.history e.activations tree, e.world.dropAll e.former)
    | (.error fault, e) =>
      (.error fault, view.withChildren [] e.history, e.world.dropAll (e.former ++ e.children))

/-- Render a view whose children nest at most to a depth. -/
def render (catalog : Catalog) : Nat → Renderer
  | 0 => fun view _ w => (.error .tooDeep, view, w)
  | depth + 1 => catalog.renderWith (catalog.render depth)

def mountTo (catalog : Catalog) (depth : Nat) (name : String) (w : World) :
    Except RenderFault View × World :=
  match catalog.instantiate name {} w with
  | (.error fault, w) => (.error fault, w)
  | (.ok view, w) =>
    match catalog.render depth view [] w with
    | (.ok (), view, w) => (.ok view, w)
    | (.error fault, view, w) => (.error fault, w.drop view)

def depthLimit : Nat := 10000

def mount (catalog : Catalog) (name : String) (w : World) : Except RenderFault View × World :=
  catalog.mountTo depthLimit name w

def update (catalog : Catalog) (view : View) (w : World) :
    Except RenderFault Unit × View × World :=
  catalog.render depthLimit view [] w

end Catalog

end ReactiveView
