import ReactiveView.View.Render

/-!
# Sessions with a view

A session has at most one root view.  Views are addressed by paths from the root, and fields can be
read, written and watched from outside.
-/

namespace ReactiveView

open Reactive (CellId SubscriptionId)

/-- A step of a path to a view: the first child of a component, or the child at a position. -/
inductive PathStep where
  | name (name : String)
  | index (index : Nat)
deriving DecidableEq, Repr, Inhabited

namespace View

def get? (v : View) : List PathStep → Option View
  | [] => some v
  | .name name :: rest => (v.child? name).bind (·.get? rest)
  | .index index :: rest => (v.children[index]?).bind (·.get? rest)

def modifyChild {α : Type} (name : String) (f : View → Option (α × View)) :
    List (String × View) → Option (α × List (String × View))
  | [] => none
  | (key, child) :: rest =>
    if child.name = name then (f child).map fun (a, child) => (a, (key, child) :: rest)
    else (modifyChild name f rest).map fun (a, rest) => (a, (key, child) :: rest)

def modify {α : Type} (f : View → α × View) : List String → View → Option (α × View)
  | [], v => some (f v)
  | name :: rest, v =>
    (modifyChild name (modify f rest) v.keyedChildren).map fun (a, children) =>
      (a, v.withChildren children v.history)

end View

inductive ViewFault where
  | noView
  | noField (field : String)
  | render (fault : RenderFault)
deriving DecidableEq, Repr

/-- A session: the components, the cells, the root view, and the watches by name, each with its
    subscription and the cell that it holds. -/
structure ViewSession where
  catalog : Catalog
  world : World := {}
  root : Option View := none
  watches : List (String × SubscriptionId × Option CellId) := []

namespace ViewSession

def dropWatch (w : World) (watch : SubscriptionId × Option CellId) : World :=
  (w.unsubscribeAll [watch.1]).releaseAll watch.2.toList

def clear (s : ViewSession) : ViewSession :=
  let w := (s.watches.map (·.2)).foldl dropWatch s.world
  { s with world := s.root.toList.foldl World.drop w, root := none, watches := [] }

def mount (s : ViewSession) (name : String) : Except ViewFault Unit × ViewSession :=
  let s := s.clear
  match s.catalog.mount name s.world with
  | (.ok view, world) => (.ok (), { s with world, root := some view })
  | (.error fault, world) => (.error (.render fault), { s with world })

def update (s : ViewSession) (path : List String) : Except ViewFault Unit × ViewSession :=
  let render (v : View) : (Except RenderFault Unit × World) × View :=
    let (result, v, world) := s.catalog.update v s.world
    ((result, world), v)
  match s.root.bind (View.modify render path) with
  | none => (.error .noView, s)
  | some ((result, world), root) =>
    (result.mapError .render, { s with world, root := some root })

def view (s : ViewSession) (path : List PathStep) : Except ViewFault View :=
  match s.root.bind (·.get? path) with
  | some v => .ok v
  | none => .error .noView

def cell (s : ViewSession) (path : List PathStep) (field : String) : Except ViewFault CellId := do
  match (← s.view path).cell? field with
  | some c => return c
  | none => throw (.noField field)

def value? (s : ViewSession) (path : List PathStep) (field : String) :
    Except ViewFault (Option Json) := do
  return ((← s.view path).cell? field).map s.world.store.value

def set (s : ViewSession) (path : List PathStep) (field : String) (value : Json) :
    Except ViewFault (Bool × ViewSession) := do
  match (← s.view path).cell? field with
  | some c => return (true, { s with world := s.world.set c value })
  | none => return (false, s)

/-- Watch a field under a name.  The watch that had the name is given up. -/
def watch (s : ViewSession) (id : String) (path : List PathStep) (field : String)
    (trigger : Option Json) (effect : Option (List PathStep × String × Json)) :
    Except ViewFault ViewSession := do
  let c ← s.cell path field
  let effect ← effect.mapM fun (path, field, value) => do return (← s.cell path field, value)
  let held := effect.map (·.1)
  let w := s.world.onStore (held.toList.foldl Reactive.Store.retain)
  let (subscription, w) := w.subscribe c (.watch ⟨id, trigger, effect⟩)
  let w := (s.watches.lookup id).toList.foldl dropWatch w
  return { s with
    world := w
    watches := (id, subscription, held) :: s.watches.filter (·.1 ≠ id) }

def unwatch (s : ViewSession) (id : String) : Bool × ViewSession :=
  match s.watches.lookup id with
  | some watch => (true, { s with
      world := dropWatch s.world watch
      watches := s.watches.filter (·.1 ≠ id) })
  | none => (false, s)

def takeEvents (s : ViewSession) : List (String × Json) × ViewSession :=
  let listeners := s.world.listeners
  (listeners.events.reverse,
    { s with world := { s.world with listeners := { listeners with events := [] } } })

def declaredFields (s : ViewSession) (v : View) : List (String × CellId) :=
  match s.catalog.find? v.name with
  | none => []
  | some c => (c.members.filterMap Member.slot?).filterMap fun (field, _) =>
    (v.cell? field).map (field, ·)

end ViewSession

end ReactiveView
