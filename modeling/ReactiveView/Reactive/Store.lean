import ReactiveView.Json.Basic
import ReactiveView.Reactive.Kind

/-!
# Reactive cells

A cell holds the value of a field.  Cells that are tied to each other form a link group, and a
write to one of them is a write to all.  Callbacks subscribe to a cell.  A cell lives while someone
has a handle on it, a subscription while someone owns it; what does not live any more is passed
over.

Cells, groups and subscriptions are numbered in the order in which they were made.
-/

namespace ReactiveView.Reactive

abbrev CellId := Nat

abbrev GroupId := Nat

abbrev SubscriptionId := Nat

structure Cell where
  value : Json
  kind : CellKind
  group : GroupId
  subscriptions : List SubscriptionId := []
  handles : Nat := 1
deriving Inhabited

structure Group where
  members : List CellId
  /-- Whether a value is being passed to the members. -/
  propagating : Bool := false
  /-- The values that wait for that to end, oldest first. -/
  pending : List Json := []
deriving Inhabited

structure Store where
  cells : List Cell := []
  groups : List Group := []
  /-- The number of owners of each subscription. -/
  owners : List Nat := []
deriving Inhabited

namespace Store

/-! ## Reading -/

def value (s : Store) (c : CellId) : Json := ((s.cells[c]?).map (·.value)).getD .null

def kind (s : Store) (c : CellId) : CellKind := ((s.cells[c]?).map (·.kind)).getD .plain

def groupOf (s : Store) (c : CellId) : GroupId := ((s.cells[c]?).map (·.group)).getD 0

def isLive (s : Store) (c : CellId) : Bool := (s.cells[c]?).any (0 < ·.handles)

def isOwned (s : Store) (n : SubscriptionId) : Bool := (s.owners[n]?).any (0 < ·)

def liveMembers (s : Store) (g : GroupId) : List CellId :=
  (((s.groups[g]?).map (·.members)).getD []).filter s.isLive

def liveSubscriptions (s : Store) (c : CellId) : List SubscriptionId :=
  (((s.cells[c]?).map (·.subscriptions)).getD []).filter s.isOwned

def isPropagating (s : Store) (g : GroupId) : Bool := (s.groups[g]?).any (·.propagating)

def groupSize (s : Store) (c : CellId) : Nat := (s.liveMembers (s.groupOf c)).length

def areLinked (s : Store) (a b : CellId) : Bool := s.groupOf a = s.groupOf b

/-! ## Changing -/

def modifyCell (s : Store) (c : CellId) (f : Cell → Cell) : Store :=
  { s with cells := s.cells.modify c f }

def modifyGroup (s : Store) (g : GroupId) (f : Group → Group) : Store :=
  { s with groups := s.groups.modify g f }

def nextCell (s : Store) : CellId := s.cells.length

def nextSubscription (s : Store) : SubscriptionId := s.owners.length

/-- Make a cell with a group of its own. -/
def create (s : Store) (kind : CellKind) (value : Json) : Store :=
  { s with
    cells := s.cells ++ [{ value, kind, group := s.groups.length }]
    groups := s.groups ++ [{ members := [s.nextCell] }] }

/-- Make a cell that joins the group of another and starts with its value. -/
def link (s : Store) (source : CellId) (kind : CellKind) : Store :=
  let joined := s.modifyGroup (s.groupOf source) fun g =>
    { g with members := g.members ++ [s.nextCell] }
  { joined with cells := s.cells ++ [{ value := s.value source, kind, group := s.groupOf source }] }

def retain (s : Store) (c : CellId) : Store :=
  s.modifyCell c fun cell => { cell with handles := cell.handles + 1 }

def release (s : Store) (c : CellId) : Store :=
  s.modifyCell c fun cell => { cell with handles := cell.handles - 1 }

def subscribe (s : Store) (c : CellId) : Store :=
  let registered := s.modifyCell c fun cell =>
    { cell with subscriptions := cell.subscriptions ++ [s.nextSubscription] }
  { registered with owners := s.owners ++ [1] }

def hold (s : Store) (n : SubscriptionId) : Store := { s with owners := s.owners.modify n (· + 1) }

def unsubscribe (s : Store) (n : SubscriptionId) : Store :=
  { s with owners := s.owners.modify n (· - 1) }

def enqueue (s : Store) (g : GroupId) (value : Json) : Store :=
  s.modifyGroup g fun group => { group with pending := group.pending ++ [value] }

def setPropagating (s : Store) (g : GroupId) (b : Bool) : Store :=
  s.modifyGroup g fun group => { group with propagating := b }

/-- Take the oldest value that waits. -/
def dequeue? (s : Store) (g : GroupId) : Option (Json × Store) :=
  match ((s.groups[g]?).map (·.pending)).getD [] with
  | [] => none
  | value :: rest => some (value, s.modifyGroup g fun group => { group with pending := rest })

def assign (s : Store) (value : Json) (cells : List CellId) : Store :=
  cells.foldl (fun s c => s.modifyCell c fun cell => { cell with value }) s

end Store

end ReactiveView.Reactive
