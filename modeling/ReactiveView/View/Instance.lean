import ReactiveView.Text.Quoted
import ReactiveView.View.Branches
import ReactiveView.View.Node
import ReactiveView.View.World

/-!
# Views

A view is an instance of a component: its fields with their cells, the children that it has
rendered, and its tree.  Children are kept under keys and listed in the order of the keys.
-/

namespace ReactiveView

open Reactive (CellId SubscriptionId)

inductive View where
  | mk (name : String) (fields provided : List (String × CellId)) (number : Nat) (renders : UInt32)
      (children : List (String × View)) (history : BranchHistory)
      (activations : List BranchChoice) (tree : Option ViewNode)
      (subscriptions : List SubscriptionId)
deriving Inhabited

namespace View

/-! ## Parts -/

def name : View → String
  | .mk name _ _ _ _ _ _ _ _ _ => name

def fields : View → List (String × CellId)
  | .mk _ fields _ _ _ _ _ _ _ _ => fields

def provided : View → List (String × CellId)
  | .mk _ _ provided _ _ _ _ _ _ _ => provided

/-- The number under which requests to render the view are counted. -/
def number : View → Nat
  | .mk _ _ _ number _ _ _ _ _ _ => number

def renders : View → UInt32
  | .mk _ _ _ _ renders _ _ _ _ _ => renders

def keyedChildren : View → List (String × View)
  | .mk _ _ _ _ _ children _ _ _ _ => children

def history : View → BranchHistory
  | .mk _ _ _ _ _ _ history _ _ _ => history

def activations : View → List BranchChoice
  | .mk _ _ _ _ _ _ _ activations _ _ => activations

def tree : View → Option ViewNode
  | .mk _ _ _ _ _ _ _ _ tree _ => tree

def subscriptions : View → List SubscriptionId
  | .mk _ _ _ _ _ _ _ _ _ subscriptions => subscriptions

def fresh (name : String) (fields provided : List (String × CellId)) (number : Nat)
    (subscriptions : List SubscriptionId) : View :=
  .mk name fields provided number 0 [] {} [] none subscriptions

def rendered (v : View) (children : List (String × View)) (history : BranchHistory)
    (activations : List BranchChoice) (tree : ViewNode) : View :=
  .mk v.name v.fields v.provided v.number (v.renders + 1) children history activations (some tree)
    v.subscriptions

def withChildren (v : View) (children : List (String × View)) (history : BranchHistory) : View :=
  .mk v.name v.fields v.provided v.number v.renders children history v.activations v.tree
    v.subscriptions

/-! ## Reading -/

def cell? (v : View) (field : String) : Option CellId := v.fields.lookup field

def children (v : View) : List View := v.keyedChildren.map (·.2)

def child? (v : View) (name : String) : Option View := v.children.find? (·.name = name)

def activeBranch? (v : View) (site : UInt32) : Option UInt32 := v.history.active? site

def describe (v : View) : String :=
  s!"ViewInstance \x7b name: {Text.shown v.name}, " ++
    s!"fields: {Text.shownList (v.fields.map (·.1))}, " ++
    s!"children: {v.keyedChildren.length}, renders: {v.renders} \x7d"

/-- Put a child under its key; also the child that was there. -/
def insertChild (key : String) (child : View) :
    List (String × View) → List (String × View) × Option View
  | [] => ([(key, child)], none)
  | (k, c) :: rest =>
    if key < k then ((key, child) :: (k, c) :: rest, none)
    else if key = k then ((key, child) :: rest, some c)
    else
      let (rest, old) := insertChild key child rest
      ((k, c) :: rest, old)

/-! ## Dropping -/

mutual

def ownedCells : View → List CellId
  | .mk _ fields provided _ _ children _ _ _ _ =>
    fields.map (·.2) ++ provided.map (·.2) ++ ownedCellsAll children

def ownedCellsAll : List (String × View) → List CellId
  | [] => []
  | (_, v) :: rest => v.ownedCells ++ ownedCellsAll rest

end

mutual

def ownedSubscriptions : View → List SubscriptionId
  | .mk _ _ _ _ _ children _ _ _ subscriptions => subscriptions ++ ownedSubscriptionsAll children

def ownedSubscriptionsAll : List (String × View) → List SubscriptionId
  | [] => []
  | (_, v) :: rest => v.ownedSubscriptions ++ ownedSubscriptionsAll rest

end

end View

def World.dropAll (w : World) (views : List (String × View)) : World :=
  (w.unsubscribeAll (View.ownedSubscriptionsAll views)).releaseAll (View.ownedCellsAll views)

def World.drop (w : World) (v : View) : World :=
  (w.unsubscribeAll v.ownedSubscriptions).releaseAll v.ownedCells

end ReactiveView
